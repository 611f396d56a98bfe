import SpecDecode.Lib.Tree

/-!
# Greedy decoding along a draft tree

The abstract side of greedy verification. A `TokenTree` is a draft tree with the
token drafted and the token the target predicts at every node. `followTarget`
is the root path that always takes the first child with the predicted token.

When the predictions come from a target that sees the tokens from the root to the
node (`DecodedBy`), the predictions along any matching path are what the target
decodes token by token (`MatchPath.predicted_eq`). When siblings carry distinct
tokens, `followTarget` is the longest matching path (`MatchPath.isPrefix_followTarget`).
-/

namespace SpecDecode.Eagle

def greedyDecode (target : List Int → Int) : List Int → Nat → List Int
  | _, 0 => []
  | context, count + 1 =>
      target context :: greedyDecode target (context ++ [target context]) count

structure TokenTree (n : Nat) extends OrderedTree n where
  token : Nat → Int
  predicted : Nat → Int

namespace TokenTree

variable {n : Nat} (t : TokenTree n)

inductive TokenPath : Nat → List Int → Prop where
  | root : TokenPath 0 [t.token 0]
  | child {v c : Nat} {p : List Int} (h : TokenPath v p) (hc : c ∈ t.children v) :
      TokenPath c (p ++ [t.token c])

/-- The prediction at a node is the target's for the tokens that lead there. -/
def DecodedBy (target : List Int → Int) : Prop :=
  ∀ v p, t.TokenPath v p → t.predicted v = target p

/-- A path below `v` on which every token is the one predicted at its parent. -/
inductive MatchPath : Nat → List Nat → Prop where
  | nil {v : Nat} : MatchPath v []
  | cons {v c : Nat} {path : List Nat} (hc : c ∈ t.children v)
      (htoken : t.token c = t.predicted v) (rest : MatchPath c path) : MatchPath v (c :: path)

/-- The first child that carries the predicted token. -/
def nextNode (v : Nat) : Option Nat := (t.children v).find? fun c => t.token c = t.predicted v

/-- Follow the predictions for at most `limit` nodes below `v`. -/
def followTarget : (limit : Nat) → Nat → List Nat
  | 0, _ => []
  | limit + 1, v =>
      match t.nextNode v with
      | none => []
      | some c => c :: followTarget limit c

/-- No two children of a node carry the same token. -/
def DistinctSiblings : Prop :=
  ∀ v, ∀ c ∈ t.children v, ∀ d ∈ t.children v, t.token c = t.token d → c = d

variable {t}

variable {v limit : Nat} {path : List Nat}

theorem nextNode_eq_some {c : Nat} (h : t.nextNode v = some c) :
    c ∈ t.children v ∧ t.token c = t.predicted v := by
  unfold nextNode at h
  exact ⟨List.mem_of_find?_eq_some h, by simpa using List.find?_some h⟩

theorem followTarget_eq_nil_iff :
    t.followTarget limit v = [] ↔ (0 < limit → t.nextNode v = none) := by
  cases limit with
  | zero => simp [followTarget]
  | succ limit =>
      unfold followTarget
      cases t.nextNode v <;> simp

theorem followTarget_eq_cons_iff {c : Nat} :
    t.followTarget limit v = c :: path ↔
      ∃ k, limit = k + 1 ∧ t.nextNode v = some c ∧ t.followTarget k c = path := by
  cases limit with
  | zero => simp [followTarget]
  | succ limit =>
      rw [followTarget]
      cases t.nextNode v with
      | none => simp
      | some d =>
          simp only [List.cons.injEq, Nat.add_right_cancel_iff, exists_eq_left',
            Option.some.injEq]
          exact and_congr_right fun h => by rw [h]

theorem followTarget_length_le (limit v : Nat) : (t.followTarget limit v).length ≤ limit := by
  induction limit generalizing v with
  | zero => simp [followTarget]
  | succ limit ih =>
      unfold followTarget
      cases t.nextNode v with
      | none => simp
      | some c => simpa using ih c

theorem followTarget_matches (limit v : Nat) : t.MatchPath v (t.followTarget limit v) := by
  induction limit generalizing v with
  | zero => exact .nil
  | succ limit ih =>
      unfold followTarget
      cases h : t.nextNode v with
      | none => exact .nil
      | some c =>
          obtain ⟨hc, htoken⟩ := nextNode_eq_some h
          exact .cons hc htoken (ih c)

theorem MatchPath.isPrefix_followTarget (hd : t.DistinctSiblings)
    (h : t.MatchPath v path) (hlen : path.length ≤ limit) : path <+: t.followTarget limit v := by
  induction h generalizing limit with
  | nil => simp
  | @cons v c path hc htoken _ ih =>
      obtain ⟨k, rfl⟩ : ∃ k, limit = k + 1 := ⟨limit - 1, by simp at hlen; omega⟩
      have hnext : t.nextNode v = some c := by
        cases hfind : t.nextNode v with
        | none =>
            have := List.find?_eq_none.mp hfind c hc
            simp [htoken] at this
        | some d =>
            obtain ⟨hdmem, hdtoken⟩ := nextNode_eq_some hfind
            rw [hd v d hdmem c hc (hdtoken.trans htoken.symm)]
      simp only [followTarget, hnext]
      exact (List.cons_prefix_cons).mpr ⟨rfl, ih (by simpa using hlen)⟩

theorem MatchPath.predicted_eq {target : List Int → Int} (hdec : t.DecodedBy target)
    (h : t.MatchPath v path) {p : List Int} (hp : t.TokenPath v p) :
    (v :: path).map t.predicted = greedyDecode target p (path.length + 1) := by
  induction h generalizing p with
  | nil => simp [greedyDecode, hdec _ _ hp]
  | @cons v c path hc htoken _ ih =>
      have htail := ih (hp.child hc)
      rw [htoken, hdec v p hp] at htail
      rw [List.map_cons, htail, hdec v p hp]
      rfl

theorem MatchPath.tokens_eq (h : t.MatchPath v path) :
    (v :: path).map t.predicted =
      path.map t.token ++ [t.predicted ((v :: path).getLast (List.cons_ne_nil _ _))] := by
  induction h with
  | nil => simp
  | @cons v c path _ htoken _ ih =>
      rw [List.map_cons, ih, List.map_cons, htoken, List.getLast_cons (List.cons_ne_nil c path)]
      rfl

theorem MatchPath.lt (h : t.MatchPath v path) :
    ∀ c ∈ path, c < n := by
  induction h with
  | nil => simp
  | cons hc _ _ ih => exact List.forall_mem_cons.mpr ⟨t.child_lt hc, ih⟩

theorem MatchPath.descends (h : t.MatchPath v path) :
    ∀ c ∈ path, t.Below v c := by
  induction h with
  | nil => simp
  | cons hc _ _ ih =>
      exact List.forall_mem_cons.mpr ⟨.single hc, fun d hd => .head hc (ih d hd)⟩

theorem MatchPath.nodup (h : t.MatchPath v path) : (v :: path).Nodup := by
  induction h with
  | nil => simp
  | @cons v c path hc _ rest ih =>
      refine List.nodup_cons.mpr ⟨fun hv => ?_, ih⟩
      rcases List.mem_cons.mp hv with rfl | hv
      · exact OrderedTree.not_below_parent hc .refl
      · exact OrderedTree.not_below_parent hc (rest.descends v hv)

theorem MatchPath.length_lt (h : t.MatchPath 0 path) (hn : 0 < n) : path.length < n := by
  have hsub : 0 :: path ⊆ List.range n := by
    intro c hc
    rcases List.mem_cons.mp hc with rfl | hc
    · exact List.mem_range.mpr hn
    · exact List.mem_range.mpr (h.lt c hc)
  simpa [Nat.succ_le_iff] using (List.subperm_of_subset h.nodup hsub).length_le

theorem followTarget_take {k m : Nat} (hkm : k ≤ m) :
    t.followTarget k v = (t.followTarget m v).take k := by
  induction k generalizing m v with
  | zero => rw [followTarget, List.take_zero]
  | succ k ih =>
      obtain ⟨m, rfl⟩ : ∃ m', m = m' + 1 := ⟨m - 1, by omega⟩
      rw [followTarget, followTarget]
      cases t.nextNode v with
      | none => rfl
      | some c => exact congrArg (List.cons c) (ih (by omega))

end TokenTree

end SpecDecode.Eagle
