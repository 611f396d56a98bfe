import SpecDecode.Ngram.TrieRun

/-!
# Safety of insertion

`getNode` takes the last free node of the pool and `squeeze` takes the last node of
`global_lru_`, both without a check of their own. The accesses of a call record what they
find. A call is safe when every access finds a node, no node is released that the current
suffix has walked, and the call either throws at once or inserts one suffix after the other.

Room is made for a whole suffix before it is walked, so one count decides: a suffix must not
need as many nodes as the pool has, since one of them is the root.
-/

namespace SpecDecode.Ngram

namespace Trie

inductive Access where
  /-- `getNode` at a `free_node_count_`. -/
  | take (freeNodeCount : Nat)
  /-- A round of `squeeze` at a `global_lru_`, when the current suffix has walked `path`. -/
  | pop (globalLru path : List Nat)

def Access.Safe : Access → Prop
  | take free => 0 < free
  | pop lru path => ∃ last, lru.getLast? = some last ∧ last ∉ path

/-- The accesses of the constructor, and of `reset`: the root is taken. -/
def newAccesses (c : TrieConfig) : List Access := [.take c.capacity]

def walkAccesses (cursor : Nat) : List Int → Trie → List Access
  | [], _ => []
  | token :: rest, t =>
      match t.findChild cursor token with
      | none =>
          .take t.freeNodeCount ::
            walkAccesses (t.addChild cursor token).1 rest (t.addChild cursor token).2
      | some node => walkAccesses node rest (t.touchChild cursor node)

def releaseAccesses (path : List Nat) : (count : Nat) → Trie → List Access
  | 0, _ => []
  | count + 1, t =>
      .pop t.globalLru path ::
        match t.releaseLast with
        | .returned t' => releaseAccesses path count t'
        | _ => []

def squeezeAccesses (c : TrieConfig) (path : List Nat) (count : Nat) (t : Trie) : List Access :=
  if c.capacity < t.freeNodeCount + count then [] else releaseAccesses path count t

/-- The accesses of one round of the outer loop. Room is made before the walk, so nothing of
the suffix has been walked then. -/
def suffixAccesses (c : TrieConfig) (suffix : List Int) (t : Trie) : List Access :=
  if t.freeNodeCount < suffix.length then
    t.squeezeAccesses c [] (suffix.length - t.freeNodeCount) ++
      match t.squeeze c (suffix.length - t.freeNodeCount) with
      | .returned t' => walkAccesses t'.root suffix t'
      | _ => []
  else walkAccesses t.root suffix t

def insertAccesses (c : TrieConfig) : List Int → Trie → List Access
  | [], _ => []
  | token :: rest, t =>
      t.suffixAccesses c ((token :: rest).take c.maxTrieDepth) ++
        match t.insertSuffix c ((token :: rest).take c.maxTrieDepth) with
        | .returned t' => insertAccesses c rest t'
        | _ => []

/-- One suffix after the other is inserted: its round ends with a path of the trie that spells
it. A later round may release nodes of the path again. -/
def InsertsAll (c : TrieConfig) : List Int → Trie → Trie → Prop
  | [], t, t' => t' = t
  | token :: rest, t, t' => ∃ t₁,
      t.insertSuffix c ((token :: rest).take c.maxTrieDepth) = .returned t₁ ∧
      (∃ v, t₁.Spells v ((token :: rest).take c.maxTrieDepth)) ∧ InsertsAll c rest t₁ t'

structure InsertSafe (c : TrieConfig) (tokens : List Int) (t : Trie) : Prop where
  accesses : ∀ a ∈ t.insertAccesses c tokens, a.Safe
  outcome : (∃ e, t.insert c tokens = .threw e t) ∨
    ∃ t', t.insert c tokens = .returned t' ∧ InsertsAll c tokens t t'

/-- Every call of a run is safe. -/
def RunSafe (c : TrieConfig) : List (List Int) → Trie → Prop
  | [], _ => True
  | tokens :: calls, t => t.InsertSafe c tokens ∧
      ∃ t', (t.insert c tokens).state = some t' ∧ RunSafe c calls t'

section Safety

variable {c : TrieConfig} {t t' : Trie}

theorem walkAccesses_safe {tokens : List Int} {cursor : Nat}
    (hfree : tokens.length ≤ t.freeNodeCount) :
    ∀ a ∈ walkAccesses cursor tokens t, a.Safe := by
  induction tokens generalizing t cursor with
  | nil => simp [walkAccesses]
  | cons token rest ih =>
      rw [List.length_cons] at hfree
      rw [walkAccesses]
      cases t.findChild cursor token with
      | none =>
          refine List.forall_mem_cons.mpr ⟨?_, ih ?_⟩
          · exact Nat.lt_of_lt_of_le (Nat.succ_pos _) hfree
          · exact Nat.le_sub_one_of_lt hfree
      | some node => exact ih (Nat.le_of_succ_le hfree)

theorem releaseAccesses_safe (path : List Nat) {count : Nat} (h : Inv c t)
    (hcount : count ≤ t.globalLru.length) (hpath : ∀ v ∈ path, v ∉ t.globalLru) :
    ∀ a ∈ releaseAccesses path count t, a.Safe := by
  induction count generalizing t with
  | zero => simp [releaseAccesses]
  | succ count ih =>
      have hne : t.globalLru ≠ [] := fun hnil => by simp [hnil] at hcount
      have hlru := (List.dropLast_concat_getLast hne).symm
      obtain ⟨t', hrun, ha⟩ := releaseLast_spec h hlru
      rw [releaseAccesses, hrun]
      refine List.forall_mem_cons.mpr ⟨?_, ih (ha.inv h hlru) ?_ fun v hv hmem => ?_⟩
      · refine ⟨t.globalLru.getLast hne, List.getLast?_eq_some_getLast hne, fun hmem => ?_⟩
        exact hpath _ hmem (List.getLast_mem hne)
      · rw [ha.lru, List.length_dropLast]
        omega
      · rw [ha.lru] at hmem
        exact hpath v hv (List.dropLast_subset _ hmem)

theorem PathSpells.exists_spells {pre tokens : List Int} {path : List Nat} {u : Nat}
    (h : PathSpells t pre tokens path) (hpre : t.Spells u pre) :
    ∃ v, t.Spells v (pre ++ tokens) := by
  induction h generalizing u with
  | nil => exact ⟨u, by rwa [List.append_nil]⟩
  | cons hv _ ih =>
      obtain ⟨w, hw⟩ := ih hv
      exact ⟨w, by rwa [List.append_assoc, List.singleton_append] at hw⟩

private theorem walk_inserts {suffix : List Int} (h : Inv c t)
    (hfree : suffix.length ≤ t.freeNodeCount) :
    Inv c ((walk t.root suffix t).1.reverse.foldl spliceFront (walk t.root suffix t).2) ∧
      ∃ v, ((walk t.root suffix t).1.reverse.foldl spliceFront
        (walk t.root suffix t).2).Spells v suffix := by
  obtain ⟨hinv, _, hpath, -⟩ := walk_spec suffix t t.root [] h .root (.inl rfl) hfree
  obtain ⟨hinv', hgrows, -⟩ := hinv.splice hpath
  obtain ⟨v, hv⟩ := hpath.exists_spells .root
  exact ⟨hinv', v, hgrows.path v _ hv⟩

theorem insertSuffix_safe {suffix : List Int} (h : Inv c t) (hlen : suffix.length < c.capacity) :
    (∀ a ∈ t.suffixAccesses c suffix, a.Safe) ∧
      ∃ t', t.insertSuffix c suffix = .returned t' ∧ Inv c t' ∧ ∃ v, t'.Spells v suffix := by
  have hpool := h.count
  unfold suffixAccesses insertSuffix
  by_cases hfull : t.freeNodeCount < suffix.length
  · have hguard : ¬ c.capacity < t.freeNodeCount + (suffix.length - t.freeNodeCount) := by omega
    have hcount : suffix.length - t.freeNodeCount ≤ t.globalLru.length := by omega
    obtain ⟨t₁, hrun, h₁, _, hfree, -⟩ := releaseNodes_spec _ h hcount
    have hsqueeze : t.squeeze c (suffix.length - t.freeNodeCount) = .returned t₁ := by
      rw [squeeze, if_neg hguard, hrun]
    have hroom : suffix.length ≤ t₁.freeNodeCount := by omega
    simp only [if_pos hfull, hsqueeze]
    refine ⟨fun a ha => ?_, _, rfl, walk_inserts h₁ hroom⟩
    rcases List.mem_append.mp ha with ha | ha
    · rw [squeezeAccesses, if_neg hguard] at ha
      exact releaseAccesses_safe [] h hcount (by simp) a ha
    · exact walkAccesses_safe hroom a ha
  · have hroom : suffix.length ≤ t.freeNodeCount := Nat.le_of_not_lt hfull
    simp only [if_neg hfull]
    exact ⟨walkAccesses_safe hroom, _, rfl, walk_inserts h hroom⟩

/-- A call whose suffixes are all shorter than the pool inserts them. -/
theorem insert_inserts {tokens : List Int} (h : Inv c t)
    (hlen : min tokens.length c.maxTrieDepth < c.capacity) :
    (∀ a ∈ t.insertAccesses c tokens, a.Safe) ∧
      ∃ t', t.insert c tokens = .returned t' ∧ Inv c t' ∧ InsertsAll c tokens t t' := by
  induction tokens generalizing t with
  | nil => exact ⟨by simp [insertAccesses], t, rfl, h, rfl⟩
  | cons token rest ih =>
      have hsuffix : ((token :: rest).take c.maxTrieDepth).length < c.capacity := by
        rwa [List.length_take, Nat.min_comm]
      rw [List.length_cons] at hlen
      obtain ⟨hsafe, t₁, hround, h₁, hspells⟩ := insertSuffix_safe h hsuffix
      obtain ⟨hsafe', t', hrest, h', hall⟩ := ih h₁ (by omega)
      refine ⟨fun a ha => ?_, t', ?_, h', t₁, hround, hspells, hall⟩
      · rw [insertAccesses, hround] at ha
        exact (List.mem_append.mp ha).elim (hsafe a) (hsafe' a)
      · rw [insert, hround]
        exact hrest

/-- A first suffix that is longer than the pool is refused before anything is accessed. -/
theorem insertAccesses_refused {tokens : List Int} (h : Inv c t)
    (hlen : c.capacity < min tokens.length c.maxTrieDepth) : t.insertAccesses c tokens = [] := by
  have hpool := h.count
  cases tokens with
  | nil => rfl
  | cons token rest =>
      have hsuffix : ((token :: rest).take c.maxTrieDepth).length =
          min (token :: rest).length c.maxTrieDepth := by
        rw [List.length_take, Nat.min_comm]
      obtain ⟨n, hn⟩ : ∃ n, n = ((token :: rest).take c.maxTrieDepth).length := ⟨_, rfl⟩
      have hguard : c.capacity < t.freeNodeCount + (n - t.freeNodeCount) := by omega
      have hfull : t.freeNodeCount < n := by omega
      have hsqueeze : t.squeeze c (n - t.freeNodeCount) =
          .threw (.insufficient (c.capacity - t.freeNodeCount) (n - t.freeNodeCount)) t := by
        rw [squeeze, if_pos hguard]
      rw [insertAccesses, suffixAccesses, insertSuffix, ← hn]
      simp only [if_pos hfull, hsqueeze, squeezeAccesses, if_pos hguard]
      rfl

theorem insertSafe_iff {tokens : List Int} (h : Inv c t) :
    t.InsertSafe c tokens ↔ min tokens.length c.maxTrieDepth ≠ c.capacity := by
  constructor
  · rintro ⟨_, houtcome⟩ heq
    have hnot : ¬ OpOk c t (.insert tokens) := not_not.mpr heq
    have hundefined : t.insert c tokens = .undefined := step_undefined h hnot
    rw [hundefined] at houtcome
    rcases houtcome with ⟨e, he⟩ | ⟨t', ht', _⟩
    · cases he
    · cases ht'
  · intro hne
    rcases Nat.lt_or_gt_of_ne hne with hlt | hgt
    · obtain ⟨hsafe, t', hrun, _, hall⟩ := insert_inserts h hlt
      exact ⟨hsafe, .inr ⟨t', hrun, hall⟩⟩
    · obtain ⟨e, _, hthrew⟩ := insert_threw h hgt
      exact ⟨by simp [insertAccesses_refused h hgt], .inl ⟨e, hthrew⟩⟩

theorem runSafe_iff (calls : List (List Int)) (hc : 0 < c.capacity) (h : Inv c t) :
    RunSafe c calls t ↔ ∀ tokens ∈ calls, min tokens.length c.maxTrieDepth ≠ c.capacity := by
  induction calls generalizing t with
  | nil => simp [RunSafe]
  | cons tokens calls ih =>
      rw [RunSafe, insertSafe_iff h, List.forall_mem_cons]
      refine and_congr_right fun hne => ?_
      have hop : OpOk c t (.insert tokens) := hne
      obtain ⟨t', hstep, h', _⟩ := step_spec hc h hop
      have hstate : (t.insert c tokens).state = some t' := by
        rcases hstep with hstep | ⟨e, _, hstep⟩
        · exact congrArg Outcome.state hstep
        · exact congrArg Outcome.state hstep
      constructor
      · rintro ⟨t'', hstate', hrun⟩
        obtain rfl := Option.some.inj (hstate.symm.trans hstate')
        exact (ih h').mp hrun
      · exact fun hall => ⟨t', hstate, (ih h').mpr hall⟩

/-- The constructor and the calls of a run are safe exactly when the pool has a node and no
call needs as many nodes as the pool has. -/
theorem run_insertSafe_iff (c : TrieConfig) (calls : List (List Int)) :
    (∀ a ∈ newAccesses c, a.Safe) ∧ RunSafe c calls (new c) ↔
      0 < c.capacity ∧ ∀ tokens ∈ calls, min tokens.length c.maxTrieDepth ≠ c.capacity := by
  have hnew : (∀ a ∈ newAccesses c, a.Safe) ↔ 0 < c.capacity := by
    simp [newAccesses, Access.Safe]
  rw [hnew]
  exact and_congr_right fun hc => runSafe_iff calls hc (refill_inv hc _)

end Safety

/-- With a pool of two nodes the second round of `squeeze` finds an empty list. -/
theorem run_not_insertSafe_full :
    ¬ ((∀ a ∈ newAccesses ⟨2, 2⟩, a.Safe) ∧ RunSafe ⟨2, 2⟩ [[1, 2]] (new ⟨2, 2⟩)) := by
  rintro ⟨_, ⟨haccesses, _⟩, _⟩
  have hpop : Access.pop [] [] ∈ (new ⟨2, 2⟩).insertAccesses ⟨2, 2⟩ [1, 2] := List.mem_cons_self
  obtain ⟨last, hlast, _⟩ := haccesses _ hpop
  cases hlast

end Trie

end SpecDecode.Ngram
