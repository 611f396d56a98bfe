import SpecDecode.Ngram.Result

/-!
# The trees that the n-gram builders make

Every builder adds nodes one by one under nodes that exist, as long as there is room, so
each node has one parent, with a smaller number, and one token.
-/

namespace SpecDecode.Ngram.DraftTree

open Function

structure Wf (t : DraftTree) : Prop where
  pos : 0 < t.cursor
  child : ∀ {v token c}, (token, c) ∈ t.next v → v < c ∧ c < t.cursor
  keys : ∀ v, ((t.next v).map Prod.fst).Nodup
  unique : ∀ {v w token token' c}, (token, c) ∈ t.next v → (token', c) ∈ t.next w →
    v = w ∧ token = token'
  reach : ∀ c, 0 < c → c < t.cursor → ∃ v token, (token, c) ∈ t.next v

theorem new_wf : new.Wf where
  pos := Nat.zero_lt_one
  child := nofun
  keys _ := List.nodup_nil
  unique := nofun
  reach c hc hlt := absurd hlt (by simp only [new]; omega)

theorem lookup_eq_none {l : List (Int × Nat)} {token : Int} (h : l.lookup token = none) :
    token ∉ l.map Prod.fst := by
  intro hmem
  obtain ⟨entry, hentry, rfl⟩ := List.mem_map.mp hmem
  exact absurd (List.lookup_eq_none_iff.mp h entry hentry) (by simp)

theorem mem_of_lookup {l : List (Int × Nat)} {token : Int} {c : Nat}
    (h : l.lookup token = some c) : (token, c) ∈ l := by
  obtain ⟨l₁, l₂, rfl, _⟩ := List.lookup_eq_some_iff.mp h
  exact List.mem_append_right _ List.mem_cons_self

theorem mem_update {t : DraftTree} {parent v c : Nat} {token token' : Int} :
    (token', c) ∈ update t.next parent (t.next parent ++ [(token, t.cursor)]) v ↔
      (token', c) ∈ t.next v ∨ (v = parent ∧ token' = token ∧ c = t.cursor) := by
  by_cases hv : v = parent
  · subst hv
    simp
  · rw [update_of_ne hv]
    simp [hv]

variable {t : DraftTree} {parent : Nat} {token : Int}

theorem Wf.cursor_notMem (h : t.Wf) {v : Nat} {token' : Int} : (token', t.cursor) ∉ t.next v :=
  fun hmem => Nat.lt_irrefl _ (h.child hmem).2

theorem Wf.insert (h : t.Wf) (hparent : parent < t.cursor)
    (hnew : (t.next parent).lookup token = none) :
    Wf ⟨update t.next parent (t.next parent ++ [(token, t.cursor)]), t.cursor + 1⟩ where
  pos := Nat.succ_pos _
  child := by
    intro v token' c hmem
    rcases mem_update.mp hmem with hmem | ⟨rfl, _, rfl⟩
    · exact ⟨(h.child hmem).1, Nat.lt_succ_of_lt (h.child hmem).2⟩
    · exact ⟨hparent, Nat.lt_succ_self _⟩
  keys := by
    intro v
    by_cases hv : v = parent
    · subst hv
      simp only [update_self, List.map_append, List.map_cons, List.map_nil]
      refine List.nodup_append.mpr ⟨h.keys v, List.nodup_singleton _, fun a ha b hb => ?_⟩
      rw [List.mem_singleton.mp hb]
      rintro rfl
      exact lookup_eq_none hnew ha
    · simp only [update_of_ne hv]
      exact h.keys v
  unique := by
    intro v w token₁ token₂ c hv hw
    rcases mem_update.mp hv with hold | ⟨rfl, rfl, rfl⟩
    · rcases mem_update.mp hw with hold' | ⟨_, _, rfl⟩
      · exact h.unique hold hold'
      · exact absurd hold h.cursor_notMem
    · rcases mem_update.mp hw with hold' | ⟨rfl, rfl, _⟩
      · exact absurd hold' h.cursor_notMem
      · exact ⟨rfl, rfl⟩
  reach := by
    intro c hc hlt
    rcases Nat.lt_succ_iff_lt_or_eq.mp hlt with hlt | rfl
    · obtain ⟨v, token', hmem⟩ := h.reach c hc hlt
      exact ⟨v, token', mem_update.mpr (.inl hmem)⟩
    · exact ⟨parent, token, mem_update.mpr (.inr ⟨rfl, rfl, rfl⟩)⟩

/-- A child is found or made, and a new one takes one more node. -/
theorem Wf.findOrInsert (h : t.Wf) (hparent : parent < t.cursor) (token : Int) :
    (t.findOrInsert parent token).2.Wf ∧
      (t.findOrInsert parent token).1 < (t.findOrInsert parent token).2.cursor ∧
      t.cursor ≤ (t.findOrInsert parent token).2.cursor ∧
      (t.findOrInsert parent token).2.cursor ≤ t.cursor + 1 := by
  unfold DraftTree.findOrInsert
  split
  · next pos hfound =>
      exact ⟨h, (h.child (mem_of_lookup hfound)).2, Nat.le_refl _, Nat.le_succ _⟩
  · next hnew =>
      exact ⟨h.insert hparent hnew, Nat.lt_succ_self _, Nat.le_succ _, Nat.le_refl _⟩

/-- A tree of at most `n` nodes. -/
def Fits (n : Nat) (t : DraftTree) : Prop := t.Wf ∧ t.cursor ≤ n

section Recency

variable {ν β : Type} {children : ν → List (Int × ν)} {breadth : β → Nat} {narrow : β → β}
variable {draftTokenNum : Nat}

theorem expandRecency_fits {score : β} {i : Nat} {nodes : List (Int × ν)}
    {queue queue' : List (Nat × β × ν)} {t' : DraftTree} (h : t.Fits (draftTokenNum + 1))
    (hparent : parent < t.cursor) (hqueue : ∀ e ∈ queue, e.1 < t.cursor)
    (hexpand : expandRecency draftTokenNum parent score i nodes queue t = (queue', t')) :
    t'.Fits (draftTokenNum + 1) ∧ ∀ e ∈ queue', e.1 < t'.cursor := by
  induction nodes generalizing i queue t with
  | nil =>
      cases i <;> obtain ⟨rfl, rfl⟩ := Prod.mk.inj hexpand <;> exact ⟨h, hqueue⟩
  | cons node nodes ih =>
      cases i with
      | zero =>
          obtain ⟨rfl, rfl⟩ := Prod.mk.inj hexpand
          exact ⟨h, hqueue⟩
      | succ i =>
          obtain ⟨token, node⟩ := node
          simp only [expandRecency] at hexpand
          split at hexpand
          · next hroom =>
              obtain ⟨hwf, hpos, hle, hlt⟩ := h.1.findOrInsert hparent token
              refine ih ⟨hwf, by omega⟩ (by omega) (fun e he => ?_) hexpand
              rcases List.mem_append.mp he with he | he
              · exact Nat.lt_of_lt_of_le (hqueue e he) hle
              · rw [List.mem_singleton.mp he]
                exact hpos
          · obtain ⟨rfl, rfl⟩ := Prod.mk.inj hexpand
            exact ⟨h, hqueue⟩

theorem recencyLoop_fits {fuel : Nat} {queue : List (Nat × β × ν)} {t' : DraftTree}
    (h : t.Fits (draftTokenNum + 1)) (hqueue : ∀ e ∈ queue, e.1 < t.cursor)
    (hloop : recencyLoop children breadth narrow draftTokenNum fuel queue t = some t') :
    t'.Fits (draftTokenNum + 1) := by
  induction fuel generalizing queue t with
  | zero =>
      simp only [recencyLoop] at hloop
      split at hloop
      · exact Option.some.inj hloop ▸ h
      · cases hloop
  | succ fuel ih =>
      cases queue with
      | nil => exact Option.some.inj hloop ▸ h
      | cons entry queue =>
          obtain ⟨parent, score, node⟩ := entry
          simp only [recencyLoop] at hloop
          split at hloop
          · obtain ⟨hfits, hqueue'⟩ := expandRecency_fits h (hqueue _ List.mem_cons_self)
              (fun e he => hqueue e (List.mem_cons_of_mem _ he)) rfl
            exact ih hfits hqueue' hloop
          · exact Option.some.inj hloop ▸ h

theorem buildRecency_fits {fuel : Nat} {anchors : List (β × ν)}
    (hbuild : buildRecency children breadth narrow draftTokenNum fuel anchors = some t) :
    t.Fits (draftTokenNum + 1) := by
  have hnew : new.Fits (draftTokenNum + 1) := ⟨new_wf, Nat.succ_le_succ (Nat.zero_le _)⟩
  refine Launch.launch_preserves (P := Fits (draftTokenNum + 1)) (fun anchor _ t t' ht hloop => ?_)
    hnew hbuild
  refine recencyLoop_fits ht (fun e he => ?_) hloop
  rw [List.mem_singleton.mp he]
  exact ht.1.pos

end Recency

section Frequency

variable {ν β : Type} {children : ν → List (Int × ν)} {share : ν → ν → β → β}
variable {pop : List (Nat × Int × ν × β) →
  Option ((Nat × Int × ν × β) × List (Nat × Int × ν × β))}
variable {draftTokenNum : Nat}

def Pops (pop : List (Nat × Int × ν × β) →
    Option ((Nat × Int × ν × β) × List (Nat × Int × ν × β))) : Prop :=
  ∀ {heap e rest}, pop heap = some (e, rest) → (e :: rest).Perm heap

theorem addToHeap_lt {node : ν} {prob : β} {heap : List (Nat × Int × ν × β)} {bound : Nat}
    (hheap : ∀ e ∈ heap, e.1 < bound) (hparent : parent < bound) :
    ∀ e ∈ addToHeap children share parent node prob heap, e.1 < bound := by
  intro e he
  rcases List.mem_append.mp he with he | he
  · exact hheap e he
  · obtain ⟨_, _, rfl⟩ := List.mem_map.mp he
    exact hparent

theorem frequencyLoop_fits (hpop : Pops pop) {fuel : Nat} {heap heap' : List (Nat × Int × ν × β)}
    {t' : DraftTree} (h : t.Fits (draftTokenNum + 1)) (hheap : ∀ e ∈ heap, e.1 < t.cursor)
    (hloop : frequencyLoop children share pop draftTokenNum fuel heap t = some (heap', t')) :
    t'.Fits (draftTokenNum + 1) ∧ ∀ e ∈ heap', e.1 < t'.cursor := by
  induction fuel generalizing heap t with
  | zero =>
      unfold frequencyLoop at hloop
      split at hloop
      · split at hloop
        · obtain ⟨rfl, rfl⟩ := Prod.mk.inj (Option.some.inj hloop)
          exact ⟨h, hheap⟩
        · cases hloop
      · obtain ⟨rfl, rfl⟩ := Prod.mk.inj (Option.some.inj hloop)
        exact ⟨h, hheap⟩
  | succ fuel ih =>
      unfold frequencyLoop at hloop
      split at hloop
      · next hroom =>
          split at hloop
          · obtain ⟨rfl, rfl⟩ := Prod.mk.inj (Option.some.inj hloop)
            exact ⟨h, hheap⟩
          · next parent token child prob rest htop =>
              have hmem := (hpop htop).mem_iff (a := (parent, token, child, prob))
              have hparent := hheap _ (hmem.mp List.mem_cons_self)
              obtain ⟨hwf, hpos, hle, hlt⟩ := h.1.findOrInsert hparent token
              refine ih ⟨hwf, by omega⟩ (addToHeap_lt (fun e he => ?_) hpos) hloop
              exact Nat.lt_of_lt_of_le
                (hheap e ((hpop htop).mem_iff.mp (List.mem_cons_of_mem _ he))) hle
      · obtain ⟨rfl, rfl⟩ := Prod.mk.inj (Option.some.inj hloop)
        exact ⟨h, hheap⟩

theorem buildFrequency_fits (hpop : Pops pop) {fuel : Nat} {one : β} {anchors : List ν}
    (hbuild : buildFrequency children share pop draftTokenNum fuel one anchors = some t) :
    t.Fits (draftTokenNum + 1) := by
  obtain ⟨⟨heap, t'⟩, hfold, rfl⟩ := Option.map_eq_some_iff.mp hbuild
  have hnew : new.Fits (draftTokenNum + 1) ∧ ∀ e ∈ ([] : List (Nat × Int × ν × β)),
      e.1 < new.cursor :=
    ⟨⟨new_wf, Nat.succ_le_succ (Nat.zero_le _)⟩, fun e he => absurd he List.not_mem_nil⟩
  refine (Launch.launch_preserves
    (P := fun s : List (Nat × Int × ν × β) × DraftTree =>
      s.2.Fits (draftTokenNum + 1) ∧ ∀ e ∈ s.1, e.1 < s.2.cursor)
    (fun node _ s s' hs hloop => ?_) hnew hfold).1
  exact frequencyLoop_fits hpop hs.1 (addToHeap_lt hs.2 hs.1.1.pos) hloop

end Frequency

section LeafPaths

variable {draftTokenNum : Nat}

theorem insertPath_fits (path : List Int) (h : t.Fits draftTokenNum) (hparent : parent < t.cursor) :
    (insertPath draftTokenNum parent path t).Fits draftTokenNum := by
  induction path generalizing parent t with
  | nil => exact h
  | cons token path ih =>
      simp only [insertPath]
      split
      · exact h
      · next hroom =>
          obtain ⟨hwf, hpos, hle, hlt⟩ := h.1.findOrInsert hparent token
          refine ih ⟨hwf, ?_⟩ hpos
          by_cases hnew : (t.next parent).lookup token = none
          · have hroom : ¬ draftTokenNum ≤ t.cursor := fun hfull => hroom ⟨hnew, hfull⟩
            omega
          · obtain ⟨pos, hfound⟩ := Option.ne_none_iff_exists'.mp hnew
            rw [DraftTree.findOrInsert, hfound]
            exact h.2

theorem insertPaths_fits {paths : List (List Int)} (h : t.Fits draftTokenNum) :
    (insertPaths draftTokenNum paths t).Fits draftTokenNum := by
  induction paths generalizing t with
  | nil => exact h
  | cons path paths ih =>
      have hpath := insertPath_fits path h h.1.pos
      simp only [insertPaths]
      split
      · exact hpath
      · exact ih hpath

end LeafPaths

/-- The trees that are handed to `fillResult` with room for `n` nodes. -/
inductive BuiltBy : Nat → DraftTree → Prop where
  | recency {ν β : Type} (children : ν → List (Int × ν)) (breadth : β → Nat) (narrow : β → β)
      (fuel draftTokenNum : Nat) (anchors : List (β × ν)) {t : DraftTree}
      (h : buildRecency children breadth narrow draftTokenNum fuel anchors = some t) :
      BuiltBy (draftTokenNum + 1) t
  | frequency {ν β : Type} (children : ν → List (Int × ν)) (share : ν → ν → β → β)
      (pop : List (Nat × Int × ν × β) → Option ((Nat × Int × ν × β) × List (Nat × Int × ν × β)))
      (hpop : Pops pop) (fuel draftTokenNum : Nat) (one : β) (anchors : List ν) {t : DraftTree}
      (h : buildFrequency children share pop draftTokenNum fuel one anchors = some t) :
      BuiltBy (draftTokenNum + 1) t
  | combine (primary secondary : Result) (draftTokenNum : Nat) {paths : List (List Int)}
      (h : mergedPaths primary secondary = some paths) (hroom : 1 ≤ draftTokenNum) :
      BuiltBy draftTokenNum (insertPaths draftTokenNum paths new)

theorem BuiltBy.fits {n : Nat} (h : BuiltBy n t) : t.Fits n := by
  cases h with
  | recency _ _ _ _ _ _ h => exact buildRecency_fits h
  | frequency _ _ _ hpop _ _ _ _ h => exact buildFrequency_fits hpop h
  | combine _ _ _ _ hroom => exact insertPaths_fits ⟨new_wf, hroom⟩

end SpecDecode.Ngram.DraftTree
