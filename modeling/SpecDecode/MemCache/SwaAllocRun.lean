import SpecDecode.MemCache.SwaAllocStep

/-!
# Runs of the hybrid allocator

The two pools stay in step over every run, as long as no `alloc_decode` finds enough pages in one
of them only: it asks neither pool beforehand, so the pages of the one are lost when the other
has too few. Nor may it find too few pages where the kernel cannot read behind the free list.
-/

namespace SpecDecode.MemCache

namespace SwaAllocator

def Has (s : SwaAllocator) (p : Pool) (reqs : List ExtendReq) : Prop :=
  (reqs.map (·.numNewPages s.pageSize)).sum ≤ p.availableSize / s.pageSize

instance (s : SwaAllocator) (p : Pool) (reqs : List ExtendReq) : Decidable (s.Has p reqs) :=
  inferInstanceAs (Decidable (_ ≤ _))

/-- Neither pool nor the mapping changes, but for where the free pages are. -/
structure Unchanged (s s' : SwaAllocator) : Prop where
  fullPages : s'.fullAttnAllocator.allocator.pages = s.fullAttnAllocator.allocator.pages
  fullUsed : s'.fullAttnAllocator.used = s.fullAttnAllocator.used
  swaPages : s'.swaAttnAllocator.allocator.pages = s.swaAttnAllocator.allocator.pages
  swaUsed : s'.swaAttnAllocator.used = s.swaAttnAllocator.used
  mapping : s'.fullToSwaIndexMapping = s.fullToSwaIndexMapping

/-- The pools of `n` and `n'` pages are in step. -/
structure InStep (n n' : Nat) (s : SwaAllocator) : Prop where
  injective : Set.InjOn s.fullToSwaIndexMapping {x | 0 ≤ x ∧ s.fullToSwaIndexMapping x ≠ 0}
  held : {x | 0 ≤ x ∧ s.fullToSwaIndexMapping x ≠ 0} ⊆ (s.fullAttnAllocator.used : Set Int)
  onto : Set.image s.fullToSwaIndexMapping {x | 0 ≤ x ∧ s.fullToSwaIndexMapping x ≠ 0} =
    (s.swaAttnAllocator.used : Set Int)
  fullPages : s.fullAttnAllocator.allocator.freePages.length +
    s.fullAttnAllocator.allocator.releasePages.length +
    (s.fullAttnAllocator.used.image (· / (s.pageSize : Int))).card = n
  swaPages : s.swaAttnAllocator.allocator.freePages.length +
    s.swaAttnAllocator.allocator.releasePages.length +
    (s.swaAttnAllocator.used.image (· / (s.pageSize : Int))).card = n'

end SwaAllocator

namespace SwaAllocOp

/-- What the callers see to: a batch goes on behind its last slots, a slot is freed once, and
with all used slots of its page. -/
def Fits (s : SwaAllocator) : SwaAllocOp → Prop
  | alloc _ => s.pageSize = 1
  | allocExtend _ _ reqs => 1 < s.pageSize ∧ s.Serving reqs
  | allocDecode _ _ reqs =>
      1 < s.pageSize ∧ s.Serving reqs ∧ ∀ r ∈ reqs, r.seqLen = r.prefixLen + 1
  | free l => l.Nodup ∧ (∀ x ∈ l, x ∉ s.pending) ∧
      WholePages s.pageSize s.fullAttnAllocator.used l.toFinset
  | freeSwa l => l.Nodup ∧ WholePages s.pageSize s.fullAttnAllocator.used l.toFinset
  | freeGroupBegin => True
  | freeGroupEnd => s.isNotInFreeGroup = false
  | clear => True

/-- No `alloc_decode` finds enough pages in one pool only, or too few behind an empty free list or
one that ends where memory does. -/
def Agrees (s : SwaAllocator) : SwaAllocOp → Prop
  | allocDecode mem memSwa reqs =>
      (s.Has s.fullAttnAllocator reqs ↔ s.Has s.swaAttnAllocator reqs) ∧
        s.fullAttnAllocator.allocator.CanRefuse mem.mapped reqs ∧
        s.swaAttnAllocator.allocator.CanRefuse memSwa.mapped (s.translateLoc reqs)
  | _ => True

instance (s : SwaAllocator) (op : SwaAllocOp) : Decidable (op.Fits s) := by
  cases op <;> unfold Fits <;> infer_instance

instance (s : SwaAllocator) (op : SwaAllocOp) : Decidable (op.Agrees s) := by
  cases op <;> unfold Agrees <;> infer_instance

def IsAlloc : SwaAllocOp → Prop
  | alloc _ | allocExtend _ _ _ | allocDecode _ _ _ => True
  | _ => False

/-- The operation does not raise, and an allocation that returns `None` changes nothing. -/
def Works (s : SwaAllocator) (op : SwaAllocOp) : Prop :=
  ∃ out s', op.exec s = some (out, s') ∧ (op.IsAlloc → out = none → s.Unchanged s')

end SwaAllocOp

/-- The states that an allocator gets into by operations that are `ok`. -/
inductive SwaAllocRun (size sizeSwa pageSize : Nat) (ok : SwaAllocator → SwaAllocOp → Prop) :
    SwaAllocator → Prop where
  | new (needSort : Bool) :
      SwaAllocRun size sizeSwa pageSize ok (.new size sizeSwa pageSize needSort)
  | step {s s' : SwaAllocator} {out : Option (List Int)} (op : SwaAllocOp)
      (h : SwaAllocRun size sizeSwa pageSize ok s) (hfits : op.Fits s) (hok : ok s op)
      (hexec : op.exec s = some (out, s')) : SwaAllocRun size sizeSwa pageSize ok s'

namespace SwaAllocator

section Steps

variable {n n' : Nat} {s s' : SwaAllocator} {reqs : List ExtendReq}
variable {r r' : AllocResult × Allocator}

theorem Unchanged.refl (s : SwaAllocator) : s.Unchanged s := ⟨rfl, rfl, rfl, rfl, rfl⟩

theorem Inv.inStep (h : s.Inv n n') : s.InStep n n' where
  injective := h.paired.injOn
  held x hx := h.paired.held x hx.1 hx.2
  onto := by
    ext y
    rw [Finset.mem_coe, h.paired.image]
    constructor
    · rintro ⟨x, hx, rfl⟩
      exact ⟨x, h.paired.held x hx.1 hx.2, hx.2, rfl⟩
    · rintro ⟨x, hx, hne, rfl⟩
      exact ⟨x, ⟨(h.full.booked.pos hx).le, hne⟩, rfl⟩
  fullPages := by
    rw [← Allocator.card_pages]
    exact h.full.booked.card
  swaPages := by
    rw [← Allocator.card_pages]
    exact h.swa.booked.card

theorem newPages_translate (h : s.Inv n n') (reqs : List ExtendReq) :
    s.fullAttnAllocator.allocator.newPages reqs = (reqs.map (·.numNewPages s.pageSize)).sum ∧
      s.swaAttnAllocator.allocator.newPages (s.translateLoc reqs) =
        (reqs.map (·.numNewPages s.pageSize)).sum := by
  constructor
  · rw [Allocator.newPages, h.full.pageSize]
    rfl
  · rw [Allocator.newPages, h.swa.pageSize, translateLoc, List.map_map]
    rfl

theorem Inv.has_full (h : s.Inv n n') : s.Has s.fullAttnAllocator reqs ↔
    s.fullAttnAllocator.allocator.newPages reqs ≤
      Multiset.card s.fullAttnAllocator.allocator.pages := by
  rw [Has, h.full.availableSize_div h.pageSize_pos, (newPages_translate h reqs).1]

theorem Inv.has_swa (h : s.Inv n n') : s.Has s.swaAttnAllocator reqs ↔
    s.swaAttnAllocator.allocator.newPages (s.translateLoc reqs) ≤
      Multiset.card s.swaAttnAllocator.allocator.pages := by
  rw [Has, h.swa.availableSize_div h.pageSize_pos, (newPages_translate h reqs).2]

theorem outcome_slots {ps n : Nat} {p : Pool} (h : BatchOutcome ps n p reqs r)
    (henough : p.allocator.newPages reqs ≤ Multiset.card p.allocator.pages) :
    ∃ out, r.1.out = some out := by
  cases h with
  | faulted few => omega
  | refused few => omega
  | slots b out enough result => exact ⟨out, result⟩

theorem outcome_none {ps n : Nat} {p : Pool} (h : BatchOutcome ps n p reqs r)
    (hfew : ¬ p.allocator.newPages reqs ≤ Multiset.card p.allocator.pages) : r.1.out = none := by
  cases h with
  | faulted few result => rw [result]; rfl
  | refused few result => rw [result]; rfl
  | slots b out enough => exact absurd enough hfew

theorem outcome_refused {ps n : Nat} {p : Pool} (h : BatchOutcome ps n p reqs r)
    (hfew : ¬ p.allocator.newPages reqs ≤ Multiset.card p.allocator.pages)
    (hread : r.1 ≠ .faulted) :
    r.2.pages = p.allocator.pages ∧ (p.behind r).used = p.used ∧ (p.behind r).Inv ps n := by
  cases h with
  | faulted few result => exact absurd result hread
  | refused few result pages inv =>
      refine ⟨pages, ?_, inv⟩
      rw [Pool.behind, result]
      exact Finset.union_empty _
  | slots b out enough => exact absurd enough hfew

/-- The first slots of a pool of single slots are those of a new request. -/
theorem Inv.tokens (h : s.Inv n n') (hone : s.pageSize = 1) (needSize : Nat) :
    s.Serving [tokensReq needSize] ∧
    s.translateLoc [tokensReq needSize] = [tokensReq needSize] := by
  have hpart : ∀ r : ExtendReq, ¬ r.Partial s.pageSize := fun r hpart => by
    rw [ExtendReq.Partial, hone] at hpart
    exact hpart (Nat.mod_one _)
  refine ⟨⟨hone ▸ tokensReq_fits needSize, fun r _ h => absurd h (hpart r),
    fun r _ h => absurd h (hpart r)⟩, ?_⟩
  rw [translateLoc, List.map_singleton, tokensReq, h.sentinel]

theorem Inv.alloc (h : s.Inv n n') (hone : s.pageSize = 1) (needSize : Nat) :
    ∃ out s', s.alloc needSize = some (out, s') ∧ s'.Inv n n' ∧ (out = none → s.Unchanged s') := by
  unfold SwaAllocator.alloc
  rw [if_neg (not_not.mpr hone)]
  split
  · exact ⟨none, s, rfl, h, fun _ => .refl s⟩
  · next hfull =>
      split
      · exact ⟨none, s, rfl, h, fun _ => .refl s⟩
      · next hswa =>
          have hinv := h.full
          have hinv' := h.swa
          rw [hone] at hinv hinv'
          have houtcome := hinv.tokenBatch needSize
          have houtcome' := hinv'.tokenBatch needSize
          have havail := hinv.availableSize_div Nat.one_pos
          have havail' := hinv'.availableSize_div Nat.one_pos
          rw [Nat.div_one] at havail havail'
          obtain ⟨out, hout⟩ := outcome_slots houtcome (by
            rw [tokensReq_newPages hinv.pageSize]
            omega)
          obtain ⟨out', hout'⟩ := outcome_slots houtcome' (by
            rw [tokensReq_newPages hinv'.pageSize]
            omega)
          obtain ⟨hserving, htranslate⟩ := h.tokens hone needSize
          rw [← hone] at houtcome houtcome'
          rw [← htranslate] at houtcome'
          rw [Pool.alloc_eq hinv.pageSize, Pool.alloc_eq hinv'.pageSize, hout, hout']
          refine ⟨some out, _, rfl, h.serve hserving houtcome houtcome' hout hout', fun hc => ?_⟩
          exact absurd hc (Option.some_ne_none _)

theorem Inv.allocExtend (h : s.Inv n n') (hpaged : 1 < s.pageSize) (hserving : s.Serving reqs)
    (mem memSwa : LaunchMem) : ∃ out s', s.allocExtend mem memSwa reqs = some (out, s') ∧
      s'.Inv n n' ∧ (out = none → s.Unchanged s') := by
  unfold SwaAllocator.allocExtend
  rw [if_neg (Nat.not_le.mpr hpaged)]
  simp only
  split
  · exact ⟨none, s, rfl, h, fun _ => .refl s⟩
  · next hfull =>
      split
      · exact ⟨none, s, rfl, h, fun _ => .refl s⟩
      · next hswa =>
          have houtcome := h.full.allocExtendBatch h.pageSize_pos hserving.fits mem
          have houtcome' := h.swa.allocExtendBatch h.pageSize_pos (h.translate hserving) memSwa
          obtain ⟨out, hout⟩ := outcome_slots houtcome (h.has_full.mp (Nat.not_lt.mp hfull))
          obtain ⟨out', hout'⟩ := outcome_slots houtcome' (h.has_swa.mp (Nat.not_lt.mp hswa))
          rw [hout, hout']
          refine ⟨some out, _, rfl, h.serve hserving houtcome houtcome' hout hout', fun hc => ?_⟩
          exact absurd hc (Option.some_ne_none _)

theorem outcome_changed {ps n : Nat} {p : Pool} (h : BatchOutcome ps n p reqs r)
    (henough : p.allocator.newPages reqs ≤ Multiset.card p.allocator.pages)
    (hpos : 0 < p.allocator.newPages reqs) : r.2.pages ≠ p.allocator.pages := by
  intro hsame
  cases h with
  | faulted few => omega
  | refused few => omega
  | slots b out enough result size reqs valid serves free taken =>
      rw [hsame] at taken
      omega

private theorem ne_faulted_of_out {out : List Int} (h : r.1.out = some out) : r.1 ≠ .faulted := by
  intro hfault
  rw [hfault] at h
  cases h

/-- `alloc_decode` works if both pools or neither can serve the batch, and neither launch faults. -/
theorem Inv.allocDecode (h : s.Inv n n') (hpaged : 1 < s.pageSize) (hserving : s.Serving reqs)
    (hdec : ∀ r ∈ reqs, r.seqLen = r.prefixLen + 1) (mem memSwa : LaunchMem) :
    ((∃ out s', s.allocDecode mem memSwa reqs = some (out, s') ∧ (out = none → s.Unchanged s')) ↔
      (SwaAllocOp.allocDecode mem memSwa reqs).Agrees s) ∧
    ((SwaAllocOp.allocDecode mem memSwa reqs).Agrees s →
      ∀ out s', s.allocDecode mem memSwa reqs = some (out, s') → s'.Inv n n') := by
  have hdec' : ∀ r ∈ s.translateLoc reqs, r.seqLen = r.prefixLen + 1 := fun r hr => by
    obtain ⟨q, hq, rfl⟩ := List.mem_map.mp hr
    exact hdec q hq
  have houtcome := h.full.allocDecodeBatch hpaged hserving.fits hdec mem
  have houtcome' := h.swa.allocDecodeBatch hpaged (h.translate hserving) hdec' memSwa
  have hfault := h.full.allocDecodeBatch_faulted h.pageSize_pos hdec mem
  have hfault' := h.swa.allocDecodeBatch_faulted h.pageSize_pos hdec' memSwa
  have hneed : s.swaAttnAllocator.allocator.newPages (s.translateLoc reqs) =
      s.fullAttnAllocator.allocator.newPages reqs :=
    (newPages_translate h reqs).2.trans (newPages_translate h reqs).1.symm
  unfold SwaAllocator.allocDecode
  simp only [SwaAllocOp.Agrees, if_neg (Nat.not_le.mpr hpaged), ← not_iff_comm.mp hfault.symm,
    ← not_iff_comm.mp hfault'.symm]
  by_cases hfull : s.Has s.fullAttnAllocator reqs <;> by_cases hswa : s.Has s.swaAttnAllocator reqs
  · -- both pools serve the batch
    obtain ⟨out, hout⟩ := outcome_slots houtcome (h.has_full.mp hfull)
    obtain ⟨out', hout'⟩ := outcome_slots houtcome' (h.has_swa.mp hswa)
    have hno := ne_faulted_of_out hout
    have hno' := ne_faulted_of_out hout'
    rw [if_neg (not_or.mpr ⟨hno, hno'⟩), hout, hout']
    refine ⟨iff_of_true ⟨some out, _, rfl, nofun⟩ ⟨iff_of_true hfull hswa, hno, hno'⟩, ?_⟩
    rintro - _ _ ⟨⟩
    exact h.serve hserving houtcome houtcome' hout hout'
  · -- the pages of the full pool are lost
    refine ⟨iff_of_false ?_ fun hagree => hswa (hagree.1.mp hfull),
      fun hagree => absurd (hagree.1.mp hfull) hswa⟩
    obtain ⟨out, hout⟩ := outcome_slots houtcome (h.has_full.mp hfull)
    have hnone := outcome_none houtcome' (mt h.has_swa.mpr hswa)
    have hpos := Nat.lt_of_not_ge (mt h.has_swa.mpr hswa)
    rintro ⟨_, _, hdone, hkeep⟩
    split at hdone
    · cases hdone
    · rw [hout, hnone] at hdone
      cases hdone
      exact outcome_changed houtcome (h.has_full.mp hfull) (by omega) (hkeep rfl).fullPages
  · -- the pages of the window pool are lost
    refine ⟨iff_of_false ?_ fun hagree => hfull (hagree.1.mpr hswa),
      fun hagree => absurd (hagree.1.mpr hswa) hfull⟩
    have hnone := outcome_none houtcome (mt h.has_full.mpr hfull)
    have hpos := Nat.lt_of_not_ge (mt h.has_full.mpr hfull)
    rintro ⟨_, _, hdone, hkeep⟩
    split at hdone
    · cases hdone
    · rw [hnone] at hdone
      cases hdone
      exact outcome_changed houtcome' (h.has_swa.mp hswa) (by omega) (hkeep rfl).swaPages
  · -- neither pool has enough pages
    rw [outcome_none houtcome (mt h.has_full.mpr hfull)]
    split
    · next hbad =>
        refine ⟨iff_of_false (by rintro ⟨_, _, ⟨⟩, _⟩) fun hagree => ?_, nofun⟩
        exact hbad.elim hagree.2.1 hagree.2.2
    · next hok =>
        obtain ⟨hno, hno'⟩ := not_or.mp hok
        obtain ⟨hpages, hused, hinv⟩ := outcome_refused houtcome (mt h.has_full.mpr hfull) hno
        obtain ⟨hpages', hused', hinv'⟩ := outcome_refused houtcome' (mt h.has_swa.mpr hswa) hno'
        refine ⟨iff_of_true ⟨none, _, rfl, fun _ => ⟨hpages, hused, hpages', hused', rfl⟩⟩
          ⟨iff_of_false hfull hswa, hno, hno'⟩, ?_⟩
        rintro - _ _ ⟨⟩
        refine ⟨h.pageSize_pos, hinv, hinv', ?_, h.sentinel, h.nodup, ?_⟩
        · simp only [hused, hused']
          exact h.paired
        · simp only [hused]
          exact h.whole

end Steps

end SwaAllocator

section Runs

variable {size sizeSwa ps n n' : Nat} {s s' : SwaAllocator} {op : SwaAllocOp}

/-- An operation works if it agrees, and then it keeps the invariant. -/
theorem SwaAllocator.Inv.works (h : s.Inv n n') (hfits : op.Fits s) :
    (op.Works s ↔ op.Agrees s) ∧
      (op.Agrees s → ∀ out s', op.exec s = some (out, s') → s'.Inv n n') := by
  have hdone : ∀ {op : SwaAllocOp} {out s'}, op.exec s = some (out, s') → s'.Inv n n' →
      (op.IsAlloc → out = none → s.Unchanged s') → op.Agrees s →
      (op.Works s ↔ op.Agrees s) ∧
        (op.Agrees s → ∀ out s', op.exec s = some (out, s') → s'.Inv n n') := by
    intro op out s' hexec hinv hkeep hagree
    refine ⟨iff_of_true ⟨_, _, hexec, hkeep⟩ hagree, fun _ out₁ s₁ hexec₁ => ?_⟩
    obtain ⟨-, rfl⟩ := Prod.mk.inj (Option.some.inj (hexec.symm.trans hexec₁))
    exact hinv
  cases op with
  | alloc needSize =>
      obtain ⟨out, s', hexec, hinv, hkeep⟩ := h.alloc hfits needSize
      exact hdone hexec hinv (fun _ => hkeep) trivial
  | allocExtend mem memSwa reqs =>
      obtain ⟨out, s', hexec, hinv, hkeep⟩ := h.allocExtend hfits.1 hfits.2 mem memSwa
      exact hdone hexec hinv (fun _ => hkeep) trivial
  | allocDecode mem memSwa reqs =>
      obtain ⟨hiff, hinv⟩ := h.allocDecode hfits.1 hfits.2.1 hfits.2.2 mem memSwa
      refine ⟨Iff.trans ⟨?_, ?_⟩ hiff, hinv⟩
      · rintro ⟨out, s', hexec, hkeep⟩
        exact ⟨out, s', hexec, hkeep trivial⟩
      · rintro ⟨out, s', hexec, hkeep⟩
        exact ⟨out, s', hexec, fun _ => hkeep⟩
  | free l =>
      obtain ⟨s', hfree, hinv⟩ := h.free hfits.1 hfits.2.1 hfits.2.2
      exact hdone (congrArg (Option.map fun s => (none, s)) hfree) hinv False.elim trivial
  | freeSwa l => exact hdone rfl (h.freeSwa hfits.1 hfits.2).1 False.elim trivial
  | freeGroupBegin => exact hdone rfl h.freeGroupBegin False.elim trivial
  | freeGroupEnd =>
      obtain ⟨s', hfree, hinv⟩ := h.freeGroupEnd hfits
      exact hdone (congrArg (Option.map fun s => (none, s)) hfree) hinv False.elim trivial
  | clear => exact hdone rfl h.clear False.elim trivial

theorem SwaAllocRun.inv (hps : 0 < ps)
    (h : SwaAllocRun size sizeSwa ps (fun s op => op.Agrees s) s) :
    s.Inv (size / ps) (sizeSwa / ps) := by
  induction h with
  | new needSort => exact .new size sizeSwa hps needSort
  | step op _ hfits hok hexec ih => exact (ih.works hfits).2 hok _ _ hexec

end Runs

/-- An allocator runs through a list of operations that are `ok`. -/
def SwaAllocOp.execAll (ok : SwaAllocator → SwaAllocOp → Prop) [∀ s op, Decidable (ok s op)]
    (s : SwaAllocator) (ops : List SwaAllocOp) : Option SwaAllocator :=
  ops.foldlM (fun s op => if op.Fits s ∧ ok s op then (op.exec s).map Prod.snd else none) s

theorem SwaAllocRun.execAll {size sizeSwa ps : Nat} {ok : SwaAllocator → SwaAllocOp → Prop}
    [∀ s op, Decidable (ok s op)] {s s' : SwaAllocator} {ops : List SwaAllocOp}
    (h : SwaAllocRun size sizeSwa ps ok s) (hexec : SwaAllocOp.execAll ok s ops = some s') :
    SwaAllocRun size sizeSwa ps ok s' := by
  induction ops generalizing s with
  | nil =>
      obtain rfl := Option.some.inj hexec
      exact h
  | cons op ops ih =>
      obtain ⟨s₁, hstep, hexec⟩ := Option.bind_eq_some_iff.mp hexec
      simp only at hstep
      split at hstep
      · next hok =>
          obtain ⟨⟨out, s₂⟩, hop, rfl⟩ := Option.map_eq_some_iff.mp hstep
          exact ih (.step op h hok.1 hok.2 hop) hexec
      · cases hstep

end SpecDecode.MemCache
