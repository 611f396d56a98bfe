import SpecDecode.Training.Adapters
import Mathlib.Data.List.Basic

/-!
# Sharded training sees the unsharded data

A rank's batch is a window of the zero-padded sequence, `padding` moves a window by one, and
the view of a `UspAdapter` is the front of what is left. As long as fewer than `tttLength`
steps were made the view stays inside the rank's overlap, so the views of all ranks are
adjacent windows.
-/

namespace SpecDecode.Training

open ZeroPad

variable {H R D P : Type} {α : Type} [Zero α]

section Loading

theorem sliceAndPad_fst (s : Shard) (hstop : s.stop = min (s.start + s.localLen) s.globalLen)
    (tensor : List α) :
    (s.sliceAndPad tensor).1 = window (tensor.take s.globalLen) s.start s.localLen := by
  have hlen : (tensor.take s.globalLen).length ≤ s.globalLen := by
    rw [List.length_take]
    omega
  rw [← zeroExtend_slice (min s.stop (tensor.take s.globalLen).length) (by omega)
    (by omega) (by omega)]
  simp only [Shard.sliceAndPad, zeroExtend]
  split
  · rfl
  · next hge => rw [Nat.sub_eq_zero_of_le (by omega), List.replicate_zero, List.append_nil]

/-- The mask of the whole sequence, as both loaders keep it. -/
def Sample.globalMask (data : Sample H R) (maxLen : Nat) : List Int :=
  clearLast (data.lossMask.take maxLen)

@[simp] theorem globalMask_length (data : Sample H R) (maxLen : Nat) :
    (data.globalMask maxLen).length = min maxLen data.inputIds.length := by
  rw [Sample.globalMask, clearLast_length, List.length_take, data.lossMask_length]

theorem target_length (data : Sample H R) (maxLen : Nat) :
    (data.hiddenState.take maxLen).length = min maxLen data.inputIds.length := by
  rw [List.length_take, data.hiddenState_length]

theorem take_min_length {β : Type} (xs : List β) (k : Nat) {n : Nat} (h : xs.length = n) :
    xs.take (min k n) = xs.take k := by
  rw [← h, ← List.take_take, List.take_length]

/-- The entries of a rank's batch that `forward` reads: windows of `localLen` entries. -/
structure IsShard [Zero H] [Zero R] (data : Sample H R) (aux : List H)
    (maxLen start localLen : Nat) (batch : Batch H R) : Prop where
  hiddenState : batch.hiddenState = window (aux.take maxLen) start localLen
  target : batch.target = window (data.hiddenState.take maxLen) start localLen
  inputIds : batch.inputIds = window (data.inputIds.take maxLen) start localLen
  lossMask : batch.lossMask = window (data.globalMask maxLen) start localLen

theorem processDataUsp_shard [Zero H] [Zero R] {data : Sample H R} {aux : List H}
    (haux : data.auxHiddenState = some aux)
    (maxLen tttLength spRank spSize ringRank spRingSize : Nat) :
    let s := shardOf data.inputIds.length maxLen tttLength spRank spSize
    ∃ batch, processDataUsp data maxLen tttLength spRank spSize ringRank spRingSize = .ok batch ∧
      IsShard data aux maxLen s.start s.localLen batch := by
  intro s
  have hslice {β : Type} [Zero β] (tensor : List β) :
      (s.sliceAndPad tensor).1 =
        window (tensor.take (min maxLen data.inputIds.length)) s.start s.localLen :=
    sliceAndPad_fst s rfl tensor
  have hmask : clearLast (data.lossMask.take (min maxLen data.inputIds.length)) =
      data.globalMask maxLen := by
    rw [take_min_length _ _ data.lossMask_length, Sample.globalMask]
  simp only [processDataUsp, haux]
  refine ⟨_, rfl, ?_, ?_, ?_, ?_⟩
  · rw [← take_min_length _ maxLen (data.auxHiddenState_length aux haux)]
    exact hslice _
  · rw [← take_min_length _ maxLen data.hiddenState_length]
    exact hslice _
  · rw [← take_min_length _ maxLen rfl]
    exact hslice _
  · apply (hslice _).trans
    have hglobal : s.globalLen = min maxLen data.inputIds.length := rfl
    rw [hglobal, hmask, List.take_of_length_le (Nat.le_of_eq (globalMask_length ..))]

end Loading

section Loop

theorem padding_right (tensor : List α) : padding tensor false = window tensor 1 tensor.length := by
  cases tensor with
  | nil => rfl
  | cons x tensor =>
      apply eq_window
      · simp only [padding, Bool.false_eq_true, if_false, List.tail_cons, List.length_append,
          List.length_map, List.length_drop, List.length_cons]
        omega
      · intro i _
        simp only [padding, Bool.false_eq_true, if_false, List.tail_cons, List.length_cons,
          Nat.add_sub_cancel, List.getD_eq_getElem?_getD, Nat.add_comm 1 i,
          List.getElem?_cons_succ]
        rcases Nat.lt_or_ge i tensor.length with hi | hi
        · rw [List.getElem?_append_left hi]
        · rw [List.getElem?_append_right hi, List.getElem?_eq_none hi, List.getElem?_map]
          cases ((x :: tensor).drop tensor.length)[i - tensor.length]? with
          | none => rfl
          | some _ => rfl

/-- After `k` steps to the left the array is its own window from `k` on. -/
theorem padding_window (xs : List α) (k : Nat) :
    padding (window xs k xs.length) false = window xs (k + 1) xs.length := by
  rw [padding_right, window_length]
  apply eq_window window_length
  intro i hi
  rw [window_getD hi]
  rcases Nat.lt_or_ge (1 + i) xs.length with hlt | hge
  · rw [window_getD hlt, Nat.add_assoc]
  · rw [getD_window_of_le hge, List.getD_eq_default _ _ (by omega)]

structure ShiftedBy (ids positions losses : List Int) (idx : Nat) (s : LoopState D) : Prop where
  globalInputIds : s.globalInputIds = window ids idx ids.length
  positionMask : s.positionMask = window positions idx positions.length
  lossMask : s.lossMask = window losses idx losses.length

theorem ShiftedBy.start (ids positions losses : List Int) (hidden : List D) :
    ShiftedBy ids positions losses 0 ⟨ids, positions, losses, hidden⟩ :=
  ⟨(window_self ids).symm, (window_self positions).symm, (window_self losses).symm⟩

theorem ShiftedBy.shift {ids positions losses : List Int} {idx : Nat} {s : LoopState D}
    (h : ShiftedBy ids positions losses idx s) (hidden : List D) :
    ShiftedBy ids positions losses (idx + 1) (s.shift hidden) where
  globalInputIds := by rw [LoopState.shift, h.globalInputIds, padding_window]
  positionMask := by rw [LoopState.shift, h.positionMask, padding_window]
  lossMask := by rw [LoopState.shift, h.lossMask, padding_window]

/-- An adapter that serves every state with the property `Good idx` serves a whole loop, when
a shift leads from `Good idx` to `Good (idx + 1)`. -/
theorem tttLoop_ok {adapter : Adapter} {backbone : Nat → StepState D P → List D}
    {input : LoopInput P} {tttLength : Nat} {Good : Nat → LoopState D → Prop}
    {Seen : Nat → StepState D P → Prop} (hview : ∀ idx s, idx < tttLength → Good idx s →
      ∃ v, adapter.stepView input idx tttLength s = .ok v ∧ Seen idx v)
    (hshift : ∀ idx s hidden, Good idx s → Good (idx + 1) (s.shift hidden))
    (rounds idx : Nat) (s : LoopState D) (hidx : idx + rounds = tttLength)
    (hgood : rounds ≠ 0 → Good idx s) :
    ∃ views, tttLoop adapter backbone input tttLength rounds idx s = .ok views ∧
      views.length = rounds ∧ ∀ i v, views[i]? = some v → Seen (idx + i) v := by
  induction rounds generalizing idx s with
  | zero => exact ⟨[], rfl, rfl, fun i v hv => by simp at hv⟩
  | succ rounds ih =>
      obtain ⟨v, hv, hseen⟩ := hview idx s (by omega) (hgood (Nat.succ_ne_zero rounds))
      -- the state of the last round is not shifted, and no round sees it
      obtain ⟨views, hrun, hlen, hall⟩ := ih (idx + 1)
        (if idx = tttLength - 1 then { s with hiddenStates := backbone idx v }
          else s.shift (backbone idx v)) (by omega) (by
        intro hne
        rw [if_neg (by omega)]
        exact hshift idx s _ (hgood (Nat.succ_ne_zero rounds)))
      refine ⟨v :: views, ?_, by rw [List.length_cons, hlen], ?_⟩
      · simp only [tttLoop, hv]
        exact congrArg (fun r => r >>= fun states => .ok (v :: states)) hrun
      · intro i w hw
        cases i with
        | zero =>
            obtain rfl : v = w := by simpa using hw
            exact hseen
        | succ i =>
            have := hall i w (by simpa using hw)
            rwa [Nat.add_assoc, Nat.add_comm 1] at this

structure ViewAt (ids positions losses : List Int) (targetPPadded : List P) (len idx : Nat)
    (v : StepState D P) : Prop where
  inputIds : v.inputIds = window ids idx len
  positionMask : v.positionMask = window positions idx len
  lossMask : v.lossMask = window losses idx len
  targetP : v.targetP = (targetPPadded.drop idx).take len

def BatchView (head : TargetHead R P) (length : Nat) (batch : Batch H R) (len idx : Nat)
    (v : StepState D P) : Prop :=
  ViewAt batch.inputIds (head.computeTargetPPadded batch.target batch.lossMask length).2
    batch.lossMask (head.computeTargetPPadded batch.target batch.lossMask length).1 len idx v

structure Sized (n : Nat) (batch : Batch H R) : Prop where
  hiddenState : batch.hiddenState.length = n
  target : batch.target.length = n
  inputIds : batch.inputIds.length = n
  lossMask : batch.lossMask.length = n

theorem Sized.positionMask {n length : Nat} {head : TargetHead R P} {batch : Batch H R}
    (h : Sized n batch) :
    (head.computeTargetPPadded batch.target batch.lossMask length).2.length = n := by
  simp only [TargetHead.computeTargetPPadded, List.length_zipWith, h.target, h.lossMask,
    Nat.min_self]

theorem forward_views {adapter : Adapter} {head : TargetHead R P} {model : DraftModel H D P}
    {length len : Nat} {batch : Batch H R} (hview : ∀ (idx : Nat) (s : LoopState D),
      ShiftedBy batch.inputIds (head.computeTargetPPadded batch.target batch.lossMask length).2
        batch.lossMask idx s →
      ∃ v, adapter.stepView (loopInput adapter head length batch) idx length s = .ok v ∧
        BatchView head length batch len idx v) :
    ∃ views, forward adapter head model length batch = .ok views ∧ views.length = length ∧
      ∀ idx v, views[idx]? = some v → BatchView head length batch len idx v := by
  obtain ⟨views, hrun, hlen, hall⟩ := tttLoop_ok (fun idx s _ hs => hview idx s hs)
    (fun idx s hidden hs => hs.shift hidden) length 0 _ (Nat.zero_add _)
    (fun _ => ShiftedBy.start ..)
  refine ⟨views, hrun, hlen, fun idx v hv => ?_⟩
  have := hall idx v hv
  rwa [Nat.zero_add] at this

theorem forward_sdpaLike (head : TargetHead R P) {n : Nat} {batch : Batch H R}
    (hsize : Sized n batch) (model : DraftModel H D P) (length : Nat) :
    ∃ views, forward .sdpaLike head model length batch = .ok views ∧ views.length = length ∧
      ∀ idx v, views[idx]? = some v →
        BatchView head length batch n idx v := by
  apply forward_views
  intro idx s hs
  refine ⟨_, rfl, ?_, ?_, ?_, ?_⟩
  · rw [hs.globalInputIds, hsize.inputIds]
  · rw [hs.positionMask, hsize.positionMask]
  · rw [hs.lossMask, hsize.lossMask]
  · simp only [loopInput, hsize.hiddenState]

theorem forward_usp (head : TargetHead R P) {chunk length : Nat} {batch : Batch H R}
    (hchunk : 0 < chunk) (hsize : Sized (chunk + length) batch)
    (model : DraftModel H D P) (spUlyssesDegree : Nat) :
    ∃ views, forward (.usp spUlyssesDegree) head model length batch = .ok views ∧
      views.length = length ∧ ∀ idx v, views[idx]? = some v →
        BatchView head length batch chunk idx v := by
  apply forward_views
  intro idx s hs
  have hlt : ¬ chunk + length ≤ length := by omega
  simp only [Adapter.stepView, loopInput, hsize.hiddenState, if_neg hlt, Nat.add_sub_cancel]
  refine ⟨_, rfl, ?_, ?_, ?_, ?_⟩
  · rw [hs.globalInputIds, hsize.inputIds, take_window _ (Nat.le_add_right ..)]
  · rw [hs.positionMask, hsize.positionMask, take_window _ (Nat.le_add_right ..)]
  · rw [hs.lossMask, hsize.lossMask, take_window _ (Nat.le_add_right ..)]
  · rfl

/-- A batch without a token of its own is refused in the first round. -/
theorem forward_usp_error {head : TargetHead R P} {length : Nat} {batch : Batch H R}
    (hlength : 0 < length) (hsize : batch.hiddenState.length = length)
    (model : DraftModel H D P) (spUlyssesDegree : Nat) :
    forward (.usp spUlyssesDegree) head model length batch = .error (.valueError
      s!"USP local seq_length ({length}) must be larger than ttt_length ({length})") := by
  obtain ⟨rounds, rfl⟩ := Nat.exists_eq_add_one.mpr hlength
  simp only [forward, loopInput, tttLoop, Adapter.stepView, hsize, Nat.le_refl, if_true]
  rfl

end Loop

section Gather

variable [Zero H] [Zero R]

/-- The column `f` of the views that ranks `0 .. spSize - 1` get in round `idx`. -/
def gather {β : Type} (spSize : Nat) (views : Nat → List (StepState D P)) (idx : Nat)
    (f : StepState D P → List β) : List β :=
  (List.range spSize).flatMap fun rank => (views rank)[idx]?.elim [] f

omit [Zero α] in
theorem gather_eq {spSize idx : Nat} {views : Nat → List (StepState D P)}
    {f : StepState D P → List α} {g : Nat → List α} (h : ∀ rank, rank < spSize → ∃ v,
      (views rank)[idx]? = some v ∧ f v = g rank) :
    gather spSize views idx f = (List.range spSize).flatMap g := by
  apply List.flatMap_congr
  intro rank hrank
  obtain ⟨v, hv, hf⟩ := h rank (List.mem_range.mp hrank)
  rw [hv]
  exact hf

def TargetHead.globalPositions (head : TargetHead R P) (data : Sample H R) (maxLen : Nat) :
    List Int :=
  (head.computeTargetPPadded (data.hiddenState.take maxLen) (data.globalMask maxLen) 0).2

structure Shows (head : TargetHead R P) (data : Sample H R) (maxLen start len : Nat)
    (v : StepState D P) : Prop where
  inputIds : v.inputIds = window (data.inputIds.take maxLen) start len
  lossMask : v.lossMask = window (data.globalMask maxLen) start len
  positionMask : v.positionMask = window (head.globalPositions data maxLen) start len
  targetP : v.targetP = (window (data.hiddenState.take maxLen) start len).map head.targetP

omit [Zero H] in
private theorem positionMask_window (head : TargetHead R P) (data : Sample H R)
    (maxLen start len length : Nat) :
    (head.computeTargetPPadded (window (data.hiddenState.take maxLen) start len)
      (window (data.globalMask maxLen) start len) length).2 =
      window (head.globalPositions data maxLen) start len := by
  have hlen : (data.hiddenState.take maxLen).length = (data.globalMask maxLen).length := by
    rw [target_length, globalMask_length]
  exact zipWith_window (fun row m => ((head.inDraft row).toNat : Int) * m) (Int.mul_zero _) hlen

theorem IsShard.shows {data : Sample H R} {aux : List H} {batch : Batch H R}
    {maxLen start chunk tttLength idx : Nat} {head : TargetHead R P} {v : StepState D P}
    (h : IsShard data aux maxLen start (chunk + tttLength) batch) (hidx : idx < tttLength)
    (hv : BatchView head tttLength batch chunk idx v) :
    Shows head data maxLen (start + idx) chunk v := by
  have hin : idx + chunk ≤ chunk + tttLength := by omega
  constructor
  · rw [hv.inputIds, h.inputIds, window_window hin]
  · rw [hv.lossMask, h.lossMask, window_window hin]
  · rw [hv.positionMask, h.target, h.lossMask, positionMask_window, window_window hin]
  · -- the view stays in front of the rows that were added at the end
    rw [hv.targetP, TargetHead.computeTargetPPadded, List.drop_append_of_le_length (by
        rw [List.length_map, h.target, window_length]; omega),
      List.take_append_of_le_length (by
        rw [List.length_drop, List.length_map, h.target, window_length]; omega),
      ← List.map_drop, ← List.map_take, h.target, drop_window, take_window _ (by omega)]

omit [Zero H] [Zero R] in
theorem processData_ok {data : Sample H R} {aux : List H} {maxLen : Nat}
    (haux : data.auxHiddenState = some aux) (hne : 0 < min maxLen data.inputIds.length) :
    ∃ batch, processData data maxLen = .ok batch ∧
      Sized (min maxLen data.inputIds.length) batch ∧
      batch.target = data.hiddenState.take maxLen ∧
      batch.inputIds = data.inputIds.take maxLen ∧
      batch.lossMask = data.globalMask maxLen := by
  have hmask : ¬ (data.lossMask.take maxLen).isEmpty = true := by
    rw [List.isEmpty_iff, ← List.length_eq_zero_iff, List.length_take, data.lossMask_length]
    omega
  simp only [processData, haux, if_neg hmask]
  refine ⟨_, rfl, ⟨?_, target_length .., List.length_take .., globalMask_length ..⟩, rfl, rfl,
    rfl⟩
  rw [List.length_take, data.auxHiddenState_length aux haux]

omit [Zero H] in
/-- What the unsharded view shows in round `idx`, filled up with padding to `len` entries. -/
theorem padded_wholeView {data : Sample H R} {batch : Batch H R} {maxLen length idx len : Nat}
    {head : TargetHead R P} {v : StepState D P} (hidx : idx < length)
    (hle : min maxLen data.inputIds.length ≤ len)
    (htarget : batch.target = data.hiddenState.take maxLen)
    (hids : batch.inputIds = data.inputIds.take maxLen)
    (hmask : batch.lossMask = data.globalMask maxLen)
    (hv : BatchView head length batch (min maxLen data.inputIds.length) idx v) :
    zeroExtend len v.inputIds = window (data.inputIds.take maxLen) idx len ∧
      zeroExtend len v.lossMask = window (data.globalMask maxLen) idx len ∧
      zeroExtend len v.positionMask = window (head.globalPositions data maxLen) idx len ∧
      (head.targetP 0 = head.uniform →
        v.targetP ++ List.replicate (len - min maxLen data.inputIds.length) head.uniform =
          (window (data.hiddenState.take maxLen) idx len).map head.targetP) := by
  have hpositions : (head.globalPositions data maxLen).length =
      min maxLen data.inputIds.length := by
    simp only [TargetHead.globalPositions, TargetHead.computeTargetPPadded, List.length_zipWith,
      target_length, globalMask_length, Nat.min_self]
  refine ⟨?_, ?_, ?_, fun huniform => ?_⟩
  · rw [hv.inputIds, hids, zeroExtend_window (by rw [List.length_take]; omega) hle]
  · rw [hv.lossMask, hmask, zeroExtend_window (by rw [globalMask_length]; omega) hle]
  · have hzip : (head.computeTargetPPadded batch.target batch.lossMask length).2 =
        head.globalPositions data maxLen := by rw [htarget, hmask]; rfl
    rw [hv.positionMask, hzip, zeroExtend_window (by rw [hpositions]; omega) hle]
  · -- the rows behind the end are zero rows, once the uniform row counts as zero
    let _ : Zero P := ⟨head.uniform⟩
    have hrows : v.targetP =
        window ((data.hiddenState.take maxLen).map head.targetP) idx
          (min maxLen data.inputIds.length) := by
      rw [hv.targetP, TargetHead.computeTargetPPadded, htarget]
      apply take_drop_append_zeros
      rw [List.length_map, target_length]
      omega
    have hpad : v.targetP.length = min maxLen data.inputIds.length := by
      rw [hrows, window_length]
    calc v.targetP ++ List.replicate (len - min maxLen data.inputIds.length) head.uniform
        = zeroExtend len v.targetP := by rw [zeroExtend, hpad]; rfl
      _ = window ((data.hiddenState.take maxLen).map head.targetP) idx len := by
          rw [hrows]
          exact zeroExtend_window (by rw [List.length_map, target_length]; omega) hle
      _ = _ := (map_window head.targetP huniform).symm

theorem le_mul_chunkSize {spSize : Nat} (hsp : 0 < spSize) (length maxLen tttLength spRank : Nat) :
    min maxLen length ≤
      spSize * (shardOf length maxLen tttLength spRank spSize).chunkSize := by
  have hmod := Nat.div_add_mod (min maxLen length + spSize - 1) spSize
  have hlt := Nat.mod_lt (min maxLen length + spSize - 1) hsp
  simp only [shardOf]
  omega

theorem rank_views {data : Sample H R} {aux : List H} (haux : data.auxHiddenState = some aux)
    {maxLen spSize chunk : Nat} (tttLength rank ringRank spRingSize : Nat)
    (hchunk : (min maxLen data.inputIds.length + spSize - 1) / spSize = chunk)
    (hpos : 0 < chunk) (head : TargetHead R P) (model : DraftModel H D P) (spUlyssesDegree : Nat) :
    ∃ views, (processDataUsp data maxLen tttLength rank spSize ringRank spRingSize >>=
        forward (.usp spUlyssesDegree) head model tttLength) = .ok views ∧
      views.length = tttLength ∧
      ∀ idx, idx < tttLength → ∃ v, views[idx]? = some v ∧
        Shows head data maxLen (rank * chunk + idx) chunk v := by
  subst hchunk
  obtain ⟨batch, hload, hshard⟩ := processDataUsp_shard haux maxLen tttLength rank spSize
    ringRank spRingSize
  obtain ⟨views, hrun, hlen, hall⟩ := forward_usp head hpos
    ⟨by rw [hshard.hiddenState, window_length]; rfl, by rw [hshard.target, window_length]; rfl,
      by rw [hshard.inputIds, window_length]; rfl, by rw [hshard.lossMask, window_length]; rfl⟩
    model spUlyssesDegree
  refine ⟨views, by rw [hload]; exact hrun, hlen, fun idx hidx => ?_⟩
  have hsome := List.getElem?_eq_getElem (l := views) (hlen ▸ hidx)
  exact ⟨_, hsome, hshard.shows hidx (hall idx _ hsome)⟩

omit [Zero H] in
theorem gather_shown {data : Sample H R} (spSize : Nat) {maxLen chunk idx : Nat}
    {head : TargetHead R P} {views : Nat → List (StepState D P)}
    (h : ∀ rank, rank < spSize → ∃ v, (views rank)[idx]? = some v ∧
      Shows head data maxLen (rank * chunk + idx) chunk v) : let len := spSize * chunk
    gather spSize views idx (·.inputIds) = window (data.inputIds.take maxLen) idx len ∧
      gather spSize views idx (·.lossMask) = window (data.globalMask maxLen) idx len ∧
      gather spSize views idx (·.positionMask) =
        window (head.globalPositions data maxLen) idx len ∧
      gather spSize views idx (·.targetP) =
        (window (data.hiddenState.take maxLen) idx len).map head.targetP := by
  have hcolumn {β : Type} {f : StepState D P → List β} {g : Nat → List β}
      (hf : ∀ rank v, Shows head data maxLen (rank * chunk + idx) chunk v → f v = g rank) :
      gather spSize views idx f = (List.range spSize).flatMap g := by
    apply gather_eq
    intro rank hrank
    obtain ⟨v, hv, hshows⟩ := h rank hrank
    exact ⟨v, hv, hf rank v hshows⟩
  refine ⟨?_, ?_, ?_, ?_⟩
  · rw [← flatMap_window]
    exact hcolumn fun rank v hv => hv.inputIds
  · rw [← flatMap_window]
    exact hcolumn fun rank v hv => hv.lossMask
  · rw [← flatMap_window]
    exact hcolumn fun rank v hv => hv.positionMask
  · rw [← flatMap_window, List.map_flatMap]
    exact hcolumn fun rank v hv => hv.targetP

/-- A sequence without tokens leaves a rank nothing but its overlap. -/
theorem rank_refuses {data : Sample H R} {aux : List H} (haux : data.auxHiddenState = some aux)
    {maxLen spSize tttLength : Nat} (hsp : 0 < spSize) (httt : 0 < tttLength)
    (hempty : min maxLen data.inputIds.length = 0) (rank ringRank spRingSize : Nat)
    (head : TargetHead R P) (model : DraftModel H D P) (spUlyssesDegree : Nat) :
    (processDataUsp data maxLen tttLength rank spSize ringRank spRingSize >>=
      forward (.usp spUlyssesDegree) head model tttLength) = .error (.valueError
        s!"USP local seq_length ({tttLength}) must be larger than ttt_length ({tttLength})") := by
  obtain ⟨batch, hload, hshard⟩ := processDataUsp_shard haux maxLen tttLength rank spSize
    ringRank spRingSize
  have hlocal : (shardOf data.inputIds.length maxLen tttLength rank spSize).localLen =
      tttLength := by
    simp only [shardOf, hempty]
    rw [Nat.div_eq_of_lt (by omega), Nat.zero_add]
  rw [hload]
  exact forward_usp_error httt (by rw [hshard.hiddenState, window_length, hlocal]) model
    spUlyssesDegree

/-- Every rank trains on its part of the sequence. In each round the ranks' ids, masks and
target rows, one after the other, are the entries the unsharded training sees there, extended
by padding; a sequence without tokens is refused by every rank. -/
theorem usp_views_eq_unsharded {data : Sample H R} {aux : List H}
    (haux : data.auxHiddenState = some aux) (maxLen : Nat) {spSize tttLength : Nat}
    (hsp : 0 < spSize) (httt : 0 < tttLength) (ringRank : Nat → Nat) (spRingSize : Nat)
    (head : TargetHead R P) (model : Nat → DraftModel H D P) (wholeModel : DraftModel H D P)
    (spUlyssesDegree : Nat) : let globalLen := min maxLen data.inputIds.length
    let chunkSize := (globalLen + spSize - 1) / spSize
    let rankForward := fun rank =>
      processDataUsp data maxLen tttLength rank spSize (ringRank rank) spRingSize >>=
        forward (.usp spUlyssesDegree) head (model rank) tttLength
    (0 < globalLen → ∃ (views : Nat → List (StepState D P)) (whole : List (StepState D P)),
      (∀ rank, rank < spSize →
        rankForward rank = .ok (views rank) ∧ (views rank).length = tttLength) ∧
      (processData data maxLen >>= forward .sdpaLike head wholeModel tttLength) = .ok whole ∧
      whole.length = tttLength ∧
      ∀ idx v, whole[idx]? = some v →
        let len := spSize * chunkSize
        (gather spSize views idx (·.inputIds) =
            zeroExtend len ((data.inputIds.take maxLen).drop idx) ∧
          gather spSize views idx (·.lossMask) =
            zeroExtend len ((clearLast (data.lossMask.take maxLen)).drop idx) ∧
          gather spSize views idx (·.targetP) =
            (zeroExtend len ((data.hiddenState.take maxLen).drop idx)).map head.targetP) ∧
        gather spSize views idx (·.inputIds) = zeroExtend len v.inputIds ∧
        gather spSize views idx (·.lossMask) = zeroExtend len v.lossMask ∧
        gather spSize views idx (·.positionMask) = zeroExtend len v.positionMask ∧
        (head.targetP 0 = head.uniform → gather spSize views idx (·.targetP) =
          v.targetP ++ List.replicate (len - globalLen) head.uniform)) ∧
    (globalLen = 0 → (∀ rank, rankForward rank = .error (.valueError
        s!"USP local seq_length ({tttLength}) must be larger than ttt_length ({tttLength})")) ∧
      processData data maxLen = .error .indexError) := by
  intro globalLen chunkSize rankForward
  constructor
  · intro hne
    have hle : globalLen ≤ spSize * chunkSize := le_mul_chunkSize hsp _ maxLen 0 0
    have hpos : 0 < chunkSize := Nat.div_pos (by omega) hsp
    choose views hrun hlen hshows using fun rank =>
      rank_views haux tttLength rank (ringRank rank) spRingSize rfl hpos head
        (model rank) spUlyssesDegree
    obtain ⟨batch, hload, hsize, htarget, hids, hmask⟩ := processData_ok haux hne
    obtain ⟨whole, hwhole, hwholeLen, hall⟩ := forward_sdpaLike head hsize wholeModel tttLength
    refine ⟨views, whole, fun rank _ => ⟨hrun rank, hlen rank⟩, by rw [hload]; exact hwhole,
      hwholeLen, fun idx v hv => ?_⟩
    have hidx : idx < tttLength := hwholeLen ▸ (List.getElem?_eq_some_iff.mp hv).1
    obtain ⟨hgIds, hgLosses, hgPositions, hgRows⟩ :=
      gather_shown spSize fun rank _ => hshows rank idx hidx
    obtain ⟨hwIds, hwLosses, hwPositions, hwRows⟩ :=
      padded_wholeView hidx hle htarget hids hmask (hall idx v hv)
    refine ⟨⟨?_, ?_, ?_⟩, ?_, ?_, ?_, fun huniform => ?_⟩
    · rw [hgIds, zeroExtend_drop _ (by rw [List.length_take]; exact hle)]
    · have hmaskLen : (clearLast (data.lossMask.take maxLen)).length ≤ spSize * chunkSize :=
        Nat.le_trans (Nat.le_of_eq (globalMask_length data maxLen)) hle
      rw [hgLosses, zeroExtend_drop _ hmaskLen]
      rfl
    · rw [hgRows, zeroExtend_drop _ (by rw [target_length]; exact hle)]
    · rw [hgIds, hwIds]
    · rw [hgLosses, hwLosses]
    · rw [hgPositions, hwPositions]
    · rw [hgRows, hwRows huniform]
  · intro hempty
    refine ⟨fun rank => rank_refuses haux hsp httt hempty rank _ _ head _ _, ?_⟩
    have hmask : (data.lossMask.take maxLen).isEmpty = true := by
      rw [List.isEmpty_iff, ← List.length_eq_zero_iff, List.length_take, data.lossMask_length]
      exact hempty
    simp only [processData, haux, hmask, if_true]

/-- Three recorded tokens; a hidden row is a number. -/
def threeTokens : Sample Nat Nat where
  inputIds := [11, 12, 13]
  lossMask := [0, 1, 1]
  auxHiddenState := some [1, 2, 3]
  hiddenState := [21, 22, 23]
  lossMask_length := rfl
  hiddenState_length := rfl
  auxHiddenState_length := fun _ h => by obtain rfl := Option.some.inj h; rfl

/-- A head that passes rows on, so that the uniform row is the zero row. -/
def plainHead : TargetHead Nat Nat := { targetP := id, inDraft := fun _ => true, uniform := 0 }

def plainModel : DraftModel Nat Nat Nat :=
  { project := id, backbone := fun _ v => v.hiddenStates }

/-- Two ranks of two tokens, in the second of two rounds: nothing is lost at the border, and
the last entries are padding. -/
theorem usp_views_twoRanks : ∃ views : Nat → List (StepState Nat Nat),
    (∀ rank, rank < 2 → (processDataUsp threeTokens 2048 2 rank 2 0 1 >>=
      forward (.usp 2) plainHead plainModel 2) = .ok (views rank)) ∧
    gather 2 views 1 (·.inputIds) = [12, 13, 0, 0] ∧
    gather 2 views 1 (·.lossMask) = [1, 0, 0, 0] ∧
    gather 2 views 1 (·.targetP) = [22, 23, 0, 0] := by
  have haux : threeTokens.auxHiddenState = some [1, 2, 3] := rfl
  obtain ⟨hshown, -⟩ := usp_views_eq_unsharded haux 2048 (show 0 < 2 by decide)
    (show 0 < 2 by decide) (fun _ => 0) 1 plainHead (fun _ => plainModel) plainModel 2
  obtain ⟨views, whole, hviews, -, hlen, hall⟩ := hshown (by decide)
  have hsome := List.getElem?_eq_getElem (l := whole) (i := 1) (by rw [hlen]; decide)
  obtain ⟨⟨hids, hlosses, hrows⟩, -⟩ := hall 1 _ hsome
  exact ⟨views, fun rank hrank => (hviews rank hrank).1, hids, hlosses, hrows⟩

/-- With `max_len = 0` there is no view to compare: the only rank raises. -/
theorem usp_views_emptyCut : ¬ ∃ views, (processDataUsp threeTokens 0 1 0 1 0 1 >>=
    forward (.usp 1) plainHead plainModel 1) = .ok views := by
  intro ⟨views, hviews⟩
  have haux : threeTokens.auxHiddenState = some [1, 2, 3] := rfl
  rw [rank_refuses haux (by decide) (by decide) (by decide)] at hviews
  cases hviews

end Gather

end SpecDecode.Training
