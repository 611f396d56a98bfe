import SpecDecode.Detokenizer.Deliveries

/-!
# What a client receives

The strings returned for a request, one after the other, are the text of its output ids
exactly when no delivery shrinks the text that an earlier one left visible, and the stop token
is not the token 0, which is never trimmed. A text that was shown, then shrunk, is sent twice.
-/

namespace SpecDecode.Detokenizer

open Utf8

variable {ρ : Type} {bytesOf : Nat → List UInt8} {capacity : Nat}
  {isToolCallParserGptOss : Bool}

/-- The stop token that is to be trimmed from the output ids. -/
def Request.stopToken (r : Request ρ) (isToolCallParserGptOss : Bool) : Option Nat :=
  if r.noStopTrim then none
  else match r.finish.matched with
    | some (.token t) => if t == 200012 && isToolCallParserGptOss then none else some t
    | _ => none

/-- The output ids whose text a client expects. -/
def Request.expectedIds (r : Request ρ) (isToolCallParserGptOss : Bool) : List Nat :=
  if (r.stopToken isToolCallParserGptOss).isSome then r.outputIds.dropLast else r.outputIds

theorem Request.expectedIds_of_none {r : Request ρ}
    (h : r.stopToken isToolCallParserGptOss = none) :
    r.outputIds = r.expectedIds isToolCallParserGptOss ++
      if r.stopToken isToolCallParserGptOss = some 0 then [0] else [] := by
  simp [Request.expectedIds, h]

theorem Request.trim (r : Request ρ) (isToolCallParserGptOss : Bool)
    (hstop : ∀ t, r.finish.matched = some (.token t) → ∃ ids, r.last = ids ++ [t])
    (hstr : r.noStopTrim = true ∨ ∀ text, r.finish.matched ≠ some (.str text)) :
    ∃ kept, (∀ ids, trimMatchedStopIds isToolCallParserGptOss (ids ++ r.last) (some r.finish)
        r.noStopTrim = .ok (ids ++ kept)) ∧
      r.chunks.flatten ++ kept = r.expectedIds isToolCallParserGptOss ++
        if r.stopToken isToolCallParserGptOss = some 0 then [0] else [] := by
  have hall : r.stopToken isToolCallParserGptOss = none →
      matchedStop (some r.finish) r.noStopTrim = none →
      (∀ ids, trimMatchedStopIds isToolCallParserGptOss (ids ++ r.last) (some r.finish)
        r.noStopTrim = .ok (ids ++ r.last)) ∧
      r.chunks.flatten ++ r.last = r.expectedIds isToolCallParserGptOss ++
        if r.stopToken isToolCallParserGptOss = some 0 then [0] else [] := fun hnone hmatched =>
    ⟨fun ids => by rw [trimMatchedStopIds, hmatched], Request.expectedIds_of_none hnone⟩
  by_cases hno : r.noStopTrim = true
  · exact ⟨r.last, hall (if_pos hno) (if_pos hno)⟩
  cases hmatched : r.finish.matched with
  | none => exact ⟨r.last, hall (by rw [Request.stopToken, if_neg hno, hmatched])
      (by rw [matchedStop, if_neg hno, Option.bind_some, hmatched, Option.filter_none])⟩
  | some m =>
      cases m with
      | str text => exact absurd hmatched (hstr.resolve_left hno text)
      | token t =>
          obtain ⟨ids, hlast⟩ := hstop t hmatched
          have hdrop : r.outputIds.dropLast = r.chunks.flatten ++ ids := by
            rw [Request.outputIds, hlast, ← List.append_assoc, List.dropLast_concat]
          by_cases hzero : t = 0
          · -- 0 is false in Python, so that the trimming stops there
            subst hzero
            have hstopToken : r.stopToken isToolCallParserGptOss = some 0 := by
              rw [Request.stopToken, if_neg hno, hmatched]
              rfl
            have hfalse : matchedStop (some r.finish) r.noStopTrim = none := by
              rw [matchedStop, if_neg hno, Option.bind_some, hmatched]
              rfl
            refine ⟨r.last, fun xs => by rw [trimMatchedStopIds, hfalse], ?_⟩
            rw [Request.expectedIds, hstopToken, Option.isSome_some, if_pos rfl, if_pos rfl, hdrop,
              hlast, List.append_assoc]
          · have htrue : matchedStop (some r.finish) r.noStopTrim = some (.token t) := by
              rw [matchedStop, if_neg hno, Option.bind_some, hmatched, Option.filter_some,
                if_pos (by simpa [Matched.isTrue] using hzero)]
            have hend : ∀ xs : List Nat, (xs ++ r.last).getLast? = some t := by
              intro xs
              rw [hlast, ← List.append_assoc, List.getLast?_concat]
            cases hcall : t == 200012 && isToolCallParserGptOss with
            | true =>
                have hstopToken : r.stopToken isToolCallParserGptOss = none := by
                  rw [Request.stopToken, if_neg hno, hmatched]
                  simp only [hcall, if_true]
                refine ⟨r.last, fun xs => ?_, Request.expectedIds_of_none hstopToken⟩
                simp only [trimMatchedStopIds, htrue, hend, hcall, if_true]
            | false =>
                have hstopToken : r.stopToken isToolCallParserGptOss = some t := by
                  rw [Request.stopToken, if_neg hno, hmatched]
                  simp only [hcall, Bool.false_eq_true, if_false]
                refine ⟨ids, fun xs => ?_, ?_⟩
                · simp only [trimMatchedStopIds, htrue, hend, hcall, Bool.false_eq_true, if_false]
                  rw [hlast, ← List.append_assoc, List.dropLast_concat]
                · rw [Request.expectedIds, hstopToken, Option.isSome_some, if_pos rfl, hdrop,
                    if_neg (fun h => hzero (Option.some.inj h)), List.append_nil]

theorem Request.trimStr (r : Request ρ)
    (hstr : r.noStopTrim = true ∨ ∀ text, r.finish.matched ≠ some (.str text))
    (text : List Char) : trimMatchedStopStr text (some r.finish) r.noStopTrim = text := by
  rw [trimMatchedStopStr]
  split
  · next matched h =>
      rw [matchedStop] at h
      split at h
      · cases h
      · next hno =>
          have hmatched : r.finish.matched = some (.str matched) :=
            (Option.filter_eq_some_iff.mp h).1
          exact absurd hmatched (hstr.resolve_left hno matched)
  · rfl

@[simp] theorem versions_length (p : Position) (chunks : List (List Nat)) :
    (versions bytesOf p chunks).length = chunks.length := by
  induction chunks generalizing p with
  | nil => rfl
  | cons chunk chunks ih => simp only [versions, List.length_cons, ih]

theorem versions_take (p : Position) (chunks : List (List Nat)) (k : Nat) :
    (versions bytesOf p chunks).take k = versions bytesOf p (chunks.take k) := by
  induction chunks generalizing p k with
  | nil => rw [List.take_nil, versions, List.take_nil]
  | cons chunk chunks ih =>
      cases k with
      | zero => rfl
      | succ k => simp only [versions, List.take_succ_cons, ih]

theorem latest_versions_prefix {p : Position} (h : p.Valid bytesOf) (chunks : List (List Nat)) :
    Deltas.latest (shown bytesOf p) (versions bytesOf p chunks) <+:
      emits .start (bytes bytesOf (p.ids ++ chunks.flatten)) := by
  induction chunks generalizing p with
  | nil =>
      rw [List.flatten_nil, List.append_nil]
      exact shown_prefix_emits h
  | cons chunk chunks ih =>
      have hrest := ih (h.advance chunk)
      rwa [advance_ids, List.append_assoc, ← List.flatten_cons] at hrest

private theorem textOf_expected {expected extra : List Nat} {text : List Char}
    (hvalid : bytes bytesOf expected = encode text) :
    textOf bytesOf (expected ++ extra) = text ++ decode (bytes bytesOf extra) := by
  have hboundary : AtBoundary (bytes bytesOf expected) := hvalid ▸ encode_atBoundary text
  rw [textOf_append hboundary, textOf, hvalid, decode_encode]
  rfl

/-- The pieces of the visible texts and of the last text, which is `text` and what `extra`
adds to it. -/
theorem pieces_iff (chunks : List (List Nat)) {kept expected extra : List Nat} {text : List Char}
    (hkept : chunks.flatten ++ kept = expected ++ extra)
    (hvalid : bytes bytesOf expected = encode text) :
    let os := versions bytesOf ⟨[], []⟩ chunks ++ [textOf bytesOf (chunks.flatten ++ kept)]
    ((Deltas.deltas 0 os).flatten = text ∧
        (∀ e ∈ emissions 0 os, e.sentBefore ≤ e.outputStr.length) ∧
        ∀ k, k ≤ chunks.length → ((Deltas.deltas 0 os).take k).flatten <+:
          emits .start (bytes bytesOf (chunks.take k).flatten)) ↔
      Steady bytesOf [] chunks ∧ bytes bytesOf extra = [] := by
  intro os
  have hlatest : Deltas.latest [] os = text ++ decode (bytes bytesOf extra) := by
    rw [Deltas.latest_concat, hkept, textOf_expected hvalid]
  constructor
  · rintro ⟨hconcat, -⟩
    have hle : (Deltas.latest [] os).length ≤ 0 + (Deltas.deltas 0 os).flatten.length :=
      Deltas.latest_length_le
    rw [hconcat, hlatest, List.length_append] at hle
    have hextra : bytes bytesOf extra = [] := by
      by_contra hne
      have := List.length_pos_iff.mpr (decode_ne_nil hne)
      omega
    refine ⟨?_, hextra⟩
    have hgrows : Deltas.Grows 0 os := by
      apply @Deltas.grows_of_length _ [] os
      rw [hlatest, hextra, List.length_nil, hconcat]
      exact congrArg List.length (List.append_nil text).symm
    exact steady_of_grows (p := ⟨[], []⟩) hgrows
  · rintro ⟨hsteady, hextra⟩
    have hextends : Deltas.Extends [] os := versions_extends .start hsteady kept
    have hall : (Deltas.deltas 0 os).flatten = Deltas.latest [] os := Deltas.append_deltas hextends
    refine ⟨?_, (grows_iff 0 os).mp hextends.grows, fun k hk => ?_⟩
    · rw [hall, hlatest, hextra]
      exact List.append_nil text
    · have htake : os.take k = versions bytesOf ⟨[], []⟩ (chunks.take k) := by
        rw [← versions_take]
        exact List.take_append_of_le_length (by rw [versions_length]; exact hk)
      have hpart : (Deltas.deltas 0 (os.take k)).flatten = Deltas.latest [] (os.take k) :=
        Deltas.append_deltas (hextends.take k)
      rw [Deltas.deltas_take, hpart, htake]
      exact latest_versions_prefix .start _

/-- The strings that are returned for a request, in batches with other requests: they are the
text of the expected ids, nothing that was sent is taken back, and only complete characters
are sent, if and only if the deliveries are steady and the stop token is trimmed. -/
theorem decode_outputs_iff [DecidableEq ρ] (r : Request ρ) {status : StatusDict ρ}
    (hfresh : status.lookup r.rid = none) {batches : List (List (Item ρ))}
    (hun : Undisturbed (byteLevel bytesOf capacity isToolCallParserGptOss) r.rid status batches)
    (hitems : batches.flatten.filter (·.rid = r.rid) = r.items)
    (htail : AtBoundary (bytes bytesOf r.tail))
    (hstop : ∀ t, r.finish.matched = some (.token t) → ∃ ids, r.last = ids ++ [t])
    (hstr : r.noStopTrim = true ∨ ∀ text, r.finish.matched ≠ some (.str text)) {text : List Char}
    (hvalid : bytes bytesOf (r.expectedIds isToolCallParserGptOss) = encode text) :
    ∃ outputs es,
      runBatches (byteLevel bytesOf capacity isToolCallParserGptOss) status batches =
        .ok outputs ∧
      serveAll (byteLevel bytesOf capacity isToolCallParserGptOss) none r.items = .ok es ∧
      outputsOf r.rid batches outputs = es.map Emission.returned ∧
      (((outputsOf r.rid batches outputs).flatten = text ∧
          (∀ e ∈ es, e.sentBefore ≤ e.outputStr.length) ∧
          ∀ k, k ≤ r.chunks.length → ((outputsOf r.rid batches outputs).take k).flatten <+:
            emits .start (bytes bytesOf (r.chunks.take k).flatten)) ↔
        Steady bytesOf [] r.chunks ∧
          (r.stopToken isToolCallParserGptOss = some 0 → bytesOf 0 = [])) := by
  obtain ⟨kept, htrim, hkept⟩ := r.trim isToolCallParserGptOss hstop hstr
  have hserve := serveAll_items capacity r htail kept htrim (r.trimStr hstr)
  have hrun := hserve
  rw [← hitems, ← hfresh] at hrun
  obtain ⟨outputs, hok, houtputs⟩ := runBatches_serveAll hrun hun
  refine ⟨outputs, _, hok, hserve, houtputs, ?_⟩
  rw [houtputs, returned_emissions]
  have hextra : bytes bytesOf (if r.stopToken isToolCallParserGptOss = some 0 then [0] else []) =
      [] ↔ (r.stopToken isToolCallParserGptOss = some 0 → bytesOf 0 = []) := by
    split
    · next h => simp [bytes, h]
    · next h => simp [bytes, h]
  rw [← hextra]
  exact pieces_iff r.chunks hkept hvalid

/-- Byte-level tokens: 中, the two halves of é, and a stop token. -/
def halves : Nat → List UInt8
  | 1 => [0xE4, 0xB8, 0xAD]
  | 2 => [0xC3]
  | 3 => [0xA9]
  | 4 => [0x3C, 0x2F, 0x73, 0x3E]
  | _ => []

/-- 中é with é cut by the border of two deliveries, and a stop token to trim. -/
def cutOnce : Request Nat where
  rid := 7
  tail := []
  chunks := [[1, 2]]
  last := [3, 4]
  finish := ⟨some (.token 4)⟩
  noStopTrim := false
  skipSpecialTokens := true
  spacesBetweenSpecialTokens := true

/-- The CJK character is sent with the first delivery, the rest with the last one. -/
theorem decode_outputs_cutOnce : ∃ outputs,
    runBatches (byteLevel halves 65536 false) [] [[cutOnce.item [1, 2] none],
      [cutOnce.item [3, 4] (some cutOnce.finish)]] = .ok outputs ∧
    (outputsOf 7 [[cutOnce.item [1, 2] none], [cutOnce.item [3, 4] (some cutOnce.finish)]]
      outputs).flatten = ['中', 'é'] := by
  have hfirst : decodeBatchTokenIdOutput (byteLevel halves 65536 false) []
      [cutOnce.item [1, 2] none] = .ok ([(7, ⟨[], [1, 2], 0, 0, 1⟩)], [['中']]) := by
    decide +kernel
  have hothers : ∀ (status : StatusDict Nat) (ids : List Nat) (reason : Option FinishedReason),
      ∀ item ∈ [cutOnce.item ids reason], item.rid ≠ 7 → ∃ r,
        serve (byteLevel halves 65536 false) (status.lookup item.rid) item = .ok r := by
    intro status ids reason item hitem hne
    exact absurd (congrArg Item.rid (List.mem_singleton.mp hitem)) hne
  have hun : Undisturbed (byteLevel halves 65536 false) cutOnce.rid []
      [[cutOnce.item [1, 2] none], [cutOnce.item [3, 4] (some cutOnce.finish)]] := by
    refine ⟨by decide, by decide, hothers [] _ _, fun status outputs hstatus => ?_⟩
    rw [hfirst] at hstatus
    obtain ⟨rfl, -⟩ := Prod.mk.inj (Except.ok.inj hstatus)
    exact ⟨by decide, by decide, hothers _ _ _, fun _ _ _ => trivial⟩
  have hstop : ∀ t, cutOnce.finish.matched = some (.token t) →
      ∃ ids, cutOnce.last = ids ++ [t] := by
    intro t ht
    obtain rfl := Matched.token.inj (Option.some.inj ht)
    exact ⟨[3], rfl⟩
  have hvalid : bytes halves (cutOnce.expectedIds false) = encode ['中', 'é'] := by decide
  obtain ⟨outputs, es, hrun, _, _, hiff⟩ := decode_outputs_iff cutOnce rfl hun rfl rfl hstop
    (.inr fun text h => by cases h) hvalid
  refine ⟨outputs, hrun, (hiff.mpr ⟨?_, by decide⟩).1⟩
  -- nothing was held back before the first delivery
  refine ⟨fun ⟨y, w, h, _⟩ => ?_, trivial⟩
  simp [bytes, textOf, decode, emits, stateAfter, flush] at h

/-- 中éé with both é cut by the border of two deliveries. -/
def cutTwice : Request Nat :=
  { cutOnce with chunks := [[1, 2], [3, 2]], last := [3], finish := ⟨none⟩ }

/-- The CJK character is shown at once, is taken back by the second delivery, and is sent again
with the last one. -/
theorem decode_outputs_repeated :
    ∃ outputs, runBatches (byteLevel halves 65536 false) []
        (cutTwice.items.map fun item => [item]) = .ok outputs ∧
      bytes halves cutTwice.outputIds = encode ['中', 'é', 'é'] ∧
      outputs.flatten = [['中'], [], ['中', 'é', 'é']] ∧
      outputs.flatten.flatten ≠ ['中', 'é', 'é'] := by
  refine ⟨[[['中']], [[]], [['中', 'é', 'é']]], ?_, ?_, rfl, ?_⟩
  · decide +kernel
  · decide
  · decide

end SpecDecode.Detokenizer
