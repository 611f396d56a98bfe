import SpecDecode.Eplb.Relocation
import Mathlib.Data.List.Infix
import Mathlib.Data.List.Nodup

/-!
# Who sends an expert to whom

The ranks that have an expert and the ranks that need it are sorted lists without repetition, so
dealing the second out to the first in chunks can be read from either side. The same-node mapping
is the same on all ranks of a node and the cross-node mapping on all ranks; hence a rank is in the
list a source sends to exactly when it receives from that source.
-/

namespace SpecDecode.Eplb

def pushNew (output : List Nat) (item : Nat) : List Nat :=
  if output.getLast? = some item then output else output ++ [item]

theorem deduplicateOrdered_eq (arr : List Nat) :
    deduplicateOrdered arr = arr.foldl pushNew [] := rfl

variable {output arr : List Nat}

theorem mem_pushNew {item x : Nat} : x ∈ pushNew output item ↔ x ∈ output ∨ x = item := by
  unfold pushNew
  split
  · next hlast =>
      have hmem : item ∈ output := List.mem_of_getLast? hlast
      constructor
      · exact Or.inl
      · rintro (hx | rfl)
        · exact hx
        · exact hmem
  · simp

private theorem mem_foldl_pushNew {x : Nat} : x ∈ arr.foldl pushNew output ↔
    x ∈ output ∨ x ∈ arr := by
  induction arr generalizing output with
  | nil => simp
  | cons item arr ih => rw [List.foldl_cons, ih, mem_pushNew, List.mem_cons, or_assoc]

@[simp] theorem mem_deduplicateOrdered {x : Nat} : x ∈ deduplicateOrdered arr ↔ x ∈ arr := by
  rw [deduplicateOrdered_eq, mem_foldl_pushNew]
  simp

theorem pairwise_pushNew {item : Nat} (hsorted : output.Pairwise (· < ·))
    (hle : ∀ x ∈ output, x ≤ item) : (pushNew output item).Pairwise (· < ·) := by
  unfold pushNew
  split
  · exact hsorted
  · next hlast =>
      rw [List.pairwise_append]
      refine ⟨hsorted, List.pairwise_singleton _ _, ?_⟩
      rintro x hx y hy
      obtain rfl := List.mem_singleton.mp hy
      refine lt_of_le_of_ne (hle x hx) ?_
      rintro rfl
      -- A member of a sorted list that bounds the list is its last.
      obtain rfl | ⟨init, last, rfl⟩ := List.eq_nil_or_concat output
      · cases hx
      · have hlt : ∀ z ∈ init, z < last := fun z hz =>
          (List.pairwise_append.mp (List.concat_eq_append ▸ hsorted)).2.2 z hz last (by simp)
        rw [List.concat_eq_append] at hx hle hlast
        rw [List.getLast?_concat] at hlast
        have hlast' := hle last (by simp)
        rcases List.mem_append.mp hx with hx | hx
        · have := hlt x hx
          omega
        · exact hlast (by rw [List.mem_singleton.mp hx])

private theorem pairwise_foldl_pushNew (hsorted : output.Pairwise (· < ·))
    (harr : arr.Pairwise (· ≤ ·)) (hle : ∀ x ∈ output, ∀ y ∈ arr, x ≤ y) :
    (arr.foldl pushNew output).Pairwise (· < ·) := by
  induction arr generalizing output with
  | nil => exact hsorted
  | cons item arr ih =>
      obtain ⟨hitem, harr⟩ := List.pairwise_cons.mp harr
      refine ih (pairwise_pushNew hsorted fun x hx => hle x hx item (by simp)) harr ?_
      intro x hx y hy
      rcases mem_pushNew.mp hx with hx | rfl
      · exact hle x hx y (by simp [hy])
      · exact hitem y hy

theorem nodup_deduplicateOrdered (harr : arr.Pairwise (· ≤ ·)) : (deduplicateOrdered arr).Nodup :=
  (pairwise_foldl_pushNew List.Pairwise.nil harr (by simp)).imp Nat.ne_of_lt

theorem idxOf?_eq_some_iff_getElem? {l : List Nat} (hl : l.Nodup) {a i : Nat} :
    l.idxOf? a = some i ↔ l[i]? = some a := by
  rw [List.idxOf?_eq_some_iff, List.getElem?_eq_some_iff]
  constructor
  · rintro ⟨hi, ha, _⟩
    exact ⟨hi, by simpa using ha⟩
  · rintro ⟨hi, rfl⟩
    refine ⟨hi, by simp, fun j hji => ?_⟩
    have hne : l[j] ≠ l[i] := fun h => by
      have := (List.Nodup.getElem_inj_iff hl).mp h
      omega
    simpa using hne

namespace ChunkUtils

variable {u : ChunkUtils}

theorem chunkValueFromElementValue_eq_some_iff (helements : u.elementValues.Nodup) {v c : Nat} :
    u.chunkValueFromElementValue v = some c ↔
      ∃ j, u.elementValues[j]? = some v ∧
        u.chunkValues[Chunks.owner u.elementValues.length u.chunkValues.length j]? = some c := by
  unfold chunkValueFromElementValue chunkIndexFromElementIndex
  rw [Option.bind_eq_some_iff]
  refine exists_congr fun j => ?_
  rw [idxOf?_eq_some_iff_getElem? helements]
  refine and_congr_right fun _ => ?_
  split
  · next hzero => simp [List.eq_nil_of_length_eq_zero hzero]
  · rfl

theorem mem_of_chunkValue {v c : Nat} (helements : u.elementValues.Nodup)
    (h : u.chunkValueFromElementValue v = some c) : v ∈ u.elementValues ∧ c ∈ u.chunkValues := by
  obtain ⟨j, hv, hc⟩ := (chunkValueFromElementValue_eq_some_iff helements).mp h
  exact ⟨List.mem_of_getElem? hv, List.mem_of_getElem? hc⟩

theorem chunkValue_of_mem {v : Nat} (helements : u.elementValues.Nodup)
    (hchunks : u.chunkValues ≠ []) (hv : v ∈ u.elementValues) :
    ∃ c, u.chunkValueFromElementValue v = some c := by
  obtain ⟨j, hj⟩ := List.getElem?_of_mem hv
  have hlt := (List.getElem?_eq_some_iff.mp hj).1
  have howner := Chunks.owner_lt (List.length_pos_iff.mpr hchunks) hlt
  exact ⟨_, (chunkValueFromElementValue_eq_some_iff helements).mpr
    ⟨j, hj, List.getElem?_eq_getElem howner⟩⟩

theorem elementValuesFromChunkValue_spec (hchunks : u.chunkValues.Nodup)
    (helements : u.elementValues.Nodup) {c : Nat} (hc : c ∈ u.chunkValues) :
    ∃ l, u.elementValuesFromChunkValue c = some l ∧ l.Nodup ∧
      ∀ v, v ∈ l ↔ u.chunkValueFromElementValue v = some c := by
  unfold elementValuesFromChunkValue
  split
  · next hzero =>
      refine ⟨[], rfl, List.nodup_nil, fun v => ?_⟩
      rw [chunkValueFromElementValue_eq_some_iff helements, List.eq_nil_of_length_eq_zero hzero]
      simp
  · obtain ⟨k, hk⟩ := List.getElem?_of_mem hc
    rw [(idxOf?_eq_some_iff_getElem? hchunks).mpr hk]
    refine ⟨_, rfl, helements.sublist ((List.take_sublist _ _).trans (List.drop_sublist _ _)),
      fun v => ?_⟩
    rw [chunkValueFromElementValue_eq_some_iff helements, List.mem_iff_getElem?]
    have hklt := (List.getElem?_eq_some_iff.mp hk).1
    constructor
    · rintro ⟨i, hi⟩
      rw [List.getElem?_take] at hi
      split at hi
      · next hlt =>
          rw [List.getElem?_drop] at hi
          have hj := (List.getElem?_eq_some_iff.mp hi).1
          refine ⟨_, hi, ?_⟩
          rw [(Chunks.owner_eq_iff hj).mpr ⟨Nat.le_add_right _ _, by omega⟩]
          exact hk
      · cases hi
    · rintro ⟨j, hj, howner⟩
      have hjlt := (List.getElem?_eq_some_iff.mp hj).1
      have hindex : Chunks.owner u.elementValues.length u.chunkValues.length j = k :=
        ((List.getElem?_inj hklt hchunks).mp (hk.trans howner.symm)).symm
      obtain ⟨hstart, hsize⟩ := (Chunks.owner_eq_iff hjlt).mp hindex
      refine ⟨j - Chunks.start u.elementValues.length u.chunkValues.length k, ?_⟩
      rw [List.getElem?_take, if_pos (by omega), List.getElem?_drop, Nat.add_sub_cancel' hstart, hj]

end ChunkUtils

namespace Layer

variable {ly : Layer}

variable {rank location e r s : Nat}

theorem mem_localRange :
    location ∈ ly.localRange rank ↔
      rank * ly.numLocalPhysicalExperts ≤ location ∧
        location < rank * ly.numLocalPhysicalExperts + ly.numLocalPhysicalExperts := by
  rw [localRange, List.mem_range'_1]

theorem rankOf_of_mem (h : location ∈ ly.localRange rank) : ly.rankOf location = rank := by
  have h := mem_localRange.mp h
  rw [rankOf, Chunks.div_eq_iff_mul_le (by omega)]
  exact h

theorem pairwise_rankOf (p : Nat → Bool) :
    (((List.range ly.numPhysicalExperts).filter p).map ly.rankOf).Pairwise (· ≤ ·) := by
  rw [List.pairwise_map]
  refine (List.pairwise_lt_range.filter p).imp fun hlt => ?_
  exact Nat.div_le_div_right (Nat.le_of_lt hlt)

theorem oldAt_iff : ly.oldAt location e ↔ ly.oldPhysicalToLogicalMap[location]? = some e := by
  rw [oldAt, decide_eq_true_iff]

theorem newAt_iff : ly.newAt location e ↔ ly.newPhysicalToLogicalMap[location]? = some e := by
  rw [newAt, decide_eq_true_iff]

theorem lt_of_oldAt {x : Nat} (h : ly.oldAt x e) : x < ly.numPhysicalExperts :=
  (List.getElem?_eq_some_iff.mp (oldAt_iff.mp h)).1

theorem nodup_allSrcRanks (e : Nat) : (ly.allSrcRanks e).Nodup :=
  nodup_deduplicateOrdered (pairwise_rankOf _)

theorem nodup_needCommDstRanks (e : Nat) : (ly.needCommDstRanks e).Nodup :=
  nodup_deduplicateOrdered (pairwise_rankOf _)

/-- The maps have a location for every slot of every rank. -/
structure Fits (ly : Layer) (worldSize : Nat) : Prop where
  old_length : ly.oldPhysicalToLogicalMap.length = worldSize * ly.numLocalPhysicalExperts
  new_length : ly.newPhysicalToLogicalMap.length = worldSize * ly.numLocalPhysicalExperts

section

variable {worldSize : Nat} (hfits : ly.Fits worldSize)
include hfits

theorem mem_localRange_rankOf {location : Nat} (hlt : location < ly.numPhysicalExperts) :
    location ∈ ly.localRange (ly.rankOf location) := by
  have hlocal : 0 < ly.numLocalPhysicalExperts := by
    rw [numPhysicalExperts, hfits.old_length] at hlt
    exact Nat.pos_of_mul_pos_left (Nat.zero_lt_of_lt hlt)
  exact mem_localRange.mpr ((Chunks.div_eq_iff_mul_le hlocal).mp rfl)

variable {rank : Nat}

/-- `allSrcRanks` and `needCommDstRanks` list the ranks of the locations they look for. -/
theorem mem_rankOf {p : Nat → Bool} (hp : ∀ x, p x → x < ly.numPhysicalExperts) :
    rank ∈ deduplicateOrdered (((List.range ly.numPhysicalExperts).filter p).map ly.rankOf) ↔
      ∃ x ∈ ly.localRange rank, p x := by
  rw [mem_deduplicateOrdered, List.mem_map]
  refine exists_congr fun x => ?_
  rw [List.mem_filter, List.mem_range]
  constructor
  · rintro ⟨⟨hx, hpx⟩, rfl⟩
    exact ⟨mem_localRange_rankOf hfits hx, hpx⟩
  · rintro ⟨hx, hpx⟩
    exact ⟨⟨hp x hpx, hpx⟩, rankOf_of_mem hx⟩

theorem lt_of_newAt {x e : Nat} (h : ly.newAt x e) : x < ly.numPhysicalExperts := by
  have := (List.getElem?_eq_some_iff.mp (newAt_iff.mp h)).1
  rw [numPhysicalExperts, hfits.old_length, ← hfits.new_length]
  exact this

theorem mem_allSrcRanks {e : Nat} :
    rank ∈ ly.allSrcRanks e ↔ ∃ x ∈ ly.localRange rank, ly.oldAt x e :=
  mem_rankOf hfits (fun _ => lt_of_oldAt)

theorem mem_needCommDstRanks {e : Nat} :
    rank ∈ ly.needCommDstRanks e ↔
      (∃ x ∈ ly.localRange rank, ly.newAt x e) ∧ rank ∉ ly.allSrcRanks e := by
  rw [needCommDstRanks, mem_rankOf hfits]
  · constructor
    · rintro ⟨x, hx, hneed⟩
      rw [Bool.and_eq_true, rankOf_of_mem hx] at hneed
      exact ⟨⟨x, hx, hneed.1⟩, by simpa using hneed.2⟩
    · rintro ⟨⟨x, hx, hnew⟩, hsrc⟩
      refine ⟨x, hx, ?_⟩
      rw [Bool.and_eq_true, rankOf_of_mem hx]
      exact ⟨hnew, by simpa using hsrc⟩
  · intro x hneed
    rw [Bool.and_eq_true] at hneed
    exact lt_of_newAt hfits hneed.1

theorem lt_worldSize {x : Nat} (hx : x ∈ ly.localRange rank)
    (hlt : x < ly.numPhysicalExperts) : rank < worldSize := by
  obtain ⟨hle, _⟩ := mem_localRange.mp hx
  rw [numPhysicalExperts, hfits.old_length] at hlt
  exact Nat.lt_of_mul_lt_mul_right (Nat.lt_of_le_of_lt hle hlt)

end

theorem mem_selfNodeSrcRanks {x : Nat} :
    x ∈ ly.selfNodeSrcRanks rank e ↔ x ∈ ly.allSrcRanks e ∧ ly.nodeOf x = ly.nodeOf rank := by
  rw [selfNodeSrcRanks, List.mem_filter, decide_eq_true_iff]

theorem mem_needCommSelfNodeDstRanks {x : Nat} :
    x ∈ ly.needCommSelfNodeDstRanks rank e ↔
      x ∈ ly.needCommDstRanks e ∧ ly.nodeOf x = ly.nodeOf rank ∧
        ∃ s ∈ ly.allSrcRanks e, ly.nodeOf s = ly.nodeOf rank := by
  rw [needCommSelfNodeDstRanks]
  split
  · next hpos =>
      obtain ⟨s, hs⟩ := List.exists_mem_of_length_pos hpos
      have hs := mem_selfNodeSrcRanks.mp hs
      rw [List.mem_filter, decide_eq_true_iff]
      exact ⟨fun h => ⟨h.1, h.2, s, hs⟩, fun h => ⟨h.1, h.2.1⟩⟩
  · next hnone =>
      constructor
      · intro h
        cases h
      · rintro ⟨_, _, s, hs⟩
        exact absurd (List.length_pos_of_mem (mem_selfNodeSrcRanks.mpr hs)) hnone

theorem mem_needCommCrossNodeDstRanks {x : Nat} :
    x ∈ ly.needCommCrossNodeDstRanks e ↔
      x ∈ ly.needCommDstRanks e ∧ ∀ s ∈ ly.allSrcRanks e, ly.nodeOf s ≠ ly.nodeOf x := by
  rw [needCommCrossNodeDstRanks, List.mem_filter]
  simp

theorem nodup_sameNode_chunks (rank e : Nat) : (ly.sameNodeMapping rank e).chunkValues.Nodup :=
  (nodup_allSrcRanks e).filter _

theorem nodup_sameNode_elements (rank e : Nat) :
    (ly.sameNodeMapping rank e).elementValues.Nodup := by
  show (ly.needCommSelfNodeDstRanks rank e).Nodup
  rw [needCommSelfNodeDstRanks]
  split
  · exact (nodup_needCommDstRanks e).filter _
  · exact List.nodup_nil

theorem nodup_crossNode_elements (e : Nat) : (ly.crossNodeMapping e).elementValues.Nodup :=
  (nodup_needCommDstRanks e).filter _

theorem sameNodeMapping_congr {rank' : Nat} (hnode : ly.nodeOf rank = ly.nodeOf rank') (e : Nat) :
    ly.sameNodeMapping rank e = ly.sameNodeMapping rank' e := by
  unfold sameNodeMapping needCommSelfNodeDstRanks selfNodeSrcRanks
  rw [hnode]

theorem sameNode_assigns
    (h : (ly.sameNodeMapping rank e).chunkValueFromElementValue r = some s) :
    r ∈ ly.needCommSelfNodeDstRanks rank e ∧ s ∈ ly.selfNodeSrcRanks rank e :=
  ChunkUtils.mem_of_chunkValue (nodup_sameNode_elements rank e) h

theorem crossNode_assigns
    (h : (ly.crossNodeMapping e).chunkValueFromElementValue r = some s) :
    r ∈ ly.needCommCrossNodeDstRanks e ∧ s ∈ ly.allSrcRanks e :=
  ChunkUtils.mem_of_chunkValue (nodup_crossNode_elements e) h

theorem chosenSrcRank_mem (h : ly.chosenSrcRank r e = some s) :
    r ∈ ly.needCommDstRanks e ∧ s ∈ ly.allSrcRanks e := by
  unfold chosenSrcRank at h
  split at h
  · obtain ⟨hr, hs⟩ := sameNode_assigns h
    exact ⟨(mem_needCommSelfNodeDstRanks.mp hr).1, (mem_selfNodeSrcRanks.mp hs).1⟩
  · obtain ⟨hr, hs⟩ := crossNode_assigns h
    exact ⟨(mem_needCommCrossNodeDstRanks.mp hr).1, hs⟩

/-- A rank that needs an expert finds a source, if any rank has it. -/
theorem chosenSrcRank_of_need (hneed : r ∈ ly.needCommDstRanks e)
    (hsrc : ly.allSrcRanks e ≠ []) : ∃ s, ly.chosenSrcRank r e = some s := by
  unfold chosenSrcRank
  split
  · next hself =>
      obtain ⟨_, _, s, hs⟩ := mem_needCommSelfNodeDstRanks.mp hself
      refine ChunkUtils.chunkValue_of_mem (nodup_sameNode_elements r e) ?_ hself
      exact List.ne_nil_of_mem (mem_selfNodeSrcRanks.mpr hs)
  · next hself =>
      refine ChunkUtils.chunkValue_of_mem (nodup_crossNode_elements e) hsrc ?_
      refine mem_needCommCrossNodeDstRanks.mpr ⟨hneed, fun s hs hnode => hself ?_⟩
      exact mem_needCommSelfNodeDstRanks.mpr ⟨hneed, rfl, s, hs, hnode⟩

theorem not_crossNode_of_selfNode (hself : r ∈ ly.needCommSelfNodeDstRanks rank e) :
    r ∉ ly.needCommCrossNodeDstRanks e := by
  obtain ⟨_, hnode, s, hs, hsnode⟩ := mem_needCommSelfNodeDstRanks.mp hself
  exact fun hcross => (mem_needCommCrossNodeDstRanks.mp hcross).2 s hs (hsnode.trans hnode.symm)

/-- A source is chosen through one of its own two mappings. -/
theorem chosenSrcRank_eq_some_iff :
    ly.chosenSrcRank r e = some s ↔
      (ly.sameNodeMapping s e).chunkValueFromElementValue r = some s ∨
        (ly.crossNodeMapping e).chunkValueFromElementValue r = some s := by
  unfold chosenSrcRank
  split
  · next hself =>
      constructor
      · intro h
        have hnode := (mem_selfNodeSrcRanks.mp (sameNode_assigns h).2).2
        rw [sameNodeMapping_congr hnode]
        exact Or.inl h
      · rintro (h | h)
        · have hnode := (mem_needCommSelfNodeDstRanks.mp (sameNode_assigns h).1).2.1
          rw [sameNodeMapping_congr hnode]
          exact h
        · exact absurd (crossNode_assigns h).1 (not_crossNode_of_selfNode hself)
  · next hself =>
      constructor
      · exact Or.inr
      · rintro (h | h)
        · obtain ⟨hneed, hnode, hsrc⟩ := mem_needCommSelfNodeDstRanks.mp (sameNode_assigns h).1
          refine absurd ?_ hself
          rw [← hnode] at hsrc
          exact mem_needCommSelfNodeDstRanks.mpr ⟨hneed, rfl, hsrc⟩
        · exact h

/-- A source sends an expert to the ranks that chose it. -/
theorem allDstRanks_spec (hs : s ∈ ly.allSrcRanks e) :
    ∃ l, ly.allDstRanks s e = some l ∧ l.Nodup ∧ ∀ r, r ∈ l ↔ ly.chosenSrcRank r e = some s := by
  obtain ⟨same, hsame, hsameNodup, hsameMem⟩ :=
    ChunkUtils.elementValuesFromChunkValue_spec (nodup_sameNode_chunks s e)
      (nodup_sameNode_elements s e) (mem_selfNodeSrcRanks.mpr ⟨hs, rfl⟩)
  obtain ⟨cross, hcross, hcrossNodup, hcrossMem⟩ :=
    ChunkUtils.elementValuesFromChunkValue_spec (u := ly.crossNodeMapping e) (nodup_allSrcRanks e)
      (nodup_crossNode_elements e) hs
  refine ⟨same ++ cross, ?_, ?_, fun r => ?_⟩
  · rw [allDstRanks, hsame, hcross]
    rfl
  · refine hsameNodup.append hcrossNodup fun r hr hr' => ?_
    exact not_crossNode_of_selfNode (sameNode_assigns ((hsameMem r).mp hr)).1
      (crossNode_assigns ((hcrossMem r).mp hr')).1
  · rw [List.mem_append, hsameMem, hcrossMem, chosenSrcRank_eq_some_iff]

end Layer

end SpecDecode.Eplb
