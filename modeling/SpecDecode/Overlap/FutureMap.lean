import SpecDecode.Lib.Buffer
import SpecDecode.Lib.OptionMap
import SpecDecode.Lib.SlackRing

/-!
# Future token ids of the overlapped loop

A batch gets its future indices when it is launched. Its tokens are stored under them when they
are sampled, and the negative ids that stand for them are resolved when a later batch runs.
-/

namespace SpecDecode.Overlap

open Function Buffer OptionMap SlackRing

structure FutureIndices where
  indices : List Nat
  start : Nat
  stop : Nat
deriving DecidableEq

/-- The buffer holds token ids, or for speculative decoding the rows of a draft input. -/
structure FutureMap (α : Type) where
  futureCt : Nat
  futureLimit : Nat
  futureBufferLen : Nat
  buf : Nat → α

/-- The chunks of the longest prompt; without a chunk size there are none. -/
def maxNumChunks (contextLen : Nat) : Option Nat → Nat
  | none => 0
  | some 0 => 0
  | some (size + 1) => (contextLen + (size + 1) - 1) / (size + 1)

namespace FutureMap

variable {α : Type}

/-- `FutureMap.__init__`; the buffer is not initialised. -/
def init (maxRunningRequests : Nat) (chunkedPrefillSize : Option Nat) (contextLen : Nat)
    (buf : Nat → α) : FutureMap α :=
  let futureLimit := maxRunningRequests * (3 + maxNumChunks contextLen chunkedPrefillSize)
  { futureCt := 0
    futureLimit := futureLimit
    futureBufferLen := futureLimit + 2 * maxRunningRequests
    buf := buf }

/-- `alloc_future_indices`; a limit of zero divides by zero. -/
def allocFutureIndices (m : FutureMap α) (bs : Nat) : Option (FutureIndices × FutureMap α) :=
  if m.futureLimit = 0 then none
  else
    let start := m.futureCt + 1
    let stop := m.futureCt + 1 + bs
    some ({ indices := List.range' start bs, start := start, stop := stop },
      { m with futureCt := (m.futureCt + bs) % m.futureLimit })

/-- `store_to_map`: a slice assignment of as many values as the slice holds. -/
def storeToMap [Inhabited α] (m : FutureMap α) (future : FutureIndices) (values : List α) :
    Option (FutureMap α) :=
  if values.length = min future.stop m.futureBufferLen - min future.start m.futureBufferLen then
    some { m with
      buf := fill m.buf (min future.start m.futureBufferLen) values.length fun i => values[i]! }
  else none

/-- An indexed read; an index past the end of the buffer raises. -/
def read (m : FutureMap α) (index : Nat) : Option α :=
  if index < m.futureBufferLen then some (m.buf index) else none

/-- `_resolve_future_token_ids_native`: every lane reads the buffer, the clamped ones at 0. -/
def resolveFutureTokenIds (m : FutureMap Int) (inputIds : List Int) : Option (List Int) :=
  inputIds.mapM fun id => (m.read (max (-id) 0).toNat).map fun value =>
    if id < 0 then value else id

/-- `resolve_future` of speculative decoding: the rows of the batch before. -/
def resolveDraftInput (m : FutureMap α) (future : FutureIndices) : Option (List α) :=
  future.indices.mapM m.read

end FutureMap

/-- A batch that was given indices: how many slots were allocated before it, its size, and
what was stored for it last. -/
structure FutureBatch (α : Type) where
  future : FutureIndices
  before : Nat
  size : Nat
  stored : Option (List α)

/-- The map with the batches of the run so far. -/
structure FutureRun (α : Type) where
  map : FutureMap α
  batches : Nat → FutureBatch α
  count : Nat
  total : Nat

namespace FutureRun

variable {α : Type}

def start (m : FutureMap α) : FutureRun α where
  map := m
  batches := fun _ => { future := { indices := [], start := 0, stop := 0 }, before := 0, size := 0,
                        stored := none }
  count := 0
  total := 0

/-- Fewer than `future_limit` slots were allocated since the allocation of the batch. -/
def Live (r : FutureRun α) (k : Nat) : Prop :=
  k < r.count ∧ r.total - (r.batches k).before < r.map.futureLimit

/-- A batch was given indices, and the map became `m`. -/
def launched (r : FutureRun α) (bs : Nat) (future : FutureIndices) (m : FutureMap α) :
    FutureRun α where
  map := m
  batches := update r.batches r.count
    { future := future, before := r.total, size := bs, stored := none }
  count := r.count + 1
  total := r.total + bs

/-- The values of a batch were stored, and the map became `m`. -/
def sampled (r : FutureRun α) (k : Nat) (values : List α) (m : FutureMap α) : FutureRun α :=
  { r with
    map := m
    batches := update r.batches k { r.batches k with stored := some values } }

@[simp] theorem launched_batches_self (r : FutureRun α) {bs : Nat} {future : FutureIndices}
    {m : FutureMap α} : (r.launched bs future m).batches r.count =
      { future := future, before := r.total, size := bs, stored := none } :=
  update_self ..

theorem launched_batches_of_lt (r : FutureRun α) {bs k : Nat} {future : FutureIndices}
    {m : FutureMap α} (hk : k < r.count) : (r.launched bs future m).batches k = r.batches k :=
  update_of_ne (Nat.ne_of_lt hk) ..

section Sampled

variable (r : FutureRun α) (j k : Nat) (values : List α) (m : FutureMap α)

theorem sampled_batches (j : Nat) : (r.sampled k values m).batches j =
    { r.batches j with stored := if j = k then some values else (r.batches j).stored } := by
  by_cases hj : j = k
  · subst hj
    rw [if_pos rfl]
    exact update_self ..
  · rw [if_neg hj]
    exact update_of_ne hj ..

@[simp] theorem sampled_future :
    ((r.sampled k values m).batches j).future = (r.batches j).future := by
  rw [sampled_batches]

@[simp] theorem sampled_before :
    ((r.sampled k values m).batches j).before = (r.batches j).before := by
  rw [sampled_batches]

@[simp] theorem sampled_size : ((r.sampled k values m).batches j).size = (r.batches j).size := by
  rw [sampled_batches]

end Sampled

variable [Inhabited α]

/-- One step of the overlapped loop; resolving changes neither the map nor the batches. -/
inductive Step (maxRunningRequests : Nat) : FutureRun α → FutureRun α → Prop
  | alloc {r : FutureRun α} {bs : Nat} {future : FutureIndices} {m : FutureMap α}
      (hbs : bs ≤ maxRunningRequests) (halloc : r.map.allocFutureIndices bs = some (future, m)) :
      Step maxRunningRequests r (r.launched bs future m)
  | store {r : FutureRun α} {k : Nat} {values : List α} {m : FutureMap α} (hlive : r.Live k)
      (hlen : values.length = (r.batches k).size)
      (hstore : r.map.storeToMap (r.batches k).future values = some m) :
      Step maxRunningRequests r (r.sampled k values m)

/-- The states of the runs from a new map with any buffer contents. -/
inductive Reachable (maxRunningRequests : Nat) (chunkedPrefillSize : Option Nat)
    (contextLen : Nat) : FutureRun α → Prop
  | start (buf : Nat → α) : Reachable maxRunningRequests chunkedPrefillSize contextLen
      (start (FutureMap.init maxRunningRequests chunkedPrefillSize contextLen buf))
  | step {r r' : FutureRun α} (h : Reachable maxRunningRequests chunkedPrefillSize contextLen r)
      (hstep : Step maxRunningRequests r r') :
      Reachable maxRunningRequests chunkedPrefillSize contextLen r'

variable {maxRunningRequests contextLen j k : Nat} {chunkedPrefillSize : Option Nat}
variable {r r' : FutureRun α}

structure Inv (maxRunningRequests : Nat) (r : FutureRun α) : Prop where
  bufferLen : r.map.futureBufferLen = r.map.futureLimit + 2 * maxRunningRequests
  futureCt : r.map.futureCt = r.total % r.map.futureLimit
  limit {k : Nat} : k < r.count → 0 < r.map.futureLimit
  size_le {k : Nat} : k < r.count → (r.batches k).size ≤ maxRunningRequests
  future {k : Nat} : k < r.count → (r.batches k).future =
    { indices := List.range' ((r.batches k).before % r.map.futureLimit + 1) (r.batches k).size
      start := (r.batches k).before % r.map.futureLimit + 1
      stop := (r.batches k).before % r.map.futureLimit + 1 + (r.batches k).size }
  le_total {k : Nat} : k < r.count → (r.batches k).before + (r.batches k).size ≤ r.total
  order {j k : Nat} : j < k → k < r.count →
    (r.batches j).before + (r.batches j).size ≤ (r.batches k).before
  kept {k : Nat} {values : List α} : r.Live k → (r.batches k).stored = some values →
    values.length = (r.batches k).size ∧ ∀ i, i < (r.batches k).size →
      r.map.buf (slot r.map.futureLimit (r.batches k).before i) = values[i]!

theorem Inv.start (chunkedPrefillSize : Option Nat) (contextLen : Nat) (buf : Nat → α) :
    Inv maxRunningRequests
      (start (FutureMap.init maxRunningRequests chunkedPrefillSize contextLen buf)) where
  bufferLen := rfl
  futureCt := (Nat.zero_mod _).symm
  limit hk := absurd hk (Nat.not_lt_zero _)
  size_le hk := absurd hk (Nat.not_lt_zero _)
  future hk := absurd hk (Nat.not_lt_zero _)
  le_total hk := absurd hk (Nat.not_lt_zero _)
  order _ hk := absurd hk (Nat.not_lt_zero _)
  kept hlive _ := absurd hlive.1 (Nat.not_lt_zero _)

namespace Inv

section

variable (h : Inv maxRunningRequests r)

include h

theorem slot_lt (hk : k < r.count) {i : Nat} (hi : i < (r.batches k).size) :
    slot r.map.futureLimit (r.batches k).before i < r.map.futureBufferLen := by
  have hslot : slot r.map.futureLimit (r.batches k).before i <
      r.map.futureLimit + (r.batches k).size := SlackRing.slot_lt (h.limit hk) hi
  have hsize := h.size_le hk
  have hlen := h.bufferLen
  omega

private theorem slot_ne (hj : r.Live j) (hk : r.Live k) (hne : j ≠ k)
    {i i' : Nat} (hi : i < (r.batches j).size) (hi' : i' < (r.batches k).size) :
    slot r.map.futureLimit (r.batches j).before i ≠
      slot r.map.futureLimit (r.batches k).before i' := by
  have htotal := h.le_total hj.1
  have htotal' := h.le_total hk.1
  have hclose := hj.2
  have hclose' := hk.2
  obtain hlt | hgt := Nat.lt_or_gt_of_ne hne
  · have horder := h.order hlt hk.1
    exact SlackRing.slot_ne (by omega) (by omega)
  · have horder := h.order hgt hj.1
    exact (SlackRing.slot_ne (by omega) (by omega)).symm

/-- A slot of a live batch lies outside the slice of another live one. -/
theorem slot_outside (hj : r.Live j) (hk : r.Live k)
    (hne : j ≠ k) {i : Nat} (hi : i < (r.batches j).size) :
    slot r.map.futureLimit (r.batches j).before i < (r.batches k).before % r.map.futureLimit + 1 ∨
      (r.batches k).before % r.map.futureLimit + 1 + (r.batches k).size ≤
        slot r.map.futureLimit (r.batches j).before i := by
  by_contra hin
  -- A slot inside the slice is the slot of an element of batch `k`.
  have hinside : slot r.map.futureLimit (r.batches j).before i -
      ((r.batches k).before % r.map.futureLimit + 1) < (r.batches k).size := by omega
  have hslot := h.slot_ne hj hk hne hi hinside
  unfold slot at hslot hin
  omega

theorem alloc {bs : Nat} {future : FutureIndices} {m : FutureMap α} (hbs : bs ≤ maxRunningRequests)
    (halloc : r.map.allocFutureIndices bs = some (future, m)) :
    Inv maxRunningRequests (r.launched bs future m) := by
  unfold FutureMap.allocFutureIndices at halloc
  obtain ⟨hlimit, halloc⟩ := (Option.ite_none_left_eq_some ..).mp halloc
  obtain ⟨rfl, rfl⟩ := Prod.mk.inj (Option.some.inj halloc)
  have hlast {k : Nat} (hk : k < r.count + 1) : k < r.count ∨ k = r.count :=
    Nat.lt_succ_iff_lt_or_eq.mp hk
  exact {
    bufferLen := h.bufferLen
    futureCt := by
      show (r.map.futureCt + bs) % r.map.futureLimit = (r.total + bs) % r.map.futureLimit
      rw [h.futureCt, Nat.mod_add_mod]
    limit := fun _ => Nat.pos_of_ne_zero hlimit
    size_le := fun hk => by
      obtain hk | rfl := hlast hk
      · rw [r.launched_batches_of_lt hk]
        exact h.size_le hk
      · rw [r.launched_batches_self]
        exact hbs
    future := fun hk => by
      obtain hk | rfl := hlast hk
      · rw [r.launched_batches_of_lt hk]
        exact h.future hk
      · rw [r.launched_batches_self, h.futureCt]
        rfl
    le_total := fun hk => by
      obtain hk | rfl := hlast hk
      · rw [r.launched_batches_of_lt hk]
        exact Nat.le_trans (h.le_total hk) (Nat.le_add_right _ _)
      · rw [r.launched_batches_self]
        exact Nat.le_refl _
    order := fun {j k} hjk hk => by
      obtain hk | rfl := hlast hk
      · rw [r.launched_batches_of_lt hk, r.launched_batches_of_lt (Nat.lt_trans hjk hk)]
        exact h.order hjk hk
      · rw [r.launched_batches_self, r.launched_batches_of_lt hjk]
        exact h.le_total hjk
    kept := fun {k values} hlive hstored => by
      obtain hk | rfl := hlast hlive.1
      · rw [r.launched_batches_of_lt hk] at hstored ⊢
        have hclose := hlive.2
        rw [r.launched_batches_of_lt hk] at hclose
        refine h.kept ⟨hk, Nat.lt_of_le_of_lt ?_ hclose⟩ hstored
        exact Nat.sub_le_sub_right (Nat.le_add_right _ _) _
      · rw [r.launched_batches_self] at hstored
        cases hstored }

theorem storeToMap_eq (hk : k < r.count) {values : List α}
    (hlen : values.length = (r.batches k).size) :
    r.map.storeToMap (r.batches k).future values = some { r.map with
      buf := fill r.map.buf ((r.batches k).before % r.map.futureLimit + 1) (r.batches k).size
        fun i => values[i]! } := by
  have hmod := Nat.mod_lt (r.batches k).before (h.limit hk)
  have hsize := h.size_le hk
  have hbuf := h.bufferLen
  rw [FutureMap.storeToMap, h.future hk]
  dsimp only
  rw [Nat.min_eq_left (by omega), Nat.min_eq_left (by omega), if_pos (by omega), hlen]

theorem store {values : List α} {m : FutureMap α}
    (hlive : r.Live k) (hlen : values.length = (r.batches k).size)
    (hstore : r.map.storeToMap (r.batches k).future values = some m) :
    Inv maxRunningRequests (r.sampled k values m) := by
  rw [h.storeToMap_eq hlive.1 hlen] at hstore
  obtain rfl := Option.some.inj hstore
  have hlive' {j : Nat} {m : FutureMap α} (hm : m.futureLimit = r.map.futureLimit)
      (hj : (r.sampled k values m).Live j) : r.Live j := by
    obtain ⟨hcount, hclose⟩ := hj
    rw [sampled_before] at hclose
    exact ⟨hcount, hm ▸ hclose⟩
  exact {
    bufferLen := h.bufferLen
    futureCt := h.futureCt
    limit := fun hk => h.limit hk
    size_le := fun hk => by
      rw [sampled_size]
      exact h.size_le hk
    future := fun hk => by
      rw [sampled_future, sampled_before, sampled_size]
      exact h.future hk
    le_total := fun hk => by
      rw [sampled_before, sampled_size]
      exact h.le_total hk
    order := fun hjk hk => by
      rw [sampled_before, sampled_before, sampled_size]
      exact h.order hjk hk
    kept := fun {j stored} hj hstored => by
      have hj := hlive' rfl hj
      rw [sampled_batches] at hstored
      rw [sampled_size, sampled_before]
      by_cases hjk : j = k
      · subst hjk
        obtain rfl := Option.some.inj ((if_pos rfl).symm.trans hstored)
        exact ⟨hlen, fun i hi => fill_inside hi⟩
      · obtain ⟨hlength, hkept⟩ := h.kept hj ((if_neg hjk).symm.trans hstored)
        exact ⟨hlength, fun i hi =>
          (fill_outside (h.slot_outside hj hlive hjk hi)).trans (hkept i hi)⟩ }

end

end Inv

theorem Reachable.inv
    (h : Reachable maxRunningRequests chunkedPrefillSize contextLen r) :
    Inv maxRunningRequests r := by
  induction h with
  | start buf => exact Inv.start _ _ buf
  | step _ hstep ih =>
      cases hstep with
      | alloc hbs halloc => exact ih.alloc hbs halloc
      | store hlive hlen hstore => exact ih.store hlive hlen hstore

namespace Inv

/-- The index that a live batch was given reads what was stored for the batch. -/
theorem read_eq (h : Inv maxRunningRequests r) (hlive : r.Live k) {values : List α}
    (hstored : (r.batches k).stored = some values) {i index : Nat}
    (hindex : (r.batches k).future.indices[i]? = some index) :
    ∃ hi : i < values.length, r.map.read index = some values[i] := by
  obtain ⟨hlength, hkept⟩ := h.kept hlive hstored
  have hi : i < (r.batches k).size ∧ slot r.map.futureLimit (r.batches k).before i = index := by
    rw [h.future hlive.1] at hindex
    obtain ⟨hi, hindex⟩ := List.getElem?_eq_some_iff.mp hindex
    rw [List.length_range'] at hi
    rw [List.getElem_range', Nat.one_mul] at hindex
    exact ⟨hi, hindex⟩
  have hlt : i < values.length := hlength ▸ hi.1
  refine ⟨hlt, ?_⟩
  rw [FutureMap.read, ← hi.2, if_pos (h.slot_lt hlive.1 hi.1), hkept i hi.1,
    getElem!_pos values i hlt]

/-- The rows of a live batch come back as they were stored. -/
theorem resolveDraftInput_eq (h : Inv maxRunningRequests r) (hlive : r.Live k) {values : List α}
    (hstored : (r.batches k).stored = some values) :
    r.map.resolveDraftInput (r.batches k).future = some values := by
  refine mapM_of_forall₂ (List.forall₂_iff_get.mpr ⟨?_, fun i hi hi' => ?_⟩)
  · rw [h.future hlive.1, (h.kept hlive hstored).1, List.length_range']
  · obtain ⟨_, hread⟩ := h.read_eq hlive hstored (List.getElem?_eq_getElem hi)
    exact hread

theorem index_bounds (h : Inv maxRunningRequests r) (hk : k < r.count) {index : Nat}
    (hindex : index ∈ (r.batches k).future.indices) :
    1 ≤ index ∧ index < r.map.futureBufferLen := by
  rw [h.future hk] at hindex
  obtain ⟨i, hi, rfl⟩ := List.mem_range'.mp hindex
  rw [Nat.one_mul]
  exact ⟨slot_pos _ _ i, h.slot_lt hk hi⟩

end Inv

end FutureRun

namespace FutureRun

/-- A negative id that stands for an index of a live batch whose tokens are stored. -/
def StandsFor (r : FutureRun Int) (id : Int) (k index : Nat) : Prop :=
  r.Live k ∧ (r.batches k).stored ≠ none ∧ index ∈ (r.batches k).future.indices ∧
    id = -(index : Int)

/-- The indices and the answers of a state of the run. -/
structure Answers (maxRunningRequests : Nat) (r : FutureRun Int) : Prop where
  /-- A batch has as many indices as requests, all inside the buffer. -/
  given {k : Nat} : k < r.count → (r.batches k).future.indices.length = (r.batches k).size ∧
    ∀ index ∈ (r.batches k).future.indices, 1 ≤ index ∧ index ≤ r.map.futureBufferLen - 1
  /-- The tokens of a live batch can be stored. -/
  stores {k : Nat} {tokens : List Int} : r.Live k → tokens.length = (r.batches k).size →
    ∃ m, r.map.storeToMap (r.batches k).future tokens = some m
  /-- An id that is not negative stays, and an id that stands for an index of a live batch
  becomes the token that the batch stored for it. The worker asserts a positive number of
  running requests. -/
  resolves {inputIds : List Int} : 0 < maxRunningRequests →
    (∀ id ∈ inputIds, id < 0 → ∃ k index, r.StandsFor id k index) →
    ∃ resolved, r.map.resolveFutureTokenIds inputIds = some resolved ∧
      List.Forall₂ (fun id token => (0 ≤ id → token = id) ∧
        ∀ (k i index : Nat) (tokens : List Int), r.Live k →
          (r.batches k).stored = some tokens →
          (r.batches k).future.indices[i]? = some index → id = -(index : Int) →
          tokens[i]? = some token) inputIds resolved
  /-- Speculative decoding reads the rows of a live batch as they were stored. -/
  draftInput {k : Nat} {values : List Int} : r.Live k → (r.batches k).stored = some values →
    r.map.resolveDraftInput (r.batches k).future = some values

variable {maxRunningRequests contextLen : Nat} {chunkedPrefillSize : Option Nat}
variable {r : FutureRun Int}

theorem Inv.lane (h : Inv maxRunningRequests r) (hpos : 0 < maxRunningRequests) {id : Int}
    (hid : id < 0 → ∃ k index, r.StandsFor id k index) :
    ∃ token, (r.map.read (max (-id) 0).toNat).map (fun value => if id < 0 then value else id) =
        some token ∧
      ((0 ≤ id → token = id) ∧ ∀ (k i index : Nat) (tokens : List Int), r.Live k →
        (r.batches k).stored = some tokens →
        (r.batches k).future.indices[i]? = some index → id = -(index : Int) →
        tokens[i]? = some token) := by
  by_cases hneg : id < 0
  · obtain ⟨k, index, hlive, hstored, hmem, rfl⟩ := hid hneg
    obtain ⟨tokens, hstored⟩ := Option.ne_none_iff_exists'.mp hstored
    obtain ⟨i, hindex⟩ := List.mem_iff_getElem?.mp hmem
    obtain ⟨hi, hread⟩ := h.read_eq hlive hstored hindex
    have hat : (max (- -(index : Int)) 0).toNat = index := by omega
    refine ⟨tokens[i], ?_, fun hle => absurd hle (by omega), ?_⟩
    · rw [hat, hread, Option.map_some, if_pos hneg]
    · intro k' i' index' tokens' hlive' hstored' hindex' heq
      obtain ⟨hi', hread'⟩ := h.read_eq hlive' hstored' hindex'
      have hsame : index' = index := by omega
      rw [hsame, hread] at hread'
      rw [List.getElem?_eq_getElem hi', Option.some.inj hread']
  · have hlen : 0 < r.map.futureBufferLen := by
      have hbuf := h.bufferLen
      omega
    have hat : (max (-id) 0).toNat = 0 := by omega
    refine ⟨id, ?_, fun _ => rfl, ?_⟩
    · rw [hat, FutureMap.read, if_pos hlen, Option.map_some, if_neg hneg]
    · intro k i index tokens hlive _ hindex heq
      have hbounds := h.index_bounds hlive.1 (List.mem_of_getElem? hindex)
      omega

/-- In every run inside the window of live batches, a batch keeps its slots of the ring until its
futures are resolved, and each resolves to the token that was stored for it. -/
theorem Reachable.futures_resolve
    (h : Reachable maxRunningRequests chunkedPrefillSize contextLen r) :
    Answers maxRunningRequests r where
  given hk := by
    refine ⟨?_, fun index hindex => ?_⟩
    · rw [h.inv.future hk, List.length_range']
    · have hbounds := h.inv.index_bounds hk hindex
      omega
  stores hlive hlen := ⟨_, h.inv.storeToMap_eq hlive.1 hlen⟩
  resolves hpos hids := exists_mapM fun id hid => h.inv.lane hpos (hids id hid)
  draftInput hlive hstored := h.inv.resolveDraftInput_eq hlive hstored

/-- The fourth batch runs past the limit of 6, and the fifth one starts over at slot 2. -/
theorem futures_resolve_past_limit : ∃ r : FutureRun Int, Answers 2 r ∧
    r.map.resolveFutureTokenIds [-7, 3, -2, -6] = some [9, 3, 4, 7] := by
  have hstart : Reachable 2 none 8 (start (FutureMap.init 2 none 8 fun _ => (0 : Int))) :=
    .start _
  have hfirst := hstart.step (.alloc (show 2 ≤ 2 by decide) rfl)
  have hsecond := hfirst.step (.alloc (show 2 ≤ 2 by decide) rfl)
  have hthird := hsecond.step (.alloc (show 1 ≤ 2 by decide) rfl)
  have hfourth := hthird.step (.alloc (show 2 ≤ 2 by decide) rfl)
  have hstored := hfourth.step (.store (show Live _ 3 from ⟨by decide, by decide⟩)
    (show [7, 9].length = _ from rfl) rfl)
  have hfifth := hstored.step (.alloc (show 1 ≤ 2 by decide) rfl)
  have hlast := hfifth.step (.store (show Live _ 4 from ⟨by decide, by decide⟩)
    (show [4].length = _ from rfl) rfl)
  exact ⟨_, hlast.futures_resolve, by decide⟩

end FutureRun

end SpecDecode.Overlap
