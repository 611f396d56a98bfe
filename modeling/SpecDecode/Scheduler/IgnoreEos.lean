import SpecDecode.Scheduler.PrefillAdder
import Mathlib.Algebra.Order.BigOperators.Group.List
import Mathlib.Data.List.Induction
import Mathlib.Data.List.Sort

/-!
# Admission of requests that ignore the end of sequence

Such a request decodes exactly its remaining tokens, so `add_one_req_ignore_eos` simulates the
batch until its end. The entries of the simulation are kept sorted by the tokens that are left;
the insertion into the kept list stops one place early behind the last entry.
-/

namespace SpecDecode.Admission

/-- The tokens that are left to decode and the tokens that are released at the end. -/
abbrev Reservation := ℚ × Int

/-- The free tokens after every request has decoded `t` tokens or all it had left. -/
def freeAt (free : ℚ) (entries : List Reservation) (t : ℚ) : ℚ :=
  free + ((entries.filter fun e => e.1 < t).map fun e => (e.2 : ℚ)).sum -
    t * (entries.filter fun e => t ≤ e.1).length

/-- The loop over the entries, with the tokens freed by the ones before. -/
def simulates (free : ℚ) (tokensFreed : Int) : List Reservation → Bool
  | [] => true
  | (tokensLeft, tokensOccupied) :: rest =>
      let bs : Nat := rest.length + 1
      let minFreeTokens := free + tokensFreed - tokensLeft * bs
      if minFreeTokens ≤ ignoreEosReserveTokens * bs then false
      else simulates free (tokensFreed + tokensOccupied) rest

variable {free : ℚ} {entries : List Reservation}

theorem freeAt_perm {t : ℚ} {l l' : List Reservation} (h : l.Perm l') :
    freeAt free l t = freeAt free l' t := by
  have hfreed := ((h.filter fun e => e.1 < t).map fun e => (e.2 : ℚ)).sum_eq
  have hlength := (h.filter fun e => t ≤ e.1).length_eq
  rw [freeAt, freeAt, hfreed, hlength]

theorem freeAt_cons_of_lt {t : ℚ} {e : Reservation} (h : e.1 < t) (entries : List Reservation) :
    freeAt free (e :: entries) t = freeAt (free + e.2) entries t := by
  have hnot : ¬ t ≤ e.1 := not_le.mpr h
  simp only [freeAt, List.filter_cons, h, hnot, decide_true, decide_false, if_true,
    Bool.false_eq_true, if_false, List.map_cons, List.sum_cons]
  ring

private theorem sum_filter_nonneg (h : ∀ e ∈ entries, 0 ≤ e.2)
    (p : Reservation → Bool) : 0 ≤ ((entries.filter p).map fun e => (e.2 : ℚ)).sum := by
  apply List.sum_nonneg
  intro x hx
  obtain ⟨e, he, rfl⟩ := List.mem_map.mp hx
  exact Int.cast_nonneg (h e (List.mem_filter.mp he).1)

/-- A simulation that passes never runs out of tokens, in whatever order it looks at the
entries: the first one that outlasts `t` bounds what is decoded by then. -/
theorem freeAt_nonneg {t : ℚ} {tokensFreed : Int}
    (hentries : ∀ e ∈ entries, 0 ≤ e.2) (hfree : 0 ≤ free + tokensFreed) (ht : 0 ≤ t)
    (h : simulates free tokensFreed entries = true) :
    0 ≤ freeAt (free + tokensFreed) entries t := by
  induction entries generalizing tokensFreed with
  | nil => simpa [freeAt] using hfree
  | cons e entries ih =>
      rw [simulates] at h
      split at h
      · exact absurd h Bool.false_ne_true
      · next hmin =>
          have hrest : ∀ e' ∈ entries, 0 ≤ e'.2 := fun e' he' =>
            hentries e' (List.mem_cons_of_mem e he')
          by_cases hle : t ≤ e.1
          · have hlength : (((e :: entries).filter fun e' => t ≤ e'.1).length : ℚ) ≤
                (entries.length + 1 : Nat) := Nat.cast_le.mpr (List.length_filter_le _ _)
            have hused : t * ((e :: entries).filter fun e' => t ≤ e'.1).length ≤
                e.1 * (entries.length + 1 : Nat) :=
              mul_le_mul hle hlength (Nat.cast_nonneg _) (le_trans ht hle)
            have hfreed := sum_filter_nonneg hentries fun e' => e'.1 < t
            have hreserve : (0 : ℚ) ≤ ignoreEosReserveTokens * (entries.length + 1 : Nat) :=
              mul_nonneg (by decide) (Nat.cast_nonneg _)
            unfold freeAt
            linarith
          · have hlt := not_le.mp hle
            have hnext : 0 ≤ free + (tokensFreed + e.2 : Int) := by
              have hoccupied : (0 : ℚ) ≤ e.2 := Int.cast_nonneg (hentries e List.mem_cons_self)
              rw [Int.cast_add]
              linarith
            have hih := ih hrest hnext h
            rw [freeAt_cons_of_lt hlt, add_assoc, ← Int.cast_add]
            exact hih

/-- Requests with nothing left to decode release what they hold at once. -/
theorem freeAt_filter_le (h : ∀ e ∈ entries, 0 ≤ e.2) {t : ℚ}
    (ht : 0 ≤ t) : freeAt free (entries.filter fun e => 0 < e.1) t ≤ freeAt free entries t := by
  induction entries generalizing free with
  | nil => exact le_refl _
  | cons e entries ih =>
      have hrest : ∀ e' ∈ entries, 0 ≤ e'.2 := fun e' he' => h e' (List.mem_cons_of_mem e he')
      have hkeep : 0 < e.1 → (e :: entries).filter (fun e => 0 < e.1) =
          e :: entries.filter fun e => 0 < e.1 := fun hpos => by
        rw [List.filter_cons, if_pos (decide_eq_true hpos)]
      have hdrop : ¬ 0 < e.1 → (e :: entries).filter (fun e => 0 < e.1) =
          entries.filter fun e => 0 < e.1 := fun hpos => by
        rw [List.filter_cons, if_neg (by simpa using hpos)]
      by_cases hlt : e.1 < t
      · rw [freeAt_cons_of_lt hlt]
        by_cases hpos : 0 < e.1
        · rw [hkeep hpos, freeAt_cons_of_lt hlt]
          exact ih hrest
        · have hoccupied : (0 : ℚ) ≤ e.2 := Int.cast_nonneg (h e List.mem_cons_self)
          rw [hdrop hpos]
          refine le_trans (ih hrest) ?_
          unfold freeAt
          linarith
      · have hskip : ∀ l : List Reservation, freeAt free (e :: l) t = freeAt free l t - t := by
          intro l
          have hle : t ≤ e.1 := not_lt.mp hlt
          simp only [freeAt, List.filter_cons, hlt, hle, decide_true, decide_false, if_true,
            Bool.false_eq_true, if_false, List.length_cons]
          push_cast
          ring
        rw [hskip]
        by_cases hpos : 0 < e.1
        · rw [hkeep hpos, hskip]
          exact sub_le_sub_right (ih hrest) t
        · have hle : t ≤ 0 := le_trans (not_lt.mp hlt) (not_lt.mp hpos)
          obtain rfl := le_antisymm hle ht
          rw [hdrop hpos, sub_zero]
          exact ih hrest

def Sorted (entries : List Reservation) : Prop := entries.Pairwise fun x y => x.1 ≤ y.1

/-- The index at which the scan ends; without a `break` that is the last index it visited. -/
def insertPos (tokensLeft : ℚ) (i : Nat) : List Reservation → Nat
  | [] => i - 1
  | e :: rest => if tokensLeft ≤ e.1 then i else insertPos tokensLeft (i + 1) rest

def insertSorted (e : Reservation) (entries : List Reservation) : List Reservation :=
  entries.insertIdx (insertPos e.1 0 entries) e

theorem insertPos_succ {tokensLeft : ℚ} (h : entries ≠ []) (i : Nat) :
    insertPos tokensLeft (i + 1) entries = insertPos tokensLeft i entries + 1 := by
  induction entries generalizing i with
  | nil => exact absurd rfl h
  | cons e entries ih =>
      rw [insertPos, insertPos]
      split
      · rfl
      · cases entries with
        | nil => rfl
        | cons e' entries => exact ih (List.cons_ne_nil e' entries) (i + 1)

theorem insertSorted_cons_of_le {e e' : Reservation} (h : e.1 ≤ e'.1) (entries : List Reservation) :
    insertSorted e (e' :: entries) = e :: e' :: entries := by
  rw [insertSorted, insertPos, if_pos h, List.insertIdx_zero]

@[simp] theorem insertSorted_singleton (e e' : Reservation) : insertSorted e [e'] = [e, e'] := by
  rw [insertSorted, insertPos]
  split
  · rfl
  · rfl

theorem insertSorted_cons_of_lt {e e' : Reservation} (h : e'.1 < e.1)
    (hne : entries ≠ []) : insertSorted e (e' :: entries) = e' :: insertSorted e entries := by
  rw [insertSorted, insertPos, if_neg (not_le.mpr h), insertPos_succ hne, List.insertIdx_succ_cons]
  rfl

theorem insertSorted_perm (e : Reservation) (entries : List Reservation) :
    (insertSorted e entries).Perm (e :: entries) := by
  induction entries with
  | nil => exact .refl _
  | cons e' entries ih =>
      by_cases hle : e.1 ≤ e'.1
      · rw [insertSorted_cons_of_le hle]
      · by_cases hnil : entries = []
        · rw [hnil, insertSorted_singleton]
        · rw [insertSorted_cons_of_lt (not_le.mp hle) hnil]
          exact (ih.cons e').trans (.swap e e' entries)

/-- The insertion keeps a sorted list sorted exactly when the new entry is not above the last. -/
theorem sorted_insertSorted_iff {e : Reservation} (h : Sorted entries) :
    Sorted (insertSorted e entries) ↔ ∀ last ∈ entries.getLast?, e.1 ≤ last.1 := by
  induction entries with
  | nil => simp [insertSorted, insertPos, Sorted]
  | cons e' entries ih =>
      obtain ⟨hhead, htail⟩ := List.pairwise_cons.mp h
      by_cases hle : e.1 ≤ e'.1
      · rw [insertSorted_cons_of_le hle]
        refine iff_of_true (List.pairwise_cons.mpr ⟨fun x hx => ?_, h⟩) fun last hlast => ?_
        · obtain rfl | hx := List.mem_cons.mp hx
          · exact hle
          · exact le_trans hle (hhead x hx)
        · obtain rfl | hlast := List.mem_cons.mp (List.mem_of_getLast? hlast)
          · exact hle
          · exact le_trans hle (hhead last hlast)
      · by_cases hnil : entries = []
        · subst hnil
          rw [insertSorted_singleton]
          refine iff_of_false (fun hsorted => hle ?_) fun hlast => hle (hlast e' rfl)
          exact (List.pairwise_cons.mp hsorted).1 e' (List.mem_singleton_self e')
        · obtain ⟨e₂, rest, rfl⟩ := List.exists_cons_of_ne_nil hnil
          rw [insertSorted_cons_of_lt (not_le.mp hle) hnil, List.getLast?_cons_cons, ← ih htail]
          refine ⟨fun hsorted => (List.pairwise_cons.mp hsorted).2, fun hsorted => ?_⟩
          refine List.pairwise_cons.mpr ⟨fun x hx => ?_, hsorted⟩
          obtain rfl | hx := List.mem_cons.mp ((insertSorted_perm e _).mem_iff.mp hx)
          · exact le_of_lt (not_le.mp hle)
          · exact hhead x hx

namespace PrefillAdder

def reservation (newTokenRatio : ℚ) (r : Req) : Reservation :=
  (r.maxNewTokens * (if r.ignoreEos then 1 else newTokenRatio) - r.outputIds.length,
    r.originInputIds.length + r.outputIds.length)

def addReqState (newTokenRatio : ℚ) (insertSort : Bool) (states : List Reservation) (r : Req) :
    List Reservation :=
  let state := reservation newTokenRatio r
  if state.1 ≤ 0 then states
  else if insertSort then insertSorted state states
  else states ++ [state]

def nextReqStates (a : PrefillAdder) (store : Store) (id : Nat) : List Reservation :=
  match a.reqStates with
  | none =>
      let states := (id :: a.runningBatch ++ a.canRunList).foldl
        (fun states r => addReqState a.newTokenRatio false states (store r)) []
      states.insertionSort fun x y => x.1 ≤ y.1
  | some states => addReqState a.newTokenRatio true states (store id)

def freeAfterPrefill (a : PrefillAdder) (sizes : Sizes) (r : Req) : Int :=
  a.curRemTokens sizes - a.ceilPagedTokens r.extendInputLen

structure Added where
  result : AddReqResult
  adder : PrefillAdder
  store : Store

def addDllmReq (a : PrefillAdder) (sizes : Sizes) (store : Store) (d : Dllm) (id : Nat)
    (prefixLen : Int) : PrefillAdder × Store :=
  let truncLen := (min d.remDllmTokens d.dllmBlockSize).fdiv a.pageSize * a.pageSize
  let req := store id
  (({ a with canRunList := a.canRunList ++ [id] } : PrefillAdder).updatePrefillBudget sizes
      truncLen 0,
    store.set id { req with
      extendInputLen := truncLen
      fillIds := sliceTo req.fillIds (prefixLen + truncLen) })

def admitIgnoreEos (a : PrefillAdder) (sizes : Sizes) (store : Store) (id : Nat) : Added :=
  let req := store id
  match a.dllm with
  | some d =>
      if d.remDllmTokens ≤ 0 then ⟨.other, a, store⟩
      else
        let added := a.addDllmReq sizes store d id 0
        ⟨added.1.budgetState sizes, added.1, added.2⟩
  | none =>
      let whole :=
          ({ a with canRunList := a.canRunList ++ [id] } : PrefillAdder).updatePrefillBudget
        sizes req.extendInputLen (min req.maxNewTokens clipMaxNewTokens)
      match a.remChunkTokens with
      | none => ⟨whole.budgetState sizes, whole, store⟩
      | some remChunkTokens =>
          if req.extendInputLen ≤ remChunkTokens then ⟨whole.budgetState sizes, whole, store⟩
          else if remChunkTokens ≤ 0 then ⟨.other, a, store⟩
          else
            let chunked := ({ a with
              canRunList := a.canRunList ++ [id]
              newChunkedReq := some id } : PrefillAdder).updatePrefillBudget sizes remChunkTokens 0
            ⟨chunked.budgetState sizes, chunked, store.set id { req with
              extendInputLen := remChunkTokens
              fillIds := sliceTo req.fillIds remChunkTokens }⟩

/-- `add_one_req_ignore_eos`. `allowPrefill` is the answer of the prefill delayer, if there is
one. -/
def addOneReqIgnoreEos (a : PrefillAdder) (sizes : Sizes) (store : Store) (id : Nat)
    (allowPrefill : Bool) : Added :=
  let req := store id
  let pagedInput := a.ceilPagedTokens req.extendInputLen
  if min (a.curRemTokens sizes : ℚ) (a.remTotalTokens sizes) < pagedInput then ⟨.noToken, a, store⟩
  else if a.isHybridSwa ∧ a.remSwaTokens sizes < a.swaBudgetForReq sizes req.extendInputLen then
    ⟨.noToken, a, store⟩
  else
    let free := a.freeAfterPrefill sizes req
    let states := a.nextReqStates store id
    let a := { a with reqStates := some states }
    if !a.isHybridSwa && !simulates free 0 states then ⟨.noToken, a, store⟩
    else if !allowPrefill then ⟨.other, a, store⟩
    else a.admitIgnoreEos sizes store id

variable {a : PrefillAdder} {sizes : Sizes} {store : Store} {id : Nat}

def reservations (newTokenRatio : ℚ) (store : Store) (reqs : List Nat) : List Reservation :=
  (reqs.map fun r => reservation newTokenRatio (store r)).filter fun e => 0 < e.1

/-- The list holds the running and the admitted requests, and no others. -/
def Counts (a : PrefillAdder) (store : Store) : Prop :=
  ∀ states, a.reqStates = some states →
    states.Perm (reservations a.newTokenRatio store (a.runningBatch ++ a.canRunList))

private theorem foldl_addReqState (ratio : ℚ) (reqs : List Nat) (states : List Reservation) :
    reqs.foldl (fun states r => addReqState ratio false states (store r)) states =
      states ++ reservations ratio store reqs := by
  induction reqs generalizing states with
  | nil => simp [reservations]
  | cons r reqs ih =>
      rw [List.foldl_cons, ih, addReqState]
      by_cases hle : (reservation ratio (store r)).1 ≤ 0
      · have hnot : ¬ 0 < (reservation ratio (store r)).1 := not_lt.mpr hle
        simp [hle, hnot, reservations]
      · have hpos : 0 < (reservation ratio (store r)).1 := not_le.mp hle
        simp [hle, hpos, reservations]

theorem Counts.nextReqStates (h : a.Counts store) (id : Nat) : (a.nextReqStates store id).Perm
    (reservations a.newTokenRatio store (id :: a.runningBatch ++ a.canRunList)) := by
  unfold PrefillAdder.nextReqStates
  cases hstates : a.reqStates with
  | none =>
      refine (List.perm_insertionSort _ _).trans ?_
      rw [foldl_addReqState, List.nil_append]
  | some states =>
      have hperm := h states hstates
      simp only [addReqState]
      split
      · next hle =>
          have hnot : ¬ 0 < (reservation a.newTokenRatio (store id)).1 := not_lt.mpr hle
          refine hperm.trans (.of_eq ?_)
          simp [reservations, hnot]
      · next hpos =>
          refine (insertSorted_perm _ _).trans ((hperm.cons _).trans (.of_eq ?_))
          simp [reservations, not_le.mp hpos]

/-- Where the insertion keeps the order: the request has nothing left to decode, the list is not
built yet or empty, or its last entry has at least as much left. -/
def InsertsInside (a : PrefillAdder) (store : Store) (id : Nat) : Prop :=
  ∀ states, a.reqStates = some states → 0 < (reservation a.newTokenRatio (store id)).1 →
    ∀ last ∈ states.getLast?, (reservation a.newTokenRatio (store id)).1 ≤ last.1

/-- The list is sorted, once it is built. -/
def SortedStates (a : PrefillAdder) : Prop := ∀ states, a.reqStates = some states → Sorted states

theorem sorted_nextReqStates_iff (h : a.SortedStates) :
    Sorted (a.nextReqStates store id) ↔ a.InsertsInside store id := by
  unfold nextReqStates InsertsInside
  cases hstates : a.reqStates with
  | none =>
      refine iff_of_true (List.pairwise_insertionSort _ _) fun states hsome => ?_
      cases hsome
  | some states =>
      have hsorted := h states hstates
      simp only [addReqState, if_true, Option.some.injEq, forall_eq']
      split
      · next hle => exact iff_of_true hsorted fun hpos => absurd hle (not_le.mpr hpos)
      · next hpos =>
          rw [sorted_insertSorted_iff hsorted]
          exact ⟨fun hlast _ => hlast, fun hlast => hlast (not_le.mp hpos)⟩

/-- Setting how much of a request is prefilled leaves its entry as it is. -/
theorem reservation_set (ratio : ℚ) (store : Store) (id r : Nat) (n : Int) (fill : List Int) :
    reservation ratio (store.set id { store id with extendInputLen := n, fillIds := fill } r) =
      reservation ratio (store r) := by
  by_cases hr : r = id
  · subst hr
    rw [Store.set, Function.update_self]
    rfl
  · rw [Store.set, Function.update_of_ne hr]

/-- What a call leaves of the adder: everything that the entries depend on, and the requests
that were admitted, with the new one behind them if it was. -/
structure Adds (a : PrefillAdder) (store : Store) (id : Nat) (out : Added) (admitted : Prop) :
    Prop where
  runningBatch : out.adder.runningBatch = a.runningBatch
  newTokenRatio : out.adder.newTokenRatio = a.newTokenRatio
  isHybridSwa : out.adder.isHybridSwa = a.isHybridSwa
  reservation (r : Nat) :
    reservation a.newTokenRatio (out.store r) = reservation a.newTokenRatio (store r)
  canRunList : (¬ admitted ∧ out.adder.canRunList = a.canRunList) ∨
    (admitted ∧ out.adder.canRunList = a.canRunList ++ [id])

theorem admitIgnoreEos_adds (a : PrefillAdder) (sizes : Sizes) (store : Store) (id : Nat) :
    (a.admitIgnoreEos sizes store id).adder.reqStates = a.reqStates ∧
      ∃ admitted, a.Adds store id (a.admitIgnoreEos sizes store id) admitted := by
  unfold admitIgnoreEos
  simp only
  split
  · split
    · exact ⟨rfl, False, rfl, rfl, rfl, fun _ => rfl, .inl ⟨not_false, rfl⟩⟩
    · exact ⟨rfl, True, rfl, rfl, rfl, fun r => reservation_set _ store id r _ _,
        .inr ⟨trivial, rfl⟩⟩
  · split
    · exact ⟨rfl, True, rfl, rfl, rfl, fun _ => rfl, .inr ⟨trivial, rfl⟩⟩
    · split_ifs
      · exact ⟨rfl, True, rfl, rfl, rfl, fun _ => rfl, .inr ⟨trivial, rfl⟩⟩
      · exact ⟨rfl, False, rfl, rfl, rfl, fun _ => rfl, .inl ⟨not_false, rfl⟩⟩
      · exact ⟨rfl, True, rfl, rfl, rfl, fun r => reservation_set _ store id r _ _,
          .inr ⟨trivial, rfl⟩⟩

/-- A call puts the entry of its request in the list or stops before, and it admits the request
only after the checks. -/
theorem addOneReqIgnoreEos_cases (a : PrefillAdder) (sizes : Sizes) (store : Store) (id : Nat)
    (allowPrefill : Bool) : let out := a.addOneReqIgnoreEos sizes store id allowPrefill
    (out = ⟨.noToken, a, store⟩) ∨
      (out.adder.reqStates = some (a.nextReqStates store id) ∧
        ∃ admitted, a.Adds store id out admitted ∧
          (admitted → 0 ≤ a.freeAfterPrefill sizes (store id) ∧
            (a.isHybridSwa = false →
              simulates (a.freeAfterPrefill sizes (store id)) 0
                (a.nextReqStates store id) = true))) := by
  unfold addOneReqIgnoreEos
  simp only
  split
  · exact .inl rfl
  · next hpaged =>
      have hfree : 0 ≤ a.freeAfterPrefill sizes (store id) := by
        have hmin := le_trans (not_lt.mp hpaged) (min_le_left _ _)
        exact sub_nonneg.mpr (Int.cast_le.mp hmin)
      split
      · exact .inl rfl
      · split
        · exact .inr ⟨rfl, False, ⟨rfl, rfl, rfl, fun _ => rfl, .inl ⟨not_false, rfl⟩⟩, False.elim⟩
        · next hsim =>
            split
            · exact .inr ⟨rfl, False, ⟨rfl, rfl, rfl, fun _ => rfl, .inl ⟨not_false, rfl⟩⟩,
                False.elim⟩
            · obtain ⟨hstates, admitted, hadds⟩ := admitIgnoreEos_adds
                { a with reqStates := some (a.nextReqStates store id) } sizes store id
              refine .inr ⟨hstates, admitted, ⟨hadds.runningBatch, hadds.newTokenRatio,
                hadds.isHybridSwa, hadds.reservation, hadds.canRunList⟩, fun _ =>
                  ⟨hfree, fun hswa => ?_⟩⟩
              simpa [hswa] using hsim

/-- An admission is safe: with every running and admitted request decoding what it has left, the
free tokens never drop below zero. -/
def AdmitsSafely (a : PrefillAdder) (sizes : Sizes) (store : Store) (id : Nat)
    (allowPrefill : Bool) : Prop :=
  (a.addOneReqIgnoreEos sizes store id allowPrefill).adder.canRunList ≠ a.canRunList →
    ∀ t, 0 ≤ t → 0 ≤ freeAt (a.freeAfterPrefill sizes (store id))
      ((id :: a.runningBatch ++ a.canRunList).map fun r => reservation a.newTokenRatio (store r)) t

theorem Counts.admitsSafely (h : a.Counts store) (hswa : a.isHybridSwa = false)
    (allowPrefill : Bool) : a.AdmitsSafely sizes store id allowPrefill := by
  intro hadmitted t ht
  obtain heq | ⟨-, admitted, hadds, hchecks⟩ :=
    addOneReqIgnoreEos_cases a sizes store id allowPrefill
  · rw [heq] at hadmitted
    exact absurd rfl hadmitted
  · obtain ⟨-, hsame⟩ | ⟨hyes, -⟩ := hadds.canRunList
    · exact absurd hsame hadmitted
    · obtain ⟨hfree, hsim⟩ := hchecks hyes
      have hoccupied : ∀ e ∈ (id :: a.runningBatch ++ a.canRunList).map
          (fun r => reservation a.newTokenRatio (store r)), 0 ≤ e.2 := by
        intro e he
        obtain ⟨r, -, rfl⟩ := List.mem_map.mp he
        exact Int.add_nonneg (Int.natCast_nonneg _) (Int.natCast_nonneg _)
      have hperm := h.nextReqStates id
      have hstates : ∀ e ∈ a.nextReqStates store id, 0 ≤ e.2 := fun e he =>
        hoccupied e (List.mem_filter.mp (hperm.mem_iff.mp he)).1
      have hzero : ((0 : Int) : ℚ) = 0 := Int.cast_zero
      have hfree' : (0 : ℚ) ≤ (a.freeAfterPrefill sizes (store id) : ℚ) + ((0 : Int) : ℚ) := by
        rw [hzero, add_zero]
        exact Int.cast_nonneg hfree
      have hfreeAt := freeAt_nonneg hstates hfree' ht (hsim hswa)
      rw [hzero, add_zero, freeAt_perm hperm] at hfreeAt
      exact le_trans hfreeAt (freeAt_filter_le hoccupied ht)

/-- The list goes on holding the running and admitted requests while no call leaves the entry of
a request that it turns down. -/
theorem Counts.call (h : a.Counts store) {allowPrefill : Bool}
    (hcall : (a.addOneReqIgnoreEos sizes store id allowPrefill).adder.canRunList ≠ a.canRunList ∨
      (a.addOneReqIgnoreEos sizes store id allowPrefill).adder.reqStates = a.reqStates) :
    (a.addOneReqIgnoreEos sizes store id allowPrefill).adder.Counts
      (a.addOneReqIgnoreEos sizes store id allowPrefill).store := by
  obtain heq | ⟨hnext, admitted, hadds, -⟩ := addOneReqIgnoreEos_cases a sizes store id allowPrefill
  · rw [heq]
    exact h
  · intro states hstates
    have hsame : ∀ reqs, reservations a.newTokenRatio
        (a.addOneReqIgnoreEos sizes store id allowPrefill).store reqs =
          reservations a.newTokenRatio store reqs := fun reqs =>
      congrArg (List.filter _) (List.map_congr_left fun r _ => hadds.reservation r)
    rw [hadds.runningBatch, hadds.newTokenRatio, hsame]
    obtain ⟨-, hcan⟩ | ⟨-, hcan⟩ := hadds.canRunList
    · obtain hne | hreq := hcall
      · exact absurd hcan hne
      · rw [hcan]
        exact h states (hreq ▸ hstates)
    · rw [hcan]
      rw [hnext, Option.some.injEq] at hstates
      subst hstates
      refine (h.nextReqStates id).trans ((List.Perm.map _ ?_).filter _)
      rw [← List.append_assoc]
      exact (List.perm_append_singleton id _).symm

theorem SortedStates.call (h : a.SortedStates) (hinside : a.InsertsInside store id)
    (allowPrefill : Bool) :
    (a.addOneReqIgnoreEos sizes store id allowPrefill).adder.SortedStates := by
  obtain heq | ⟨hnext, -⟩ := addOneReqIgnoreEos_cases a sizes store id allowPrefill
  · rw [heq]
    exact h
  · intro states hstates
    rw [hnext, Option.some.injEq] at hstates
    exact hstates ▸ (sorted_nextReqStates_iff h).mpr hinside

/-- A call with what it reads. -/
structure IgnoreEosCall where
  id : Nat
  sizes : Sizes
  allowPrefill : Bool

def IgnoreEosCall.apply (s : PrefillAdder × Store) (c : IgnoreEosCall) : PrefillAdder × Store :=
  let out := s.1.addOneReqIgnoreEos c.sizes s.2 c.id c.allowPrefill
  (out.adder, out.store)

def afterCalls (s : PrefillAdder × Store) (calls : List IgnoreEosCall) : PrefillAdder × Store :=
  calls.foldl IgnoreEosCall.apply s

/-- What a call finds: one memory pool, a list of the running and admitted requests, and an entry
that belongs inside the list. -/
structure Meets (s : PrefillAdder × Store) (c : IgnoreEosCall) : Prop where
  isHybridSwa : s.1.isHybridSwa = false
  counts : s.1.Counts s.2
  insertsInside : s.1.InsertsInside s.2 c.id

/-- In a run from a fresh list whose calls all meet this, the list is sorted at every point and
every admission is safe. -/
theorem ignoreEos_run {s : PrefillAdder × Store} (hnew : s.1.reqStates = none)
    {calls : List IgnoreEosCall} (hmeets : ∀ earlier c later, calls = earlier ++ c :: later →
      Meets (afterCalls s earlier) c) :
    (∀ earlier later, calls = earlier ++ later → (afterCalls s earlier).1.SortedStates) ∧
      ∀ earlier c later, calls = earlier ++ c :: later →
        (afterCalls s earlier).1.AdmitsSafely c.sizes (afterCalls s earlier).2 c.id
          c.allowPrefill := by
  constructor
  · intro earlier
    induction earlier using List.reverseRecOn with
    | nil =>
        intro later heq states hstates
        cases hnew.symm.trans hstates
    | append_singleton earlier c ih =>
        intro later heq
        rw [List.append_assoc, List.singleton_append] at heq
        have hafter : afterCalls s (earlier ++ [c]) = c.apply (afterCalls s earlier) := by
          simp [afterCalls]
        rw [hafter]
        exact (ih _ heq).call (hmeets earlier c later heq).insertsInside c.allowPrefill
  · intro earlier c later heq
    have hmeet := hmeets earlier c later heq
    exact hmeet.counts.admitsSafely hmeet.isHybridSwa c.allowPrefill

/-- Two waiting requests of one input token that decode five and seven tokens. -/
def fiveSeven : PrefillAdder × Store :=
  let store : Store := fun id =>
    ⟨[3], [], [3], [], 1, 0, none, if id = 0 then 5 else 7, true, 0, 0, false, false⟩
  (PrefillAdder.init store 1 false [] 1 100 none 0 none 0, store)

/-- The longer one is put in front of the shorter one. -/
theorem fiveSeven_unsorted :
    ¬ (afterCalls fiveSeven [⟨0, ⟨1000, 0, 0⟩, true⟩, ⟨1, ⟨1000, 0, 0⟩, true⟩]).1.SortedStates := by
  intro h
  have hstates : (afterCalls fiveSeven
      [⟨0, ⟨1000, 0, 0⟩, true⟩, ⟨1, ⟨1000, 0, 0⟩, true⟩]).1.reqStates = some [(7, 1), (5, 1)] := by
    decide +kernel
  have hle := (List.pairwise_cons.mp (h _ hstates)).1 (5, 1) (List.mem_singleton_self _)
  exact absurd hle (by decide +kernel)

/-- The other way round the list stays sorted. -/
theorem sevenFive_sorted :
    (afterCalls fiveSeven [⟨1, ⟨1000, 0, 0⟩, true⟩, ⟨0, ⟨1000, 0, 0⟩, true⟩]).1.SortedStates := by
  have hfresh : ∀ states, fiveSeven.1.reqStates = some states → False := by
    intro states hstates
    cases hstates
  refine (ignoreEos_run (s := fiveSeven) rfl ?_).1 _ [] (List.append_nil _).symm
  intro earlier c later heq
  cases earlier with
  | nil =>
      exact ⟨rfl, fun states hstates => (hfresh states hstates).elim,
        fun states hstates => (hfresh states hstates).elim⟩
  | cons first earlier =>
      obtain ⟨rfl, hrest⟩ := List.cons.inj heq
      cases earlier with
      | nil =>
          obtain ⟨rfl, -⟩ := List.cons.inj hrest
          refine ⟨by decide +kernel,
            Counts.call (fun states hstates => (hfresh states hstates).elim)
            (.inl (by decide +kernel)), fun states hstates _ last hlast => ?_⟩
          have hseven : (afterCalls fiveSeven [⟨1, ⟨1000, 0, 0⟩, true⟩]).1.reqStates =
              some [(7, 1)] := by
            decide +kernel
          obtain rfl := Option.some.inj (hseven.symm.trans hstates)
          obtain rfl := Option.some.inj hlast
          decide +kernel
      | cons second earlier =>
          obtain ⟨-, hnil⟩ := List.cons.inj hrest
          cases earlier <;> cases hnil

end PrefillAdder

end SpecDecode.Admission
