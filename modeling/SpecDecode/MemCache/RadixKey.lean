import SpecDecode.Lib.Pages

/-!
# Radix keys

A key is a list of token ids with an optional `extra_key`; the bigram view reads it as
the list of its pairs of neighbours. Either way a key is a list of units, and the tree
uses whole pages of units only.

The symbols of a key are its pages, each tagged with the `extra_key`. In terms of
symbols, slicing at page borders is `take` and `drop`, `child_key` is the first symbol
and `match` is the common prefix.
-/

namespace SpecDecode.MemCache

/-- `RadixKey`. -/
structure RadixKey where
  tokenIds : List Int
  extraKey : Option String
  isBigram : Bool
deriving DecidableEq, Repr

/-- What `RadixKey.__iter__` yields. -/
inductive KeyUnit where
  | token (t : Int)
  | pair (a b : Int)
deriving DecidableEq, Repr

/-- A key of the `children` of a node: the first page, behind the `extra_key`. -/
abbrev ChildKey := Option String × List KeyUnit

namespace RadixKey

/-- `RadixKey.__len__`. -/
def len (k : RadixKey) : Nat :=
  if k.isBigram then k.tokenIds.length - 1 else k.tokenIds.length

def neighbours : List Int → List KeyUnit
  | a :: b :: t => .pair a b :: neighbours (b :: t)
  | _ => []

/-- `RadixKey.__iter__`. -/
def units (k : RadixKey) : List KeyUnit :=
  if k.isBigram then neighbours k.tokenIds else k.tokenIds.map .token

/-- `RadixKey.__getitem__` of a slice with non-negative bounds. -/
def slice (k : RadixKey) (start stop : Nat) : RadixKey :=
  let start := min start k.len
  let stop := min stop k.len
  if k.isBigram then
    { k with tokenIds := if start < stop then (k.tokenIds.take (stop + 1)).drop start else [] }
  else { k with tokenIds := (k.tokenIds.take stop).drop start }

def pageAligned (k : RadixKey) (pageSize : Nat) : RadixKey :=
  if pageSize = 1 then k else k.slice 0 (k.len / pageSize * pageSize)

/-- `RadixKey.maybe_to_bigram_view` of a key and of the values paired with it. -/
def maybeToBigramView {σ : Type} (k : RadixKey) (isEagle : Bool) (value : List σ) :
    RadixKey × List σ :=
  if isEagle && !k.isBigram then
    let k := { k with isBigram := true }
    (k, value.take k.len)
  else (k, value)

def matchPages (t₀ t₁ : List Int) (pageSize minLen : Nat) : (fuel i : Nat) → Nat
  | 0, i => i
  | fuel + 1, i =>
      if i < minLen then
        if (t₀.drop i).take pageSize ≠ (t₁.drop i).take pageSize then i
        else matchPages t₀ t₁ pageSize minLen fuel (i + pageSize)
      else i

/-- `RadixKey.match`, of keys with the same `extra_key`. -/
def matchLen (k other : RadixKey) (pageSize : Nat) : Nat :=
  if k.isBigram then
    let matched := min (commonPrefixLen k.tokenIds other.tokenIds - 1) (min k.len other.len)
    if 1 < pageSize then matched / pageSize * pageSize else matched
  else if pageSize = 1 then commonPrefixLen k.tokenIds other.tokenIds
  else
    let minLen := min k.len other.len
    matchPages k.tokenIds other.tokenIds pageSize minLen minLen 0

def childKey (k : RadixKey) (pageSize : Nat) : ChildKey := (k.extraKey, k.units.take pageSize)

/-- The pages of a key as the tree sees them. -/
def syms (k : RadixKey) (pageSize : Nat) : List ChildKey :=
  (pages pageSize k.units).map fun page => (k.extraKey, page)

/-- The number of units is a multiple of the page size. -/
def Aligned (k : RadixKey) (pageSize : Nat) : Prop := pageSize ∣ k.len

section Units

@[simp] theorem length_neighbours (t : List Int) : (neighbours t).length = t.length - 1 := by
  induction t using neighbours.induct with
  | case1 a b t ih => simp [neighbours, ih]
  | case2 t ht =>
      match t, ht with
      | [], _ => rfl
      | [_], _ => rfl
      | a :: b :: t, ht => exact absurd rfl (ht a b t)

theorem neighbours_take (t : List Int) (n : Nat) :
    neighbours (t.take (n + 1)) = (neighbours t).take n := by
  induction n generalizing t with
  | zero =>
      rw [List.take_zero]
      exact List.length_eq_zero_iff.mp (by rw [length_neighbours, List.length_take]; omega)
  | succ n ih =>
      match t with
      | [] => simp [neighbours]
      | [_] => simp [neighbours]
      | a :: b :: t =>
          rw [List.take_succ_cons, List.take_succ_cons, neighbours, ← List.take_succ_cons, ih,
            neighbours, List.take_succ_cons]

theorem neighbours_drop (t : List Int) (n : Nat) :
    neighbours (t.drop n) = (neighbours t).drop n := by
  induction n generalizing t with
  | zero => rfl
  | succ n ih =>
      match t with
      | [] => simp [neighbours]
      | [_] => simp [neighbours]
      | a :: b :: t => rw [List.drop_succ_cons, ih, neighbours, List.drop_succ_cons]

theorem commonPrefixLen_neighbours (t t' : List Int) :
    commonPrefixLen (neighbours t) (neighbours t') = commonPrefixLen t t' - 1 := by
  match t, t' with
  | [], _ => simp [neighbours, commonPrefixLen]
  | _ :: _, [] => simp [neighbours, commonPrefixLen]
  | [a], b :: t' =>
      rw [neighbours, commonPrefixLen, commonPrefixLen]
      split <;> simp [commonPrefixLen]
      all_goals simp
  | a :: a' :: t, [b] =>
      rw [commonPrefixLen]
      split <;> simp [commonPrefixLen, neighbours]
  | a :: a' :: t, b :: b' :: t' =>
      have ih := commonPrefixLen_neighbours (a' :: t) (b' :: t')
      rw [neighbours, neighbours, commonPrefixLen, ih]
      by_cases ha : a = b
      · by_cases ha' : a' = b'
        · simp [commonPrefixLen, ha, ha']
        · simp [commonPrefixLen, ha, ha']
      · simp [commonPrefixLen, ha]

variable {k other : RadixKey} {ps : Nat}

@[simp] theorem length_units (k : RadixKey) : k.units.length = k.len := by
  unfold units len
  split <;> simp

theorem units_slice (k : RadixKey) (start stop : Nat) :
    (k.slice start stop).units = (k.units.take stop).drop start := by
  have hlen := length_units k
  have hclamp : (k.units.take stop).drop start =
      (k.units.take (min stop k.len)).drop (min start k.len) := by
    rw [← hlen]
    refine List.ext_getElem? fun i => ?_
    simp only [List.getElem?_drop, List.getElem?_take]
    by_cases hi : start + i < k.units.length
    · rw [Nat.min_eq_left (by omega : start ≤ k.units.length)]
      congr 1
      simp only [eq_iff_iff]
      omega
    · rw [List.getElem?_eq_none (by omega : k.units.length ≤ start + i)]
      by_cases hstart : start ≤ k.units.length
      · rw [Nat.min_eq_left hstart, List.getElem?_eq_none (by omega)]
        simp
      · rw [Nat.min_eq_right (by omega), List.getElem?_eq_none (by omega)]
        simp
  rw [hclamp]
  unfold slice
  cases hbigram : k.isBigram with
  | false => simp [units, hbigram, List.map_drop, List.map_take]
  | true =>
      simp only [if_true, units, hbigram]
      split
      · rw [neighbours_drop, neighbours_take]
      · rw [List.drop_eq_nil_of_le]
        · rfl
        · rw [List.length_take, length_neighbours]
          omega

@[simp] theorem extraKey_slice (k : RadixKey) (start stop : Nat) :
    (k.slice start stop).extraKey = k.extraKey := by
  unfold slice
  split <;> rfl

@[simp] theorem isBigram_slice (k : RadixKey) (start stop : Nat) :
    (k.slice start stop).isBigram = k.isBigram := by
  unfold slice
  split <;> simp_all

@[simp] theorem len_slice (k : RadixKey) (start stop : Nat) :
    (k.slice start stop).len = min stop k.len - start := by
  rw [← length_units, units_slice, List.length_drop, List.length_take, length_units]

@[simp]
theorem len_pageAligned (k : RadixKey) (ps : Nat) : (k.pageAligned ps).len = k.len / ps * ps := by
  unfold pageAligned
  split
  · next h => rw [h, Nat.div_one, Nat.mul_one]
  · rw [len_slice, Nat.sub_zero, Nat.min_eq_left (Nat.div_mul_le_self _ _)]

theorem aligned_pageAligned (k : RadixKey) (ps : Nat) : (k.pageAligned ps).Aligned ps := by
  rw [Aligned, len_pageAligned]
  exact Nat.dvd_mul_left _ _

private theorem slice_zero_slice_zero {n : Nat} (hn : n ≤ k.len) :
    (k.slice 0 n).slice 0 n = k.slice 0 n := by
  have hlen := len_slice k 0 n
  rw [Nat.min_eq_left hn, Nat.sub_zero] at hlen
  rw [slice, hlen, isBigram_slice]
  cases hbigram : k.isBigram with
  | false => simp [slice, hbigram, Nat.min_eq_left hn, List.take_take]
  | true =>
      simp only [slice, hbigram, Nat.min_eq_left hn, Nat.zero_min, Nat.min_self, if_true]
      split <;> simp [List.take_take]

@[simp] theorem pageAligned_pageAligned (k : RadixKey) (ps : Nat) :
    (k.pageAligned ps).pageAligned ps = k.pageAligned ps := by
  by_cases hps : ps = 1
  · simp only [pageAligned, if_pos hps]
  · rw [pageAligned, if_neg hps, len_pageAligned, Nat.div_mul_cancel (Nat.dvd_mul_left _ _)]
    simp only [pageAligned, if_neg hps]
    exact slice_zero_slice_zero (Nat.div_mul_le_self _ _)

end Units

section Syms

variable {k other : RadixKey} {ps : Nat}

@[simp] theorem length_syms (k : RadixKey) (ps : Nat) : (k.syms ps).length = k.len / ps := by
  simp [syms]

theorem syms_eq_nil {k : RadixKey} (h : k.len = 0) (ps : Nat) : k.syms ps = [] := by
  rw [← List.length_eq_zero_iff, length_syms, h, Nat.zero_div]

theorem syms_take (k : RadixKey) (ps n : Nat) :
    (k.slice 0 (n * ps)).syms ps = (k.syms ps).take n := by
  rw [syms, syms, units_slice, List.drop_zero, pages_take, extraKey_slice, List.map_take]

theorem syms_drop (k : RadixKey) (ps n : Nat) :
    (k.slice (n * ps) k.len).syms ps = (k.syms ps).drop n := by
  rw [syms, syms, units_slice, List.take_of_length_le (Nat.le_of_eq (length_units k)), pages_drop,
    extraKey_slice, List.map_drop]

private theorem units_take_tokens (t : List Int) (extra : Option String) (bigram : Bool) (n : Nat) :
    units ⟨t.take n, extra, bigram⟩ =
      (units ⟨t, extra, bigram⟩).take (if bigram then n - 1 else n) := by
  cases bigram with
  | false => simp [units, List.map_take]
  | true =>
      cases n with
      | zero => simp [units, neighbours]
      | succ n => simpa [units] using neighbours_take t n

theorem syms_take_tokens (t : List Int) (extra : Option String) (bigram : Bool) (ps n : Nat) :
    syms ⟨t.take n, extra, bigram⟩ ps =
      (syms ⟨t, extra, bigram⟩ ps).take ((if bigram then n - 1 else n) / ps) := by
  rw [syms, syms, units_take_tokens, pages_take_div, List.map_take]

@[simp]
theorem syms_pageAligned (k : RadixKey) (ps : Nat) : (k.pageAligned ps).syms ps = k.syms ps := by
  unfold pageAligned
  split
  · rfl
  · rw [syms_take, List.take_of_length_le (Nat.le_of_eq (length_syms k ps))]

theorem head?_syms (hps : 0 < ps) (hk : k.Aligned ps) (hpos : 0 < k.len) :
    (k.syms ps).head? = some (k.childKey ps) := by
  have hle : ps ≤ k.units.length := by
    rw [length_units]
    exact Nat.le_of_dvd hpos hk
  rw [syms, List.head?_map, pages_head? hps hle]
  rfl

theorem Aligned.len_eq (hk : k.Aligned ps) : (k.syms ps).length * ps = k.len := by
  rw [length_syms, Nat.div_mul_cancel hk]

theorem syms_eq_iff (hps : 0 < ps) (hk : k.Aligned ps) (ho : other.Aligned ps) (hpos : 0 < k.len) :
    k.syms ps = other.syms ps ↔ k.extraKey = other.extraKey ∧ k.units = other.units := by
  constructor
  · intro heq
    have hflatten : ∀ {k : RadixKey}, k.Aligned ps →
        ((k.syms ps).map Prod.snd).flatten = k.units := by
      intro k hk
      rw [syms, List.map_map]
      exact (congrArg List.flatten (List.map_id _)).trans
        (flatten_pages (by rw [length_units]; exact hk))
    refine ⟨?_, by rw [← hflatten hk, heq, hflatten ho]⟩
    have hlen := congrArg List.length heq
    have hpos' : 0 < other.len := by
      rw [← ho.len_eq, ← hlen, hk.len_eq]
      exact hpos
    have hhead := head?_syms hps hk hpos
    rw [heq, head?_syms hps ho hpos'] at hhead
    exact (Prod.mk.inj (Option.some.inj hhead)).1.symm
  · rintro ⟨hextra, hunits⟩
    rw [syms, syms, hextra, hunits]

theorem isBigram_eq_of_childKey (hps : 0 < ps) (hk : 0 < k.len) (ho : 0 < other.len)
    (heq : k.childKey ps = other.childKey ps) :
    k.isBigram = other.isBigram ∧ k.extraKey = other.extraKey := by
  obtain ⟨hextra, hunits⟩ := Prod.mk.inj heq
  refine ⟨?_, hextra⟩
  have hhead := congrArg List.head? hunits
  rw [List.head?_take, if_neg (by omega), List.head?_take, if_neg (by omega)] at hhead
  have hkind : ∀ k : RadixKey, 0 < k.len → ∃ u, k.units.head? = some u ∧
      (k.isBigram = true ↔ ∃ a b, u = .pair a b) := by
    intro k hk
    rw [← length_units] at hk
    unfold units at hk ⊢
    cases hbigram : k.isBigram with
    | false =>
        cases hids : k.tokenIds with
        | nil => simp [hbigram, hids] at hk
        | cons a t => exact ⟨.token a, by simp, by simp⟩
    | true =>
        match hids : k.tokenIds with
        | [] => simp [hbigram, hids] at hk
        | [_] => simp [hbigram, hids] at hk
        | a :: b :: t => exact ⟨.pair a b, by simp [neighbours], by simp⟩
  obtain ⟨u, hu, hu'⟩ := hkind k hk
  obtain ⟨v, hv, hv'⟩ := hkind other ho
  rw [hu, hv] at hhead
  rw [Option.some.inj hhead] at hu'
  exact Bool.eq_iff_iff.mpr (hu'.trans hv'.symm)

/-- The loop over pages stops at the last page border the lists share. -/
theorem matchPages_eq {t₀ t₁ : List Int} (hps : 0 < ps) {minLen : Nat}
    (hmin : minLen = min t₀.length t₁.length) (hdvd : ps ∣ minLen) (fuel n : Nat)
    (hn : n * ps ≤ commonPrefixLen t₀ t₁) (hfuel : minLen ≤ n * ps + fuel) :
    matchPages t₀ t₁ ps minLen fuel (n * ps) = commonPrefixLen t₀ t₁ / ps * ps := by
  have hle := commonPrefixLen_le t₀ t₁
  have hstop : ∀ n, n * ps ≤ commonPrefixLen t₀ t₁ → ¬ (n + 1) * ps ≤ commonPrefixLen t₀ t₁ →
      n * ps = commonPrefixLen t₀ t₁ / ps * ps := by
    intro n hn hlt
    have hdiv : commonPrefixLen t₀ t₁ / ps = n := by
      apply Nat.div_eq_of_lt_le hn
      omega
    rw [hdiv]
  induction fuel generalizing n with
  | zero =>
      rw [matchPages]
      apply hstop n hn
      rw [Nat.succ_mul]
      omega
  | succ fuel ih =>
      rw [matchPages]
      split
      · next hi =>
          have hpage : n * ps + ps ≤ minLen := by
            obtain ⟨m, rfl⟩ := hdvd
            rw [Nat.mul_comm ps m] at hi ⊢
            rw [← Nat.succ_mul]
            exact Nat.mul_le_mul_right ps (Nat.lt_of_mul_lt_mul_right hi)
          have hiff : (t₀.drop (n * ps)).take ps = (t₁.drop (n * ps)).take ps ↔
              (n + 1) * ps ≤ commonPrefixLen t₀ t₁ := by
            rw [le_commonPrefixLen_iff, Nat.succ_mul, List.take_add, List.take_add,
              ((le_commonPrefixLen_iff _ _ _).mp hn).2.2, List.append_cancel_left_eq]
            constructor
            · exact fun heq => ⟨by omega, by omega, heq⟩
            · exact fun h => h.2.2
          split
          · next hne => exact hstop n hn fun h => hne (hiff.mpr h)
          · next heq =>
              have hnext := hiff.mp (not_not.mp heq)
              rw [← Nat.succ_mul]
              refine ih (n + 1) hnext ?_
              rw [Nat.succ_mul]
              omega
      · next hi =>
          apply hstop n hn
          rw [Nat.succ_mul]
          omega

private theorem commonPrefixLen_syms (hps : 0 < ps) (hextra : k.extraKey = other.extraKey) :
    commonPrefixLen (k.syms ps) (other.syms ps) =
      commonPrefixLen k.units other.units / ps := by
  have hinj : Function.Injective fun page : List KeyUnit => (k.extraKey, page) := fun _ _ heq =>
    (Prod.mk.inj heq).2
  rw [syms, syms, ← hextra, commonPrefixLen_map hinj, commonPrefixLen_pages hps]

theorem matchLen_eq (hps : 0 < ps) (hk : k.Aligned ps) (ho : other.Aligned ps)
    (hkind : k.isBigram = other.isBigram) (hextra : k.extraKey = other.extraKey) :
    k.matchLen other ps = commonPrefixLen (k.syms ps) (other.syms ps) * ps := by
  rw [commonPrefixLen_syms hps hextra]
  have hle := commonPrefixLen_le k.tokenIds other.tokenIds
  have hone : ¬ 1 < ps → ps = 1 := by omega
  unfold matchLen
  cases hbigram : k.isBigram with
  | true =>
      have hunits : commonPrefixLen k.units other.units =
          commonPrefixLen k.tokenIds other.tokenIds - 1 := by
        simp [units, hbigram, ← hkind, commonPrefixLen_neighbours]
      have hmin : min (commonPrefixLen k.tokenIds other.tokenIds - 1) (min k.len other.len) =
          commonPrefixLen k.tokenIds other.tokenIds - 1 := by
        simp only [len, hbigram, ← hkind, if_true]
        omega
      simp only [if_true, hmin, hunits]
      split
      · rfl
      · next hlt => rw [hone hlt, Nat.div_one, Nat.mul_one]
  | false =>
      have hunits : commonPrefixLen k.units other.units =
          commonPrefixLen k.tokenIds other.tokenIds := by
        simp only [units, hbigram, ← hkind, Bool.false_eq_true, if_false]
        exact commonPrefixLen_map (fun _ _ heq => KeyUnit.token.inj heq) _ _
      rw [hunits]
      simp only [Bool.false_eq_true, if_false]
      split
      · next hps => rw [hps, Nat.div_one, Nat.mul_one]
      · have hlen : k.len = k.tokenIds.length := by simp [len, hbigram]
        have hlen' : other.len = other.tokenIds.length := by simp [len, ← hkind, hbigram]
        have hdvd : ps ∣ min k.len other.len := by
          rcases Nat.le_total k.len other.len with h | h
          · rw [Nat.min_eq_left h]
            exact hk
          · rw [Nat.min_eq_right h]
            exact ho
        have hloop := matchPages_eq hps (by rw [hlen, hlen']) hdvd (min k.len other.len) 0
          (by omega) (by omega)
        rwa [Nat.zero_mul] at hloop

end Syms

end RadixKey

end SpecDecode.MemCache
