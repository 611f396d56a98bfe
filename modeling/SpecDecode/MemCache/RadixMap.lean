import SpecDecode.MemCache.RadixRun

/-!
# The radix cache as a prefix map

The content of a run is a map from page-aligned prefixes to the slots of their last page.
`match_prefix` looks up the longest prefix in it, and `insert` gives slots to the
prefixes that have none.
-/

namespace SpecDecode.MemCache

open RadixTree

namespace RadixCache

variable {σ : Type} {c : CacheParams} {s s' : RadixCache σ} {live live' : Finset Nat}
variable {locks : List Nat} {A : PrefixMap ChildKey (List σ)} {key : RadixKey}

/-- A key as a word of the tree: its whole pages, tagged with the `extra_key`. -/
def word (c : CacheParams) (key : RadixKey) : List ChildKey :=
  (alignedKey c key).syms c.pageSize

@[simp] theorem alignedKey_extraKey (c : CacheParams) (key : RadixKey) :
    (alignedKey c key).extraKey = key.extraKey := by
  unfold alignedKey RadixKey.pageAligned RadixKey.maybeToBigramView
  split <;> split <;> simp

@[simp] theorem alignedKey_alignedKey (c : CacheParams) (key : RadixKey) :
    alignedKey c (alignedKey c key) = alignedKey c key := by
  have hview : (c.isEagle && !(alignedKey c key).isBigram) = false := by
    unfold alignedKey RadixKey.pageAligned RadixKey.maybeToBigramView
    cases c.isEagle <;> cases hbigram : key.isBigram <;> split <;> simp [hbigram]
  have hsame : ((alignedKey c key).maybeToBigramView c.isEagle ([] : List Nat)).1 =
      alignedKey c key := by
    rw [RadixKey.maybeToBigramView, hview]
    rfl
  rw [alignedKey, hsame, alignedKey, RadixKey.pageAligned_pageAligned]

private theorem length_of_entry {p : List ChildKey} {b : List σ}
    (hb : Entry (view c s) s.rootNode p b) : b.length = c.pageSize := by
  obtain ⟨v, i, _, hget⟩ := hb
  have hget : (pages c.pageSize (s.nodes v).value)[i]? = some b := hget
  have hlt := (List.getElem?_eq_some_iff.mp hget).1
  rw [length_pages] at hlt
  rw [getElem?_pages hlt] at hget
  have hle := mul_add_le_length hlt
  rw [← Option.some.inj hget, List.length_take, List.length_drop]
  omega

theorem length_flatten_lookup (hA : Holds (view c s) s.rootNode A) (w : List ChildKey) :
    (A.lookup [] w).flatten.length = (A.lookup [] w).length * c.pageSize := by
  rw [List.length_flatten, List.sum_eq_card_nsmul _ c.pageSize, List.length_map, Nat.nsmul_eq_mul]
  intro n hn
  obtain ⟨b, hb, rfl⟩ := List.mem_map.mp hn
  obtain ⟨i, hi, rfl⟩ := List.getElem_of_mem hb
  exact length_of_entry ((hA _ _).mpr (PrefixMap.getElem?_lookup (List.getElem?_eq_getElem hi)))

/-- After an insertion every prefix of the key has a value, the old ones first. -/
theorem InsertedAt.lookup {value : List σ} {bs : List (List σ)}
    (h : InsertedAt c locks s live key value bs s' live') (hvalue : value.length = key.len)
    (hA : Holds (view c s') s'.rootNode A) :
    A.lookup [] (key.syms c.pageSize) = bs ++ (pages c.pageSize value).drop bs.length := by
  have hle := h.longest.length_le
  have hlen : (bs ++ (pages c.pageSize value).drop bs.length).length =
      (key.syms c.pageSize).length := by
    rw [RadixKey.length_syms] at hle ⊢
    rw [List.length_append, List.length_drop, length_pages, hvalue]
    omega
  rw [h.rootNode] at hA
  symm
  refine PrefixMap.eq_lookup (Nat.le_of_eq hlen) (fun i b hget => ?_) fun hlt => by omega
  rw [List.nil_append, ← hA, h.entry]
  by_cases hi : i < bs.length
  · rw [List.getElem?_append_left hi] at hget
    exact .inl (h.longest.entry i b hget)
  · rw [List.getElem?_append_right (Nat.le_of_not_lt hi), List.getElem?_drop,
      Nat.add_sub_cancel' (Nat.le_of_not_lt hi)] at hget
    exact .inr ⟨i, Nat.le_of_not_lt hi, rfl, hget⟩

/-- In every state of a run the cache holds the content. `match_prefix` returns the slots of
the longest stored prefix and a node whose path spells it; `insert` returns the length of
that prefix, and from then on the key is found with the old slots first and then its own. -/
theorem run_prefixMap (hps : 0 < c.pageSize) (hon : c.disable = false) (h : Run c s locks A) :
    Holds (view c s) s.rootNode A ∧
    (∀ key, A.IsLongest (word c key) (A.lookup [] (word c key)).length) ∧
    (∀ key key', 0 < (alignedKey c key).len → (word c key = word c key' ↔
      key.extraKey = key'.extraKey ∧ (alignedKey c key).units = (alignedKey c key').units)) ∧
    (∀ key now, ∃ r s', matchPrefix c key now s = some (r, s') ∧
      Holds (view c s') s'.rootNode A ∧
      r.deviceIndices = (A.lookup [] (word c key)).flatten ∧
      Spells (view c s') s'.rootNode r.lastDeviceNode
        ((word c key).take (A.lookup [] (word c key)).length)) ∧
    ∀ key value priority chunked now, (alignedKey c key).len ≤ value.length →
      ∃ n s', n = (A.lookup [] (word c key)).length * c.pageSize ∧
        insert c key value priority chunked now s = some (n, s') ∧
        ∀ key' now', key' = key ∨ key' = alignedKey c key →
          ∃ r s'', matchPrefix c key' now' s' = some (r, s'') ∧
            r.deviceIndices = (A.lookup [] (word c key)).flatten ++
              (value.take (alignedKey c key).len).drop n ∧
            r.deviceIndices.length = (alignedKey c key).len := by
  obtain ⟨live, hinv, hholds, _⟩ := h.inv hps
  have hA := hholds hon
  have haligned : ∀ key, (alignedKey c key).Aligned c.pageSize := fun key =>
    RadixKey.aligned_pageAligned _ _
  refine ⟨hA, fun key => ?_, fun key key' hpos => ?_, fun key now => ?_, ?_⟩
  · exact PrefixMap.isLongest_lookup (hA.closed hinv.book.wf) _
  · rw [word, word, RadixKey.syms_eq_iff hps (haligned key) (haligned key') hpos,
      alignedKey_extraKey, alignedKey_extraKey]
  · obtain ⟨r, s', live', bs, hmatch, hr⟩ := matchPrefix_spec key now hps hon hinv
    have hbs := hr.longest.eq_lookup hA
    refine ⟨r, s', hmatch, hr.keeps.holds hA, hr.values.trans (congrArg _ hbs), ?_⟩
    rw [hr.keeps.rootNode, word, ← hbs]
    exact hr.spells
  · intro key value priority chunked now hvalue
    have hlen : (value.take (alignedKey c key).len).length = (alignedKey c key).len :=
      List.length_take_of_le hvalue
    obtain ⟨s', live', bs, hinsert, hr⟩ :=
      insert_spec value priority chunked now hps hon hinv hvalue
    have hA' := hr.holds hlen hA
    have hbs : bs = A.lookup [] (word c key) := hr.longest.eq_lookup hA
    refine ⟨_, s', rfl, by rw [hinsert, hbs], fun key' now' hkey' => ?_⟩
    have hsame : alignedKey c key' = alignedKey c key := by
      rcases hkey' with rfl | rfl
      · rfl
      · exact alignedKey_alignedKey c key
    obtain ⟨r, s'', _, bs', hmatch, hr'⟩ :=
      matchPrefix_spec key' now' hps hon hr.inv
    have hbs' := hr'.longest.eq_lookup hA'
    rw [hsame, hr.lookup hlen hA', ← pages_drop] at hbs'
    have hvalues : r.deviceIndices = (A.lookup [] (word c key)).flatten ++
        (value.take (alignedKey c key).len).drop
          ((A.lookup [] (word c key)).length * c.pageSize) := by
      rw [hr'.values, hbs', List.flatten_append, ← hbs, flatten_pages]
      rw [List.length_drop, hlen]
      exact Nat.dvd_sub (haligned key) (Nat.dvd_mul_left _ _)
    refine ⟨r, s'', hmatch, hvalues, ?_⟩
    have hle := Nat.mul_le_mul_right c.pageSize (A.length_lookup_le [] (word c key))
    rw [word, (haligned key).len_eq] at hle
    rw [hvalues, List.length_append, length_flatten_lookup hA, List.length_drop, hlen]
    exact Nat.add_sub_cancel' hle

/-- A search in the bigram view that ends inside a node. -/
theorem run_prefixMap_bigram : ∃ (s : RadixCache Nat) (A : PrefixMap ChildKey (List Nat)),
    Run ⟨false, 1, true, .lru⟩ s [] A ∧ ∃ r s',
      matchPrefix ⟨false, 1, true, .lru⟩ ⟨[1, 2, 3, 9], none, false⟩ 2 s = some (r, s') ∧
      r.deviceIndices = [10, 11] := by
  have h₁ := Run.call (.insert ⟨[1, 2, 3, 4], none, false⟩ [10, 11, 12, 13] 0 false 1)
    (Run.new (c := ⟨false, 1, true, .lru⟩) 0) (Nat.le_succ 3) rfl
  obtain ⟨r, s', hmatch, _, hvalues, _⟩ :=
    (run_prefixMap (by decide) rfl h₁).2.2.2.1 ⟨[1, 2, 3, 9], none, false⟩ 2
  refine ⟨_, _, h₁, r, s', hmatch, hvalues.trans ?_⟩
  decide

end RadixCache

end SpecDecode.MemCache
