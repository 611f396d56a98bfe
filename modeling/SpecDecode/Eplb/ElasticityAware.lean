import SpecDecode.Lib.BlockInsert
import SpecDecode.Lib.OptionMap
import SpecDecode.Lib.Ranges
import SpecDecode.Lib.Scatter

/-!
# Expert rebalancing with dead ranks

The balancer places the experts on the active ranks only. The maps are then widened to all
ranks: a dead rank gets a slice of zeros, and the slots behind it are renumbered.
-/

namespace SpecDecode.Eplb

open BlockInsert OptionMap Ranges Scatter

structure BalancedLayer where
  phy2log : List Nat
  phyrank : List Nat
  logcnt : List Nat

structure ElasticLayer where
  phy2log : List Nat
  log2phy : List Int
  logcnt : List Nat
deriving DecidableEq

structure ElasticMaps where
  maxlogcnt : Nat
  layers : List ElasticLayer
deriving DecidableEq

/-- The load of every layer and expert, and the balancer with its arguments `num_physical_experts`,
`num_groups`, `num_nodes` and `num_gpus`. -/
structure Balancer (ω : Type) where
  numLogicalExperts : Nat
  weight : List ω
  rebalanceExpertsHierarchical : List ω → Nat → Nat → Nat → Nat → List BalancedLayer

variable {ω : Type}

namespace Balancer

variable (b : Balancer ω) (numReplicas numGroups numNodes numGpus : Nat)
variable (enableHierarchical : Bool) (activeRanks : List Bool)

/-- The policy: with a dead rank the global one over the active ranks. -/
def balance : List BalancedLayer :=
  let numActiveRanks := activeRanks.count true
  let numLocalExperts := numReplicas / numGpus
  if numActiveRanks < numGpus then
    b.rebalanceExpertsHierarchical b.weight (numLocalExperts * numActiveRanks) 1 1 numActiveRanks
  else if enableHierarchical then
    b.rebalanceExpertsHierarchical b.weight numReplicas numGroups numNodes numGpus
  else b.rebalanceExpertsHierarchical b.weight numReplicas 1 1 numGpus

end Balancer

/-- `phy2log.view(num_layers, num_active_ranks, -1).unbind(dim=1)` of one layer. -/
def viewSlices (numActiveRanks : Nat) (phy2log : List Nat) : Option (List (List Nat)) :=
  if numActiveRanks = 0 ∨ phy2log.length = 0 ∨ phy2log.length % numActiveRanks ≠ 0 then none
  else
    let width := phy2log.length / numActiveRanks
    some ((List.range numActiveRanks).map fun a => (phy2log.drop (a * width)).take width)

def insertRank (numLocalExperts : Nat) (s : List (List Nat) × List Int) (rank : Bool × Nat) :
    List (List Nat) × List Int :=
  if rank.1 then s
  else
    (insertBlock s.1 rank.2 (List.replicate (s.1.headD []).length 0),
      s.2.map fun slot =>
        if ((rank.2 * numLocalExperts : Nat) : Int) ≤ slot then slot + numLocalExperts else slot)

def elasticLayer (numLogicalExperts maxlogcnt numLocalExperts numGpus : Nat)
    (activeRanks : List Bool) (r : BalancedLayer) : Option ElasticLayer := do
  let numActiveRanks := activeRanks.count true
  let log2phy ← scatter (List.replicate (numLogicalExperts * maxlogcnt) (-1))
    (List.zipWith (fun log rank => log * maxlogcnt + rank) r.phy2log r.phyrank)
    ((List.range (numLocalExperts * numActiveRanks)).map Int.ofNat)
  if numActiveRanks < numGpus then
    let slices ← viewSlices numActiveRanks r.phy2log
    let (slices, log2phy) := activeRanks.zipIdx.foldl (insertRank numLocalExperts)
      (slices, log2phy)
    return { phy2log := slices.flatten, log2phy := log2phy, logcnt := r.logcnt }
  else return { phy2log := r.phy2log, log2phy := log2phy, logcnt := r.logcnt }

/-- `rebalance_experts`; the maximum of no counts raises. -/
def Balancer.rebalanceExperts (b : Balancer ω) (numReplicas numGroups numNodes numGpus : Nat)
    (enableHierarchical : Bool) (activeRanks : List Bool) : Option ElasticMaps := do
  let layers := b.balance numReplicas numGroups numNodes numGpus enableHierarchical activeRanks
  let maxlogcnt ← (layers.flatMap BalancedLayer.logcnt).max?
  let maps ← layers.mapM
    (elasticLayer b.numLogicalExperts maxlogcnt (numReplicas / numGpus) numGpus activeRanks)
  return { maxlogcnt := maxlogcnt, layers := maps }

structure BalancedLayer.Ranked (numLogicalExperts width : Nat) (r : BalancedLayer) : Prop where
  phy2log_length : r.phy2log.length = width
  phyrank_length : r.phyrank.length = width
  logcnt_length : r.logcnt.length = numLogicalExperts
  rank_lt {p e rank : Nat} : r.phy2log[p]? = some e → r.phyrank[p]? = some rank →
    ∃ count, r.logcnt[e]? = some count ∧ rank < count
  slot_of {e count rank : Nat} : r.logcnt[e]? = some count → rank < count →
    ∃ p : Nat, r.phy2log[p]? = some e ∧ r.phyrank[p]? = some rank ∧
      ∀ q : Nat, r.phy2log[q]? = some e → r.phyrank[q]? = some rank → q = p

namespace ElasticLayer

/-- `log2phy[e]`. -/
def row (maxlogcnt : Nat) (m : ElasticLayer) (e : Nat) : List Int :=
  (m.log2phy.drop (e * maxlogcnt)).take maxlogcnt

/-- The slots that `log2phy` lists for an expert. -/
def slots (maxlogcnt : Nat) (m : ElasticLayer) (e : Nat) : List Int :=
  (m.row maxlogcnt e).filter fun slot => decide (0 ≤ slot)

/-- The maps of a layer cover the slots of the active ranks and no others. -/
structure Consistent (numLogicalExperts maxlogcnt numLocalExperts : Nat) (activeRanks : List Bool)
    (logcnt : List Nat) (m : ElasticLayer) : Prop where
  phy2log_length : m.phy2log.length = activeRanks.length * numLocalExperts
  log2phy_length : m.log2phy.length = numLogicalExperts * maxlogcnt
  logcnt_eq : m.logcnt = logcnt
  slots_length {e count : Nat} : logcnt[e]? = some count → (m.slots maxlogcnt e).length = count
  slots_nodup {e : Nat} : e < numLogicalExperts → (m.slots maxlogcnt e).Nodup
  slot_active {e : Nat} {slot : Int} : e < numLogicalExperts → slot ∈ m.slots maxlogcnt e →
    ∃ p : Nat, slot = p ∧ activeRanks[p / numLocalExperts]? = some true ∧
      m.phy2log[p]? = some e
  listed_once {p : Nat} : activeRanks[p / numLocalExperts]? = some true →
    ∃ x : Nat, m.log2phy[x]? = some (p : Int) ∧
      ∀ y : Nat, m.log2phy[y]? = some (p : Int) → y = x
  not_listed {p : Nat} : activeRanks[p / numLocalExperts]? ≠ some true →
    (p : Int) ∉ m.log2phy

end ElasticLayer

structure Listed (numLogicalExperts maxlogcnt : Nat) (r : BalancedLayer) (log2phy : List Int) :
    Prop where
  length : log2phy.length = numLogicalExperts * maxlogcnt
  slot {p e rank : Nat} : r.phy2log[p]? = some e → r.phyrank[p]? = some rank →
    log2phy[e * maxlogcnt + rank]? = some (p : Int)
  entry {x : Nat} {y : Int} : log2phy[x]? = some y → y = -1 ∨
    ∃ p e rank : Nat, r.phy2log[p]? = some e ∧ r.phyrank[p]? = some rank ∧
      x = e * maxlogcnt + rank ∧ y = p

theorem cell_inj {m e e' k k' : Nat} (hk : k < m) (hk' : k' < m)
    (h : e * m + k = e' * m + k') : e = e' ∧ k = k' := by
  have hdiv : (e * m + k) / m = (e' * m + k') / m := congrArg (· / m) h
  rw [Nat.mul_comm e, Nat.mul_comm e', Nat.mul_add_div (by omega), Nat.mul_add_div (by omega),
    Nat.div_eq_of_lt hk, Nat.div_eq_of_lt hk'] at hdiv
  have heq : e = e' := by omega
  subst heq
  exact ⟨rfl, by omega⟩

variable {numLogicalExperts maxlogcnt numLocalExperts numGpus width : Nat}
variable {activeRanks : List Bool} {r : BalancedLayer}

namespace BalancedLayer.Ranked

theorem rank_lt_max (h : r.Ranked numLogicalExperts width)
    (hmax : ∀ count ∈ r.logcnt, count ≤ maxlogcnt) {p e rank : Nat}
    (he : r.phy2log[p]? = some e) (hrank : r.phyrank[p]? = some rank) :
    e < numLogicalExperts ∧ rank < maxlogcnt := by
  obtain ⟨count, hcount, hlt⟩ := h.rank_lt he hrank
  have hle := hmax count (List.mem_of_getElem? hcount)
  have hbound := (List.getElem?_eq_some_iff.mp hcount).1
  rw [h.logcnt_length] at hbound
  exact ⟨hbound, Nat.lt_of_lt_of_le hlt hle⟩

private theorem slot_unique (h : r.Ranked numLogicalExperts width) {p q e rank : Nat}
    (hp : r.phy2log[p]? = some e) (hrank : r.phyrank[p]? = some rank)
    (hq : r.phy2log[q]? = some e) (hrank' : r.phyrank[q]? = some rank) : p = q := by
  obtain ⟨count, hcount, hlt⟩ := h.rank_lt hp hrank
  obtain ⟨s, -, -, hunique⟩ := h.slot_of hcount hlt
  rw [hunique p hp hrank, hunique q hq hrank']

theorem exists_listed (h : r.Ranked numLogicalExperts width)
    (hmax : ∀ count ∈ r.logcnt, count ≤ maxlogcnt) :
    ∃ log2phy, scatter (List.replicate (numLogicalExperts * maxlogcnt) (-1))
        (List.zipWith (fun log rank => log * maxlogcnt + rank) r.phy2log r.phyrank)
        ((List.range width).map Int.ofNat) = some log2phy ∧
      Listed numLogicalExperts maxlogcnt r log2phy := by
  have hlength : (List.zipWith (fun log rank => log * maxlogcnt + rank)
      r.phy2log r.phyrank).length ≤ ((List.range width).map Int.ofNat).length := by
    rw [List.length_zipWith, h.phy2log_length, h.phyrank_length, Nat.min_self, List.length_map,
      List.length_range]
  have hlt : ∀ x ∈ List.zipWith (fun log rank => log * maxlogcnt + rank) r.phy2log r.phyrank,
      x < (List.replicate (numLogicalExperts * maxlogcnt) (-1 : Int)).length := by
    intro x hx
    obtain ⟨p, hp⟩ := List.mem_iff_getElem?.mp hx
    obtain ⟨e, rank, he, hrank, rfl⟩ := List.getElem?_zipWith_eq_some.mp hp
    obtain ⟨hexpert, hlt⟩ := h.rank_lt_max hmax he hrank
    have hrow := Nat.mul_le_mul_right maxlogcnt (Nat.succ_le_of_lt hexpert)
    rw [Nat.succ_mul] at hrow
    rw [List.length_replicate]
    omega
  have hnodup :
      (List.zipWith (fun log rank => log * maxlogcnt + rank) r.phy2log r.phyrank).Nodup := by
    refine List.nodup_iff_getElem?_ne_getElem?.mpr fun p q hlt hq heq => ?_
    have hx := List.getElem?_eq_getElem hq
    obtain ⟨e, rank, he, hrank, hcell⟩ := List.getElem?_zipWith_eq_some.mp hx
    obtain ⟨e', rank', he', hrank', hcell'⟩ :=
      List.getElem?_zipWith_eq_some.mp (heq.trans hx)
    obtain ⟨rfl, rfl⟩ := cell_inj (h.rank_lt_max hmax he' hrank').2
      (h.rank_lt_max hmax he hrank).2 (hcell'.trans hcell.symm)
    exact absurd (h.slot_unique he' hrank' he hrank) (Nat.ne_of_lt hlt)
  obtain ⟨log2phy, hscatter, hdone⟩ := scatter_spec hlength hlt hnodup
  refine ⟨log2phy, hscatter, ?_, fun {p e rank} he hrank => ?_, fun {x y} hy => ?_⟩
  · rw [hdone.length, List.length_replicate]
  · have hp : p < width := h.phy2log_length ▸ (List.getElem?_eq_some_iff.mp he).1
    rw [hdone.written p _ (List.getElem?_zipWith_eq_some.mpr ⟨e, rank, he, hrank, rfl⟩),
      List.getElem?_map, List.getElem?_range hp]
    rfl
  · by_cases hx : x ∈ List.zipWith (fun log rank => log * maxlogcnt + rank) r.phy2log r.phyrank
    · obtain ⟨p, hp⟩ := List.mem_iff_getElem?.mp hx
      obtain ⟨e, rank, he, hrank, hcell⟩ := List.getElem?_zipWith_eq_some.mp hp
      have hlt : p < width := h.phy2log_length ▸ (List.getElem?_eq_some_iff.mp he).1
      rw [hdone.written p x hp, List.getElem?_map, List.getElem?_range hlt] at hy
      exact Or.inr ⟨p, e, rank, he, hrank, hcell.symm, (Option.some.inj hy).symm⟩
    · rw [hdone.other x hx] at hy
      exact Or.inl (List.eq_of_mem_replicate (List.mem_of_getElem? hy))

end BalancedLayer.Ranked

structure Renumbered (numLocalExperts width : Nat) (activeRanks : List Bool) (r : BalancedLayer)
    (place : Nat → Nat) (phy2log : List Nat) : Prop where
  injective : Function.Injective place
  length : phy2log.length = activeRanks.length * numLocalExperts
  expert (v : Nat) : phy2log[place v]? = r.phy2log[v]?
  active {v : Nat} : v < width → activeRanks[place v / numLocalExperts]? = some true
  exists_place {p : Nat} : activeRanks[p / numLocalExperts]? = some true →
    ∃ v, v < width ∧ place v = p

/-- An entry of `log2phy` after the slots have moved. -/
def renumber (place : Nat → Nat) (slot : Int) : Int :=
  if slot < 0 then slot else place slot.toNat

@[simp] theorem renumber_natCast (place : Nat → Nat) (p : Nat) : renumber place p = place p := by
  rw [renumber, if_neg (by omega), Int.toNat_natCast]

@[simp] theorem renumber_id : renumber id = id := by
  funext slot
  unfold renumber
  rw [id_eq, id_eq]
  split <;> omega

@[simp] theorem renumber_neg_one (place : Nat → Nat) : renumber place (-1) = -1 := rfl

theorem nodup_filter_of_unique {l : List Int} {p : Int → Bool}
    (h : ∀ (x y : Nat) (v : Int), p v → l[x]? = some v → l[y]? = some v → x = y) :
    (l.filter p).Nodup := by
  refine List.pairwise_filter.mpr (List.pairwise_iff_getElem.mpr ?_)
  intro x y hx hy hlt hpx _ heq
  have hsame : l[y]? = some l[x] := (List.getElem?_eq_getElem hy).trans (congrArg some heq.symm)
  exact absurd (h x y l[x] hpx (List.getElem?_eq_getElem hx) hsame) (Nat.ne_of_lt hlt)

namespace Listed

variable {log2phy : List Int} {place : Nat → Nat} {phy2log : List Nat}

section

variable (hl : Listed numLogicalExperts maxlogcnt r log2phy)

include hl

theorem exists_slot {x : Nat} {v : Int}
    (hv : 0 ≤ v) (hx : (log2phy.map (renumber place))[x]? = some v) :
    ∃ p e rank : Nat, r.phy2log[p]? = some e ∧ r.phyrank[p]? = some rank ∧
      x = e * maxlogcnt + rank ∧ v = place p := by
  rw [List.getElem?_map] at hx
  obtain ⟨y, hy, rfl⟩ := Option.map_eq_some_iff.mp hx
  obtain rfl | ⟨p, e, rank, he, hrank, hcell, rfl⟩ := hl.entry hy
  · rw [renumber_neg_one] at hv
    exact absurd hv (by decide)
  · exact ⟨p, e, rank, he, hrank, hcell, renumber_natCast place p⟩

theorem place_unique
    (hplace : Function.Injective place) {x y : Nat} {v : Int} (hv : 0 ≤ v)
    (hx : (log2phy.map (renumber place))[x]? = some v)
    (hy : (log2phy.map (renumber place))[y]? = some v) : x = y := by
  obtain ⟨p, e, rank, he, hrank, rfl, rfl⟩ := hl.exists_slot hv hx
  obtain ⟨q, e', rank', he', hrank', rfl, heq⟩ := hl.exists_slot hv hy
  have hsame : p = q := hplace (Int.ofNat_inj.mp heq)
  subst hsame
  rw [he] at he'
  rw [hrank] at hrank'
  rw [Option.some.inj he', Option.some.inj hrank']

/-- The row of an expert starts with its slots, the other entries are padding. -/
theorem row_entry
    (h : r.Ranked numLogicalExperts width) (hmax : ∀ count ∈ r.logcnt, count ≤ maxlogcnt)
    {m : ElasticLayer} (hm : m.log2phy = log2phy.map (renumber place)) {e count k : Nat}
    (hcount : r.logcnt[e]? = some count) {v : Int} (hv : (m.row maxlogcnt e)[k]? = some v) :
    0 ≤ v ↔ k < count := by
  have hk : k < maxlogcnt := by
    have hlt := (List.getElem?_eq_some_iff.mp hv).1
    exact Nat.lt_of_lt_of_le hlt (List.length_take_le _ _)
  rw [ElasticLayer.row, List.getElem?_take_of_lt hk, List.getElem?_drop, hm] at hv
  constructor
  · intro hle
    obtain ⟨p, e', rank, he, hrank, hcell, -⟩ := hl.exists_slot hle hv
    obtain ⟨rfl, rfl⟩ := cell_inj hk (h.rank_lt_max hmax he hrank).2 hcell
    obtain ⟨count', hcount', hlt⟩ := h.rank_lt he hrank
    rw [hcount] at hcount'
    rwa [Option.some.inj hcount']
  · intro hlt
    obtain ⟨p, he, hrank, -⟩ := h.slot_of hcount hlt
    rw [List.getElem?_map, hl.slot he hrank, Option.map_some, renumber_natCast] at hv
    rw [← Option.some.inj hv]
    exact Int.natCast_nonneg _

private theorem length_row {m : ElasticLayer}
    (hm : m.log2phy = log2phy.map (renumber place)) {e : Nat} (he : e < numLogicalExperts) :
    (m.row maxlogcnt e).length = maxlogcnt := by
  have hrow := Nat.mul_le_mul_right maxlogcnt (Nat.succ_le_of_lt he)
  rw [Nat.succ_mul] at hrow
  rw [ElasticLayer.row, List.length_take, List.length_drop, hm, List.length_map, hl.length]
  omega

theorem length_slots
    (h : r.Ranked numLogicalExperts width) (hmax : ∀ count ∈ r.logcnt, count ≤ maxlogcnt)
    {m : ElasticLayer} (hm : m.log2phy = log2phy.map (renumber place)) {e count : Nat}
    (hcount : r.logcnt[e]? = some count) : (m.slots maxlogcnt e).length = count := by
  have he : e < numLogicalExperts :=
    h.logcnt_length ▸ (List.getElem?_eq_some_iff.mp hcount).1
  have hle := hmax count (List.mem_of_getElem? hcount)
  have hfirst : ((m.row maxlogcnt e).take count).filter (fun slot => decide (0 ≤ slot)) =
      (m.row maxlogcnt e).take count := by
    refine List.filter_eq_self.mpr fun v hv => decide_eq_true ?_
    obtain ⟨k, hk⟩ := List.mem_iff_getElem?.mp hv
    have hlt : k < count := Nat.lt_of_lt_of_le (List.getElem?_eq_some_iff.mp hk).1
      (List.length_take_le _ _)
    rw [List.getElem?_take_of_lt hlt] at hk
    exact (hl.row_entry h hmax hm hcount hk).mpr hlt
  have hrest : ((m.row maxlogcnt e).drop count).filter (fun slot => decide (0 ≤ slot)) = [] := by
    refine List.filter_eq_nil_iff.mpr fun v hv hnonneg => ?_
    obtain ⟨k, hk⟩ := List.mem_iff_getElem?.mp hv
    rw [List.getElem?_drop] at hk
    have hlt := (hl.row_entry h hmax hm hcount hk).mp (of_decide_eq_true hnonneg)
    omega
  rw [ElasticLayer.slots, ← List.take_append_drop count (m.row maxlogcnt e), List.filter_append,
    hfirst, hrest, List.append_nil, List.length_take, hl.length_row hm he, Nat.min_eq_left hle]

theorem consistent
    (h : r.Ranked numLogicalExperts width) (hmax : ∀ count ∈ r.logcnt, count ≤ maxlogcnt)
    (hr : Renumbered numLocalExperts width activeRanks r place phy2log) {m : ElasticLayer}
    (hm : m = { phy2log := phy2log, log2phy := log2phy.map (renumber place),
                logcnt := r.logcnt }) :
    m.Consistent numLogicalExperts maxlogcnt numLocalExperts activeRanks r.logcnt := by
  have hmap : m.log2phy = log2phy.map (renumber place) := hm ▸ rfl
  have hsub (e : Nat) : (m.row maxlogcnt e).Sublist m.log2phy :=
    (List.take_sublist _ _).trans (List.drop_sublist _ _)
  have hunique : ∀ (x y : Nat) (v : Int), decide (0 ≤ v) → m.log2phy[x]? = some v →
      m.log2phy[y]? = some v → x = y := by
    intro x y v hv hx hy
    rw [hmap] at hx hy
    exact hl.place_unique hr.injective (of_decide_eq_true hv) hx hy
  exact {
    phy2log_length := by rw [hm]; exact hr.length
    log2phy_length := by rw [hmap, List.length_map, hl.length]
    logcnt_eq := by rw [hm]
    slots_length := fun hcount => hl.length_slots h hmax hmap hcount
    slots_nodup := fun _ => (nodup_filter_of_unique hunique).sublist ((hsub _).filter _)
    slot_active := fun {e slot} he hslot => by
      obtain ⟨hrow, hnonneg⟩ := List.mem_filter.mp hslot
      obtain ⟨k, hk⟩ := List.mem_iff_getElem?.mp hrow
      have hlt : k < maxlogcnt := Nat.lt_of_lt_of_le (List.getElem?_eq_some_iff.mp hk).1
        (List.length_take_le _ _)
      rw [ElasticLayer.row, List.getElem?_take_of_lt hlt, List.getElem?_drop, hmap] at hk
      obtain ⟨p, e', rank, hexpert, hrank, hcell, rfl⟩ :=
        hl.exists_slot (of_decide_eq_true hnonneg) hk
      obtain ⟨rfl, rfl⟩ := cell_inj hlt (h.rank_lt_max hmax hexpert hrank).2 hcell
      have hp : p < width := h.phy2log_length ▸ (List.getElem?_eq_some_iff.mp hexpert).1
      refine ⟨place p, rfl, hr.active hp, ?_⟩
      rw [hm]
      exact (hr.expert p).trans hexpert
    listed_once := fun {p} hactive => by
      obtain ⟨v, hv, rfl⟩ := hr.exists_place hactive
      obtain ⟨e, he⟩ : ∃ e, r.phy2log[v]? = some e :=
        ⟨_, List.getElem?_eq_getElem (h.phy2log_length ▸ hv)⟩
      obtain ⟨rank, hrank⟩ : ∃ rank, r.phyrank[v]? = some rank :=
        ⟨_, List.getElem?_eq_getElem (h.phyrank_length ▸ hv)⟩
      have hx : m.log2phy[e * maxlogcnt + rank]? = some (place v : Int) := by
        rw [hmap, List.getElem?_map, hl.slot he hrank, Option.map_some, renumber_natCast]
      exact ⟨_, hx, fun y hy => hunique y _ _ (decide_eq_true (Int.natCast_nonneg _)) hy hx⟩
    not_listed := fun {p} hdead hmem => by
      obtain ⟨x, hx⟩ := List.mem_iff_getElem?.mp hmem
      rw [hmap] at hx
      obtain ⟨q, e, rank, hexpert, -, -, heq⟩ := hl.exists_slot (Int.natCast_nonneg p) hx
      have hq : q < width := h.phy2log_length ▸ (List.getElem?_eq_some_iff.mp hexpert).1
      have hp : p = place q := Int.ofNat_inj.mp heq
      exact hdead (hp ▸ hr.active hq) }

end

end Listed

private theorem flatten_slices (width n : Nat) (row : List Nat) :
    ((List.range n).map fun a => (row.drop (a * width)).take width).flatten =
      row.take (n * width) := by
  induction n with
  | zero => simp
  | succ n ih =>
      rw [List.range_succ, List.map_append, List.flatten_append, ih, Nat.succ_mul, List.take_add]
      simp

theorem viewSlices_eq {n : Nat} {phy2log : List Nat} (hwidth : 0 < width) (hn : 0 < n)
    (hlen : phy2log.length = width * n) :
    ∃ slices, viewSlices n phy2log = some slices ∧ slices.length = n ∧
      (∀ slice ∈ slices, slice.length = width) ∧ slices.flatten = phy2log := by
  have hdiv : phy2log.length / n = width := by rw [hlen, Nat.mul_div_cancel _ hn]
  have hmod : phy2log.length % n = 0 := by rw [hlen, Nat.mul_mod_left]
  have hpos : 0 < width * n := Nat.mul_pos hwidth hn
  refine ⟨(List.range n).map fun a => (phy2log.drop (a * width)).take width, ?_, ?_, ?_, ?_⟩
  · rw [viewSlices, if_neg (by omega), hdiv]
  · rw [List.length_map, List.length_range]
  · intro slice hslice
    obtain ⟨a, ha, rfl⟩ := List.mem_map.mp hslice
    have hrow := Nat.mul_le_mul_right width (Nat.succ_le_of_lt (List.mem_range.mp ha))
    rw [Nat.succ_mul, Nat.mul_comm n] at hrow
    rw [List.length_take, List.length_drop]
    omega
  · rw [flatten_slices, List.take_of_length_le (by rw [hlen, Nat.mul_comm])]

private theorem renumber_shift (place : Nat → Nat) (i : Nat) (slot : Int) :
    (if ((i * numLocalExperts : Nat) : Int) ≤ renumber place slot then
        renumber place slot + numLocalExperts else renumber place slot) =
      renumber (fun v => shift numLocalExperts i (place v)) slot := by
  unfold renumber shift
  dsimp only
  by_cases hneg : slot < 0
  · rw [if_pos hneg, if_pos hneg, if_neg (by omega)]
  · rw [if_neg hneg, if_neg hneg]
    by_cases hle : i * numLocalExperts ≤ place slot.toNat
    · rw [if_pos (by omega), if_pos hle]
      omega
    · rw [if_neg (by omega), if_neg hle]

/-- The loop inserts a slice for every dead rank and renumbers the slots behind it. -/
theorem foldl_insertRank {slices : List (List Nat)} (hwidth : 0 < numLocalExperts)
    (hslices : ∀ slice ∈ slices, slice.length = numLocalExperts) (hne : slices ≠ [])
    (activeRanks : List Bool) (hcount : activeRanks.count true ≤ slices.length)
    (log2phy : List Int) :
    activeRanks.zipIdx.foldl (insertRank numLocalExperts) (slices, log2phy) =
      (fillIn activeRanks (List.replicate numLocalExperts 0) slices,
        log2phy.map (renumber (place numLocalExperts activeRanks))) := by
  induction activeRanks using List.reverseRecOn with
  | nil =>
      have hid : renumber (place numLocalExperts []) = id := renumber_id
      rw [hid, List.map_id]
      rfl
  | append_singleton activeRanks active ih =>
      rw [List.count_append] at hcount
      have ih := ih (by omega)
      rw [List.zipIdx_append, List.foldl_append, ih, Nat.zero_add, fillIn_append_singleton]
      cases active with
      | true =>
          have hplace : place numLocalExperts (activeRanks ++ [true]) =
              place numLocalExperts activeRanks :=
            funext fun v => place_append_singleton ..
          rw [hplace]
          rfl
      | false =>
          have hplace : place numLocalExperts (activeRanks ++ [false]) = fun v =>
              shift numLocalExperts activeRanks.length (place numLocalExperts activeRanks v) :=
            funext fun v => place_append_singleton ..
          have hfilled := filled activeRanks hwidth
            (List.length_replicate (n := numLocalExperts) (a := 0)) hslices (by omega)
          have hhead : (List.headD (fillIn activeRanks (List.replicate numLocalExperts 0) slices)
              []).length = numLocalExperts := by
            cases hfill : fillIn activeRanks (List.replicate numLocalExperts 0) slices with
            | nil =>
                have hlength := hfilled.length
                rw [hfill] at hlength
                exact absurd (List.length_eq_zero_iff.mp (by simp at hlength; omega)) hne
            | cons slice rest =>
                exact hfilled.width_eq slice (hfill ▸ List.mem_cons_self)
          rw [hplace]
          refine Prod.ext ?_ ?_
          · show insertBlock _ _ (List.replicate _ 0) = _
            rw [hhead]
            rfl
          · show ((log2phy.map _).map _) = _
            rw [List.map_map]
            exact List.map_congr_left fun slot _ => renumber_shift _ _ slot

/-- Widened to all ranks, the maps of a layer cover the slots of the active ranks. -/
theorem elasticLayer_consistent (h : r.Ranked numLogicalExperts
      (numLocalExperts * activeRanks.count true))
    (hmax : ∀ count ∈ r.logcnt, count ≤ maxlogcnt) (hlocal : 0 < numLocalExperts)
    (hactive : 0 < activeRanks.count true) :
    ∃ m, elasticLayer numLogicalExperts maxlogcnt numLocalExperts activeRanks.length activeRanks
        r = some m ∧
      m.Consistent numLogicalExperts maxlogcnt numLocalExperts activeRanks r.logcnt := by
  obtain ⟨log2phy, hscatter, hl⟩ := h.exists_listed hmax
  have hboth := List.count_true_add_count_false activeRanks
  by_cases hdead : activeRanks.count true < activeRanks.length
  · obtain ⟨slices, hview, hcount, hslices, hflatten⟩ :=
      viewSlices_eq hlocal hactive h.phy2log_length
    have hne : slices ≠ [] := by
      rintro rfl
      exact absurd hcount (by simp; omega)
    have hfilled := filled activeRanks hlocal
      (List.length_replicate (n := numLocalExperts) (a := 0)) hslices hcount.ge
    have hr : Renumbered numLocalExperts (numLocalExperts * activeRanks.count true) activeRanks r
        (place numLocalExperts activeRanks)
        (fillIn activeRanks (List.replicate numLocalExperts 0) slices).flatten := {
      injective := place_injective numLocalExperts activeRanks
      length := by
        rw [length_flatten_of_width hfilled.width_eq, hfilled.length, hcount, hboth]
      expert := fun v => by rw [hfilled.place_eq, hflatten]
      active := fun {v} hv => by
        rw [Nat.mul_comm, ← hcount] at hv
        obtain ⟨hlt, hkept⟩ := hfilled.place_kept hv
        rw [hcount, hboth] at hlt
        exact hkept ((Nat.div_lt_iff_lt_mul hlocal).mpr hlt)
      exists_place := fun {p} hp => by
        have hlt := (List.getElem?_eq_some_iff.mp hp).1
        rw [Nat.div_lt_iff_lt_mul hlocal, ← hboth, ← hcount] at hlt
        obtain ⟨v, hv, hplace⟩ := hfilled.exists_place hlt fun _ => hp
        rw [hcount, Nat.mul_comm] at hv
        exact ⟨v, hv, hplace⟩ }
    refine ⟨_, ?_, hl.consistent h hmax hr rfl⟩
    rw [elasticLayer, hscatter]
    simp only [Option.bind_eq_bind, Option.bind_some, if_pos hdead, hview,
      foldl_insertRank hlocal hslices hne activeRanks hcount.ge]
    rfl
  · have hall : activeRanks.count true = activeRanks.length := by omega
    have hr : Renumbered numLocalExperts (numLocalExperts * activeRanks.count true) activeRanks r
        id r.phy2log := {
      injective := Function.injective_id
      length := by rw [h.phy2log_length, hall, Nat.mul_comm]
      expert := fun _ => rfl
      active := fun {v} hv => by
        rw [hall] at hv
        have hlt : v / numLocalExperts < activeRanks.length := Nat.div_lt_of_lt_mul hv
        rw [id_eq, List.getElem?_eq_getElem hlt,
          ← List.count_eq_length.mp hall _ (List.getElem_mem hlt)]
      exists_place := fun {p} hp => by
        have hlt := (List.getElem?_eq_some_iff.mp hp).1
        rw [Nat.div_lt_iff_lt_mul hlocal, Nat.mul_comm, ← hall] at hlt
        exact ⟨p, hlt, rfl⟩ }
    have hid : log2phy.map (renumber id) = log2phy := by
      rw [renumber_id, List.map_id]
    refine ⟨_, ?_, hl.consistent h hmax hr rfl⟩
    rw [elasticLayer, hscatter]
    simp only [Option.bind_eq_bind, Option.bind_some, if_neg hdead, hid]
    rfl

namespace Balancer

variable (b : Balancer ω) (numLocalExperts numGroups numNodes : Nat) (enableHierarchical : Bool)
variable (activeRanks : List Bool)

/-- The layers that the balancer returns for the ranks of a mask. -/
abbrev balanced : List BalancedLayer :=
  b.balance (numLocalExperts * activeRanks.length) numGroups numNodes activeRanks.length
    enableHierarchical activeRanks

/-- The balancer gives every layer its slots: they fill the active ranks, and the slots of an
expert carry the ranks below its count. -/
structure Balances : Prop where
  length : (b.balanced numLocalExperts numGroups numNodes enableHierarchical activeRanks).length =
    b.weight.length
  ranked : ∀ r ∈ b.balanced numLocalExperts numGroups numNodes enableHierarchical activeRanks,
    r.Ranked b.numLogicalExperts (numLocalExperts * activeRanks.count true)

variable {b numLocalExperts numGroups numNodes enableHierarchical activeRanks}

/-- With an active rank, and slots on it, the maps of all layers list every slot of the active ranks
once and no other. The balancer is a parameter that ranks the slots of an expert (`Balances`). -/
theorem rebalanceExperts_consistent (hlayers : b.weight ≠ [])
    (h : b.Balances numLocalExperts numGroups numNodes enableHierarchical activeRanks)
    (hlocal : 0 < numLocalExperts) (hactive : 0 < activeRanks.count true) :
    ∃ maps, b.rebalanceExperts (numLocalExperts * activeRanks.length) numGroups numNodes
        activeRanks.length enableHierarchical activeRanks = some maps ∧
      List.Forall₂ (fun r m => m.Consistent b.numLogicalExperts maps.maxlogcnt numLocalExperts
          activeRanks r.logcnt)
        (b.balanced numLocalExperts numGroups numNodes enableHierarchical activeRanks)
        maps.layers := by
  have hranks : 0 < activeRanks.length :=
    Nat.lt_of_lt_of_le hactive List.count_le_length
  have hdiv : numLocalExperts * activeRanks.length / activeRanks.length = numLocalExperts :=
    Nat.mul_div_cancel _ hranks
  -- The first slot of the first layer belongs to an expert with a count.
  obtain ⟨r, hr⟩ : ∃ r,
      r ∈ b.balanced numLocalExperts numGroups numNodes enableHierarchical activeRanks := by
    refine List.exists_mem_of_ne_nil _ fun hnil => hlayers ?_
    have hlength := h.length
    rw [hnil] at hlength
    exact List.length_eq_zero_iff.mp hlength.symm
  obtain ⟨count, hcount⟩ : ∃ count, count ∈ r.logcnt := by
    have hranked := h.ranked r hr
    have hslots : 0 < r.phy2log.length := by
      rw [hranked.phy2log_length]
      exact Nat.mul_pos hlocal hactive
    have hrankslots : 0 < r.phyrank.length := by
      rw [hranked.phyrank_length]
      exact Nat.mul_pos hlocal hactive
    obtain ⟨count, hcount, -⟩ := hranked.rank_lt (List.getElem?_eq_getElem hslots)
      (List.getElem?_eq_getElem hrankslots)
    exact ⟨count, List.mem_of_getElem? hcount⟩
  obtain ⟨maxlogcnt, hmax⟩ := Option.isSome_iff_exists.mp
    (List.isSome_max?_of_mem (List.mem_flatMap.mpr ⟨r, hr, hcount⟩))
  have hle : ∀ r ∈ b.balanced numLocalExperts numGroups numNodes enableHierarchical activeRanks,
      ∀ count ∈ r.logcnt, count ≤ maxlogcnt := by
    intro r hr count hcount
    exact (List.max?_eq_some_iff.mp hmax).2 count (List.mem_flatMap.mpr ⟨r, hr, hcount⟩)
  obtain ⟨layers, hmaps, hall⟩ := exists_mapM fun r hr =>
    elasticLayer_consistent (h.ranked r hr) (hle r hr) hlocal hactive
  refine ⟨{ maxlogcnt := maxlogcnt, layers := layers }, ?_, hall⟩
  simp only [rebalanceExperts, Option.bind_eq_bind, hmax, Option.bind_some, hdiv, hmaps]
  rfl

/-- Expert 1 takes nine times the load of expert 0; it gets three of the four slots of two
active ranks. -/
def heavyExpert : BalancedLayer where
  phy2log := [1, 1, 1, 0]
  phyrank := [0, 2, 1, 0]
  logcnt := [1, 3]

theorem heavyExpert_ranked : heavyExpert.Ranked 2 4 where
  phy2log_length := rfl
  phyrank_length := rfl
  logcnt_length := rfl
  rank_lt {p e rank} he hrank := by
    have hp : p < 4 := (List.getElem?_eq_some_iff.mp he).1
    have hall : ∀ p < 4, ∀ e ∈ heavyExpert.phy2log[p]?, ∀ rank ∈ heavyExpert.phyrank[p]?,
        ∃ count ∈ heavyExpert.logcnt[e]?, rank < count := by decide
    exact hall p hp e he rank hrank
  slot_of {e count rank} hcount hlt := by
    have he : e < 2 := (List.getElem?_eq_some_iff.mp hcount).1
    have hall : ∀ e < 2, ∀ count ∈ heavyExpert.logcnt[e]?, ∀ rank < count,
        ∃ p ∈ List.range 4, heavyExpert.phy2log[p]? = some e ∧
          heavyExpert.phyrank[p]? = some rank := by decide
    have hdistinct : ∀ p < 4, ∀ q < 4, heavyExpert.phy2log[q]? = heavyExpert.phy2log[p]? →
        heavyExpert.phyrank[q]? = heavyExpert.phyrank[p]? → q = p := by decide
    obtain ⟨p, hp, hslot, hrank⟩ := hall e he count hcount rank hlt
    exact ⟨p, hslot, hrank, fun q hq hqrank =>
      hdistinct p (List.mem_range.mp hp) q (List.getElem?_eq_some_iff.mp hq).1
        (hq.trans hslot.symm) (hqrank.trans hrank.symm)⟩

def twoExperts : Balancer (List Nat) where
  numLogicalExperts := 2
  weight := [[1, 9]]
  rebalanceExpertsHierarchical _ _ _ _ _ := [heavyExpert]

/-- Ranks 0 and 2 are dead: the slots move to ranks 1 and 3. -/
theorem rebalanceExperts_consistent_twoExperts :
    twoExperts.rebalanceExperts 8 1 1 4 false [false, true, false, true] = some
        { maxlogcnt := 3
          layers := [{ phy2log := [0, 0, 1, 1, 0, 0, 1, 0], log2phy := [7, -1, -1, 2, 6, 3],
                       logcnt := [1, 3] }] } ∧
      ∃ maps, twoExperts.rebalanceExperts (2 * 4) 1 1 4 false [false, true, false, true] =
          some maps ∧
        List.Forall₂ (fun r m => m.Consistent 2 maps.maxlogcnt 2 [false, true, false, true]
          r.logcnt) [heavyExpert] maps.layers := by
  have hbalances : twoExperts.Balances 2 1 1 false [false, true, false, true] :=
    ⟨rfl, fun r hr => by
      rw [List.mem_singleton.mp hr]
      exact heavyExpert_ranked⟩
  exact ⟨by decide, rebalanceExperts_consistent (by decide) hbalances (by decide) (by decide)⟩

end Balancer

end SpecDecode.Eplb
