import SpecDecode.MemCache.RadixMap
import SpecDecode.Scheduler.SchedulePolicy

/-!
# What ordering the waiting queue keeps

Every policy leaves a permutation of the queue. For the DFS-weight policy this rests on the last
nodes: matching a prefix may split nodes of the tree but removes none, so the node that was
recorded for an earlier request is still reached from the root.
-/

namespace SpecDecode.Admission

open Function

open MemCache MemCache.RadixCache RadixTree

namespace SchedulePolicy

section Sorts

variable {queue : List Nat}

theorem sortBy_perm {κ : Type} [LE κ] [DecidableLE κ] (key : Nat → κ) (queue : List Nat) :
    (sortBy key queue).Perm queue :=
  List.perm_insertionSort _ _

theorem sortByLongestOutput_perm (reqs : Nat → QueuedReq) (enable : Bool) (sign : Int) :
    (sortByLongestOutput reqs enable sign queue).Perm queue := by
  rw [sortByLongestOutput]
  split <;> exact sortBy_perm _ _

private theorem exchange_perm (i j : Nat) (queue : List Nat) : (exchange i j queue).Perm queue := by
  rw [exchange]
  split
  · next h => exact List.set_set_perm h.1 h.2
  · exact .refl _

theorem shuffleLoop_perm (draw : Nat → Nat) (i : Nat) (queue : List Nat) :
    (shuffleLoop draw i queue).Perm queue := by
  induction i generalizing queue with
  | zero => exact .refl _
  | succ i ih => exact (ih _).trans (exchange_perm _ _ _)

theorem sortByRoutingKey_perm (reqs : Nat → QueuedReq) (running queue : List Nat) :
    (sortByRoutingKey reqs running queue).Perm queue := by
  simp only [sortByRoutingKey]
  split
  · exact .refl _
  · exact sortBy_perm _ _

end Sorts

section Matches

variable {c : CacheParams} {p : SchedulePolicy} {m m' : Matching} {locks : List Nat}
variable {A : PrefixMap ChildKey (List Nat)} {queue : List Nat}

/-- The longest prefix of a request's key in the content `A`. -/
def found (c : CacheParams) (A : PrefixMap ChildKey (List Nat)) (r : QueuedReq) :
    List (List Nat) :=
  A.lookup [] (word c (prefixKey r))

structure Matched (c : CacheParams) (A : PrefixMap ChildKey (List Nat)) (m : Matching) (r : Nat) :
    Prop where
  prefixIndices : (m.reqs r).prefixIndices = (found c A (m.reqs r)).flatten
  lastNode : ∃ v, (m.reqs r).lastNode = some v ∧ Spells (view c m.tree) m.tree.rootNode v
    ((word c (prefixKey (m.reqs r))).take (found c A (m.reqs r)).length)

structure Sound (c : CacheParams) (locks : List Nat) (A : PrefixMap ChildKey (List Nat))
    (m : Matching) : Prop where
  run : Run c m.tree locks A
  waiting : ∃ live, Inv simulated m.waiting [] live

structure Rematches (c : CacheParams) (A : PrefixMap ChildKey (List Nat)) (m m' : Matching) :
    Prop where
  reqs : ∀ r, (m'.reqs r).unmatched = (m.reqs r).unmatched
  matched : ∀ r, Matched c A m r → Matched c A m' r

theorem Rematches.refl (m : Matching) : Rematches c A m m := ⟨fun _ => rfl, fun _ h => h⟩

theorem Rematches.trans {m'' : Matching} (h : Rematches c A m m') (h' : Rematches c A m' m'') :
    Rematches c A m m'' :=
  ⟨fun r => (h'.reqs r).trans (h.reqs r), fun r hr => h'.matched r (h.matched r hr)⟩

theorem matchPrefixForReq_spec (now r : Nat) (hps : 0 < c.pageSize) (hon : c.disable = false)
    (h : Sound c locks A m) :
    ∃ m', matchPrefixForReq c now r m = some m' ∧ Sound c locks A m' ∧ Rematches c A m m' ∧
      Matched c A m' r := by
  obtain ⟨live, hinv, hholds, -⟩ := h.run.inv hps
  obtain ⟨result, tree, live', bs, hmatch, hr⟩ :=
    matchPrefix_spec (prefixKey (m.reqs r)) now hps hon hinv
  have hbs : bs = found c A (m.reqs r) := hr.longest.eq_lookup (hholds hon)
  have hrun : Run c tree locks A :=
    .call (.matchPrefix (prefixKey (m.reqs r)) now) h.run trivial (by simp [Call.exec, hmatch])
  have hspells : ∀ v w, Spells (view c m.tree) m.tree.rootNode v w →
      Spells (view c tree) tree.rootNode v w := by
    rw [hr.keeps.rootNode]
    exact hr.keeps.spells
  have hnew : Matched c A { m with
      reqs := update m.reqs r { m.reqs r with
        prefixIndices := result.deviceIndices
        lastNode := some result.lastDeviceNode
        hostHitLength := 0 }
      tree := tree } r := by
    constructor
    · simp only [update_self]
      exact hr.values.trans (congrArg _ hbs)
    · simp only [update_self]
      refine ⟨_, rfl, ?_⟩
      have hend := hr.spells
      rw [List.nil_append, ← hr.keeps.rootNode, hbs] at hend
      exact hend
  rw [matchPrefixForReq, hmatch, Option.map_some]
  refine ⟨_, rfl, ⟨hrun, h.waiting⟩, ⟨fun r' => ?_, fun r' hr' => ?_⟩, hnew⟩
  · by_cases heq : r' = r
    · subst heq
      simp [QueuedReq.unmatched]
    · simp [update_of_ne heq]
  · by_cases heq : r' = r
    · exact heq ▸ hnew
    · obtain ⟨hindices, v, hv, hw⟩ := hr'
      constructor
      · simp only [update_of_ne heq]
        exact hindices
      · simp only [update_of_ne heq]
        exact ⟨v, hv, hspells v _ hw⟩

private theorem alignedKey_simulated (r : QueuedReq) :
    (alignedKey simulated (prefixKey r)).len = (prefixKey r).tokenIds.length := by
  simp [alignedKey, simulated, RadixKey.maybeToBigramView, RadixKey.pageAligned, RadixKey.len,
    prefixKey]

theorem checkInBatch_spec (p : SchedulePolicy) (now now' r : Nat) (h : Sound c locks A m) :
    ∃ shared waiting, p.checkInBatch now now' r m = some (shared, { m with waiting := waiting }) ∧
      Sound c locks A { m with waiting := waiting } := by
  obtain ⟨live₀, hwaiting⟩ := h.waiting
  have hps : 0 < simulated.pageSize := Nat.one_pos
  obtain ⟨result, waiting, live₁, bs, hmatch, hr⟩ :=
    matchPrefix_spec (prefixKey (m.reqs r)) now hps rfl hwaiting
  simp only [checkInBatch, hmatch, Option.bind_some]
  split
  · exact ⟨true, _, rfl, h.run, live₁, hr.inv⟩
  · have hlen : (alignedKey simulated (prefixKey (m.reqs r))).len ≤
        (List.replicate (prefixKey (m.reqs r)).tokenIds.length ()).length := by
      rw [List.length_replicate, alignedKey_simulated]
    obtain ⟨waiting', live₂, bs', hinsert, hr'⟩ := insert_spec
      (List.replicate (prefixKey (m.reqs r)).tokenIds.length ()) 0 false now' hps rfl hr.inv hlen
    rw [hinsert]
    exact ⟨false, _, rfl, h.run, live₂, hr'.inv⟩

theorem Matched.of_waiting {r : Nat} {waiting : RadixCache Unit} (h : Matched c A m r) :
    Matched c A { m with waiting := waiting } r :=
  ⟨h.prefixIndices, h.lastNode⟩

/-- The loop returns; all requests it meets are matched behind it. -/
theorem computeLoop_spec (p : SchedulePolicy) (clock : Nat → Nat) (i : Nat)
    (deprioritized : List String) (hps : 0 < p.treeCache.pageSize)
    (hon : p.treeCache.disable = false) (h : Sound p.treeCache locks A m) :
    ∃ deprioritized' m', p.computeLoop clock i queue deprioritized m =
        some (deprioritized', m') ∧ Sound p.treeCache locks A m' ∧ Rematches p.treeCache A m m' ∧
      ∀ r ∈ queue, Matched p.treeCache A m' r := by
  induction queue generalizing i deprioritized m with
  | nil => exact ⟨deprioritized, m, rfl, h, .refl m, fun r hr => absurd hr List.not_mem_nil⟩
  | cons r rest ih =>
      obtain ⟨m₁, hmatch, h₁, hkeep, hmatched⟩ :=
        matchPrefixForReq_spec (clock (3 * i + 1)) r hps hon h
      simp only [computeLoop, hmatch, Option.bind_some]
      split
      · obtain ⟨shared, waiting, hcheck, h₂⟩ :=
          checkInBatch_spec p (clock (3 * i + 2)) (clock (3 * i + 3)) r h₁
        have hkeep₂ : Rematches p.treeCache A m₁ { m₁ with waiting := waiting } :=
          ⟨fun _ => rfl, fun _ => .of_waiting⟩
        rw [hcheck, Option.bind_some]
        obtain ⟨deprioritized', m', hloop, h', hrest, hall⟩ := ih (i + 1) _ h₂
        exact ⟨deprioritized', m', hloop, h', (hkeep.trans hkeep₂).trans hrest,
          List.forall_mem_cons.mpr ⟨hrest.matched r hmatched.of_waiting, hall⟩⟩
      · obtain ⟨deprioritized', m', hloop, h', hrest, hall⟩ := ih (i + 1) deprioritized h₁
        exact ⟨deprioritized', m', hloop, h', hkeep.trans hrest,
          List.forall_mem_cons.mpr ⟨hrest.matched r hmatched, hall⟩⟩

theorem computePrefixMatches_spec (p : SchedulePolicy) (clock : Nat → Nat) (queue : List Nat)
    (hps : 0 < p.treeCache.pageSize) (haware : p.policy.isCacheAware)
    (h : Run p.treeCache m.tree locks A) :
    ∃ deprioritized m', p.computePrefixMatches clock queue m = some (deprioritized, m') ∧
      Run p.treeCache m'.tree locks A ∧ Rematches p.treeCache A m m' ∧
      ∀ r ∈ queue, Matched p.treeCache A m' r := by
  have hsound : Sound p.treeCache locks A { m with waiting := .new (clock 0) } :=
    ⟨h, ∅, inv_new _ _⟩
  obtain ⟨deprioritized, m', hloop, h', hkeep, hall⟩ :=
    computeLoop_spec p clock 0 [] hps (p.enabled haware) hsound
  exact ⟨deprioritized, m', hloop, h'.run,
    ⟨hkeep.reqs, fun r hr => hkeep.matched r hr.of_waiting⟩, hall⟩

end Matches

section Dfs

variable {c : CacheParams} {m : Matching} {locks : List Nat} {queue : List Nat}
variable {A : PrefixMap ChildKey (List Nat)}

open Classical in
/-- The requests of every subtree stand in one piece, its `block`. The block of a node consists
of the blocks of its children, the larger ones first, and of the requests whose last node it
is. -/
structure DfsOrder (tree : RadixCache Nat) (lastNode : Nat → Option Nat) (queue : List Nat)
    (block : Nat → List Nat) (result : List Nat) : Prop where
  root : block tree.rootNode = result
  perm : ∀ v, tree.InTree v →
    (block v).Perm (queue.filter fun r => ∃ w, lastNode r = some w ∧ tree.InSubtree v w)
  contiguous : ∀ v, tree.InTree v → block v <:+: result
  children : ∀ v, tree.InTree v → ∃ kids : List Nat, kids.Perm (tree.childNodes v) ∧
    kids.Pairwise (fun x y => (block y).length ≤ (block x).length) ∧
    block v = kids.flatMap block ++ queue.filter fun r => lastNode r = some v

open WeightedOrder in
theorem sortByDfsWeight_spec (hps : 0 < c.pageSize) (h : Run c m.tree locks A)
    (hmatched : ∀ r ∈ queue, Matched c A m r) :
    ∃ result block, sortByDfsWeight m queue = some result ∧ result.Perm queue ∧
      DfsOrder m.tree (fun r => (m.reqs r).lastNode) queue block result := by
  classical
  obtain ⟨live, hinv, -, -⟩ := h.inv hps
  have hranked := hinv.ranked h.dicts
  have hroot : m.tree.InTree m.tree.rootNode := .refl
  have hfuel : m.tree.height c m.tree.rootNode < m.tree.counter + 1 := height_lt_fuel
  let node : Nat → Nat := fun r => (m.reqs r).lastNode.getD m.tree.rootNode
  have hnode : ∀ r ∈ queue, (m.reqs r).lastNode = some (node r) ∧ m.tree.InTree (node r) := by
    intro r hr
    obtain ⟨-, v, hv, hspells⟩ := hmatched r hr
    have heq : node r = v := by simp only [node, hv, Option.getD_some]
    rw [heq]
    exact ⟨hv, hinv.inTree_iff.mpr (hinv.book.wf.spells_live hspells)⟩
  let own := lastNodeToReqs m.reqs queue
  have hown : own = fun v => queue.filter fun r => node r = v := by
    funext v
    refine List.filter_congr fun r hr => ?_
    rw [decide_eq_decide, (hnode r hr).1, Option.some_inj]
  let total : Nat → Nat := fun v => (below m.tree.childNodes node queue v).length
  have htotal : ∀ v, m.tree.InTree v →
      total v = (own v).length + ((m.tree.childNodes v).map total).sum := by
    intro v hv
    have hlen := (below_perm hranked node queue hv).length_eq
    rw [List.length_append, List.length_flatMap, Nat.add_comm] at hlen
    rw [hown]
    exact hlen
  have hbase : ∀ w, Below m.tree.childNodes m.tree.rootNode w → (own w).length = (own w).length :=
    fun w _ => rfl
  obtain ⟨weight, hcalc, hweight, _⟩ := calcWeight_spec hranked htotal hroot hfuel hbase
  obtain ⟨block, hblock, hdfs⟩ := exists_block hranked weight own
  have hperm : ∀ v, m.tree.InTree v → (block v).Perm _ := fun v hv =>
    block_perm hranked node queue (fun v hv => by rw [hblock v hv, hown]) hv
  have hbelow : ∀ {v w : Nat}, Below m.tree.childNodes v w ↔ m.tree.InSubtree v w :=
    below_childNodes h.dicts
  have hlength : ∀ v, m.tree.InTree v → (block v).length = weight v := fun v hv => by
    rw [(hperm v hv).length_eq, hweight v (hbelow.mpr hv)]
  refine ⟨block m.tree.rootNode, block, ?_, ?_, rfl, fun v hv => ?_, fun v hv => ?_, fun v hv => ?_⟩
  · rw [sortByDfsWeight, hcalc, Option.bind_some, hdfs _ _ _ hroot hfuel, List.nil_append]
  · refine (hperm _ hroot).trans (.of_eq ?_)
    exact List.filter_eq_self.mpr fun r hr => by simpa using hbelow.mpr (hnode r hr).2
  · refine (hperm v hv).trans (.of_eq (List.filter_congr fun r hr => ?_))
    rw [decide_eq_decide, hbelow, (hnode r hr).1]
    simp
  · exact block_infix hranked hblock hroot (hbelow.mpr hv)
  · refine ⟨byWeight weight (m.tree.childNodes v), byWeight_perm _ _, ?_, hblock v hv⟩
    refine (byWeight_pairwise weight _).imp_of_mem fun {x y} hx hy hle => ?_
    rw [hlength x (hranked.closed hv ((byWeight_perm _ _).mem_iff.mp hx)),
      hlength y (hranked.closed hv ((byWeight_perm _ _).mem_iff.mp hy))]
    exact hle

end Dfs

variable {p : SchedulePolicy} {m : Matching} {locks : List Nat}
variable {A : PrefixMap ChildKey (List Nat)}

/-- What a call of `calc_priority` on `queue` leaves. The tree cache keeps its content and the
requests all but what a match records. If prefixes were computed, every request of the queue has the
longest one of its key, and the DFS-weight policy orders the queue by the tree they are found in. -/
structure Reorders (p : SchedulePolicy) (locks : List Nat) (A : PrefixMap ChildKey (List Nat))
    (m : Matching) (queue : List Nat) (computed : Bool) (queue' : List Nat) (m' : Matching) :
    Prop where
  perm : queue'.Perm queue
  tree : Run p.treeCache m'.tree locks A
  reqs : ∀ r, (m'.reqs r).unmatched = (m.reqs r).unmatched
  matched : computed = true → ∀ r ∈ queue, Matched p.treeCache A m' r
  dfs : p.policy = .dfsWeight → computed = true ∧
    ∃ block, DfsOrder m'.tree (fun r => (m'.reqs r).lastNode) queue block queue'

theorem Reorders.of_perm {queue queue' : List Nat} (h : Run p.treeCache m.tree locks A)
    (hperm : queue'.Perm queue) (hpolicy : p.policy ≠ .dfsWeight) :
    p.Reorders locks A m queue false queue' m :=
  ⟨hperm, h, fun _ => rfl, nofun, fun heq => absurd heq hpolicy⟩

/-- Whatever the policy, the state of the cache and the draws of the shuffle, the call returns and
reorders the queue. -/
theorem calcPriority_keeps_queue (clock draw : Nat → Nat) (running : Option (List Nat))
    (queue : List Nat) (hps : 0 < p.treeCache.pageSize) (h : Run p.treeCache m.tree locks A) :
    ∃ computed queue' m', p.calcPriority clock draw running queue m =
        some (computed, queue', m') ∧ p.Reorders locks A m queue computed queue' m' := by
  cases hpolicy : p.policy with
  | lpm =>
      by_cases hlong : 128 < queue.length
      · exact ⟨false, queue, m, by simp [calcPriority, determineActivePolicy, hpolicy, hlong],
          .of_perm h (.refl _) (by simp [hpolicy])⟩
      · obtain ⟨deprioritized, m', hcompute, hrun, hkeep, hall⟩ :=
          computePrefixMatches_spec p clock queue hps (by rw [hpolicy]; rfl) h
        exact ⟨true, sortByLongestPrefix m'.reqs deprioritized queue, m',
          by simp [calcPriority, determineActivePolicy, hpolicy, hlong, hcompute],
          sortBy_perm _ _, hrun, hkeep.reqs, fun _ => hall, fun heq => by simp [hpolicy] at heq⟩
  | dfsWeight =>
      obtain ⟨deprioritized, m', hcompute, hrun, hkeep, hall⟩ :=
        computePrefixMatches_spec p clock queue hps (by rw [hpolicy]; rfl) h
      obtain ⟨result, block, hsort, hperm, horder⟩ := sortByDfsWeight_spec hps hrun hall
      exact ⟨true, result, m',
        by simp [calcPriority, determineActivePolicy, hpolicy, hcompute, hsort],
        hperm, hrun, hkeep.reqs, fun _ => hall, fun _ => ⟨rfl, block, horder⟩⟩
  | fcfs =>
      refine ⟨false, if p.enablePriorityScheduling then
        sortByPriorityAndFcfs m.reqs p.prioritySign queue else queue, m,
        by simp [calcPriority, hpolicy], .of_perm h ?_ (by simp [hpolicy])⟩
      split
      · exact sortBy_perm _ _
      · exact .refl _
  | lof =>
      exact ⟨false, sortByLongestOutput m.reqs p.enablePriorityScheduling p.prioritySign queue, m,
        by simp [calcPriority, determineActivePolicy, hpolicy],
        .of_perm h (sortByLongestOutput_perm _ _ _) (by simp [hpolicy])⟩
  | random =>
      exact ⟨false, sortRandomly draw queue, m,
        by simp [calcPriority, determineActivePolicy, hpolicy],
        .of_perm h (shuffleLoop_perm _ _ _) (by simp [hpolicy])⟩
  | routingKey =>
      cases running with
      | none =>
          exact ⟨false, queue, m, by simp [calcPriority, determineActivePolicy, hpolicy],
            .of_perm h (.refl _) (by simp [hpolicy])⟩
      | some running =>
          exact ⟨false, sortByRoutingKey m.reqs running queue, m,
            by simp [calcPriority, determineActivePolicy, hpolicy],
            .of_perm h (sortByRoutingKey_perm _ _ _) (by simp [hpolicy])⟩

section Example

/-- Five requests for a tree of the prompts `1 2 3`, `1 2 4` and `5`. -/
def branchingReq (r : Nat) : QueuedReq where
  originInputIds := [[5, 7], [1, 2, 4], [1, 2, 3, 9], [1, 2, 3], [1, 7]].getD r []
  outputIds := []
  fillIds := []
  prefixIndices := []
  extendInputLen := 0
  hostHitLength := 0
  lastNode := none
  maxNewTokens := 1
  ignoreEos := false
  priority := 0
  waitQueueEntryTime := r
  hasInputEmbeds := false
  finished := false
  rid := toString r
  extraKey := none
  routingKey := none

/-- The last request splits the node of the first two tokens. Its part of the tree has four
requests, and the part with `3` two. -/
theorem calcPriority_keeps_queue_branching : ∃ p tree A m',
    SchedulePolicy.init "dfs-weight" simulated false true = some p ∧
    Run p.treeCache tree [] A ∧
    p.calcPriority id id none [0, 1, 2, 3, 4] ⟨branchingReq, tree, .new 0⟩ =
        some (true, [2, 3, 1, 4, 0], m') ∧
      p.Reorders [] A ⟨branchingReq, tree, .new 0⟩ [0, 1, 2, 3, 4] true [2, 3, 1, 4, 0] m' := by
  let p : SchedulePolicy := ⟨.dfsWeight, simulated, fun _ => rfl, false, 1, 32, 32⟩
  have h₁ := Run.call (.insert ⟨[1, 2, 3], none, false⟩ [10, 11, 12] 0 false 1)
    (Run.new (c := simulated) 0) (Nat.le_refl 3) rfl
  have h₂ := Run.call (.insert ⟨[1, 2, 4], none, false⟩ [10, 11, 13] 0 false 2) h₁
    (Nat.le_refl 3) rfl
  have h₃ := Run.call (.insert ⟨[5], none, false⟩ [14] 0 false 3) h₂ (Nat.le_refl 1) rfl
  obtain ⟨computed, queue', m', hcall, hreorders⟩ := calcPriority_keeps_queue (p := p)
    (m := ⟨branchingReq, _, .new 0⟩) id id none [0, 1, 2, 3, 4] Nat.one_pos h₃
  have horder : (some (computed, queue', m')).map (fun r => (r.1, r.2.1)) =
      some (true, [2, 3, 1, 4, 0]) := by
    rw [← hcall]
    decide +kernel
  obtain ⟨rfl, rfl⟩ := Prod.mk.inj (Option.some.inj horder)
  exact ⟨p, _, _, m', rfl, h₃, hcall, hreorders⟩

end Example

end SchedulePolicy

end SpecDecode.Admission
