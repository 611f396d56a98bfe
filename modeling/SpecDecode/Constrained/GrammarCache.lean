import SpecDecode.Constrained.GrammarHeap

/-!
# The grammar cache

The requests hold other objects than the cache, so what the cache holds stays as it was compiled.
The copy of a hit then differs from a newly compiled object at most in its phase.
-/

namespace SpecDecode.Constrained

open Function Heap

namespace GrammarManager

variable {Q M : Type} {b : Backend Q M} {s s' : GrammarManager Q M} {key : GrammarKey}

/-- The cache holds compiled objects, and no request holds any part of them. -/
structure Inv (b : Backend Q M) (s : GrammarManager Q M) : Prop where
  entries : ∀ key a, s.cache key = some a → Entry b s.heap key a
  held : ∀ r ∈ s.reqs, ∀ a, r.grammar = .object a → s.heap.IsReasoner a
  apart : ∀ key c, s.cache key = some c → ∀ r ∈ s.reqs, ∀ a, r.grammar = .object a →
    ∀ d, s.heap.Owns c d → ¬ s.heap.Owns a d
  queued : ∀ r ∈ s.reqs, ∀ key requireReasoning, r.grammar = .future key requireReasoning →
    r.grammarKey = some key

theorem inv_init : Inv b (init : GrammarManager Q M) where
  entries _ _ h := by cases h
  held _ h := by cases h
  apart _ _ h := by cases h
  queued _ h := by cases h

variable {heap : Heap Q M} {r : Req} {a : Nat} {requireReasoning : Bool}

theorem Inv.grow (h : Inv b s) (hp : s.heap <+: heap) : Inv b { s with heap := heap } where
  entries key a ha := (h.entries key a ha).of_isPrefix hp
  held r hr a ha := (h.held r hr a ha).of_isPrefix hp
  apart key c hc r hr a ha d hd hd' := by
    have hentry := h.entries key c hc
    have hheld := h.held r hr a ha
    rw [owns_of_isPrefix hp (hentry.lt_length (.inl rfl))] at hd
    rw [owns_of_isPrefix hp (hheld.lt_length (.inl rfl))] at hd'
    exact h.apart key c hc r hr a ha d hd hd'
  queued := h.queued

theorem Inv.changes (h : Inv b s) (hr : r ∈ s.reqs)
    (ha : r.grammar = .object a) (hch : Changes a s.heap heap) : Inv b { s with heap := heap } where
  entries key c hc := (h.entries key c hc).congr fun d hd =>
    hch.frame d (h.apart key c hc r hr a ha d hd)
  held r hr a ha := hch.isReasoner (h.held r hr a ha)
  apart key c hc r hr a ha d hd hd' := h.apart key c hc r hr a ha d (hch.owns.mp hd)
    (hch.owns.mp hd')
  queued := h.queued

/-- What a request may hold. -/
structure Holds (s : GrammarManager Q M) (r : Req) : Prop where
  held : ∀ a, r.grammar = .object a → s.heap.IsReasoner a
  apart : ∀ a, r.grammar = .object a → ∀ key c, s.cache key = some c → ∀ d, s.heap.Owns c d →
    ¬ s.heap.Owns a d
  queued : ∀ key requireReasoning, r.grammar = .future key requireReasoning →
    r.grammarKey = some key

theorem Inv.holds (h : Inv b s) (hr : r ∈ s.reqs) : Holds s r where
  held := h.held r hr
  apart a ha key c hc := h.apart key c hc r hr a ha
  queued := h.queued r hr

theorem inv_of_holds (hentries : ∀ key a, s.cache key = some a → Entry b s.heap key a)
    (hholds : ∀ r ∈ s.reqs, Holds s r) : Inv b s where
  entries := hentries
  held r hr := (hholds r hr).held
  apart key c hc r hr a ha := (hholds r hr).apart a ha key c hc
  queued r hr := (hholds r hr).queued

theorem Inv.addReq (h : Inv b s) (hr : Holds s r) (queue : List Nat) :
    Inv b { s with reqs := s.reqs ++ [r], grammarQueue := queue } := by
  refine inv_of_holds h.entries fun r' hr' => ?_
  rcases List.mem_append.mp hr' with hr' | hr'
  · have := h.holds hr'
    exact ⟨this.held, this.apart, this.queued⟩
  · obtain rfl := List.mem_singleton.mp hr'
    exact ⟨hr.held, hr.apart, hr.queued⟩

theorem Inv.modifyReq (h : Inv b s) {id : Nat} {f : Req → Req}
    (hf : ∀ r, s.reqs[id]? = some r → Holds s (f r)) : Inv b (s.modifyReq id f) := by
  refine inv_of_holds h.entries fun r hr => ?_
  obtain ⟨i, hi⟩ := List.mem_iff_getElem?.mp hr
  rw [GrammarManager.modifyReq, List.getElem?_modify] at hi
  obtain ⟨r', hr', rfl⟩ := Option.map_eq_some_iff.mp hi
  have hnew : Holds s (if id = i then f r' else r') := by
    split
    · next hid => exact hf r' (hid ▸ hr')
    · exact h.holds (List.mem_of_getElem? hr')
  exact ⟨hnew.held, hnew.apart, hnew.queued⟩

theorem Inv.setCache (h : Inv b s) {c : Nat} (hentry : Entry b s.heap key c)
    (hapart : ∀ r ∈ s.reqs, ∀ a, r.grammar = .object a → ∀ d, s.heap.Owns c d →
      ¬ s.heap.Owns a d) : Inv b (s.setCache key c) := by
  refine inv_of_holds (fun key' a ha => ?_) fun r hr => ⟨(h.holds hr).held, ?_, (h.holds hr).queued⟩
  · change update s.cache key (some c) key' = some a at ha
    by_cases hk : key' = key
    · subst hk
      rw [update_self] at ha
      rwa [← Option.some.inj ha]
    · rw [update_of_ne hk] at ha
      exact h.entries key' a ha
  · intro a ha key' c' hc'
    change update s.cache key (some c) key' = some c' at hc'
    by_cases hk : key' = key
    · subst hk
      rw [update_self] at hc'
      rw [← Option.some.inj hc']
      exact hapart r hr a ha
    · rw [update_of_ne hk] at hc'
      exact (h.holds hr).apart a ha key' c' hc'

theorem holds_none (hr : r.grammar = .none) : Holds s r where
  held a ha := by rw [hr] at ha; cases ha
  apart a ha := by rw [hr] at ha; cases ha
  queued _ _ h := by rw [hr] at h; cases h

theorem holds_future
    (hr : r.grammar = .future key requireReasoning) (hkey : r.grammarKey = some key) :
    Holds s r where
  held a ha := by rw [hr] at ha; cases ha
  apart a ha := by rw [hr] at ha; cases ha
  queued key' _ h := by
    rw [hr] at h
    cases h
    exact hkey

theorem Inv.holds_new (h : Inv b s) (hr : r.grammar = .object a) (hn : IsNew s.heap heap a) :
    Holds { s with heap := heap } r where
  held a' ha' := by
    obtain rfl := GrammarRef.object.inj (hr.symm.trans ha')
    exact hn.isReasoner
  apart a' ha' key c hc d hd hd' := by
    obtain rfl := GrammarRef.object.inj (hr.symm.trans ha')
    have hentry := h.entries key c hc
    have hlt := (hentry.of_isPrefix hn.grows).lt_length hd
    rw [owns_of_isPrefix hn.grows (hentry.lt_length (.inl rfl))] at hd
    exact absurd (hn.behind d hd') (Nat.not_le.mpr (hentry.lt_length hd))
  queued _ _ hq := by rw [hr] at hq; cases hq

inductive Hit (b : Backend Q M) (s : GrammarManager Q M) (key : GrammarKey)
    (requireReasoning : Bool) (c : Nat) : Prop where
  | compiled (comp : Compilation Q M) (i : Nat) (compiledFor : Bool)
      (hkey : b.dispatch key = .compiled comp)
      (entry : s.heap[c]? =
        some (.reasoner (some i) (.maybeInitReasoning compiledFor) b.filter))
      (result : s.getCachedOrFutureValue key requireReasoning =
        ({ s with heap := s.heap ++ [.xgrammar comp comp.matcher,
            .reasoner (some s.heap.length)
              ((Phase.maybeInitReasoning compiledFor).reinit requireReasoning) b.filter] },
          .object (s.heap.length + 1), true))
  | invalid (msg : String) (entry : s.heap[c]? = some (.invalid msg))
      (result : s.getCachedOrFutureValue key requireReasoning = (s, .object c, true))

theorem Inv.hit (h : Inv b s) {c : Nat} (hc : s.cache key = some c) (requireReasoning : Bool) :
    Hit b s key requireReasoning c := by
  have hinvalid : ∀ msg, s.heap[c]? = some (.invalid msg) → Hit b s key requireReasoning c := by
    intro msg ho
    refine .invalid msg ho ?_
    rw [getCachedOrFutureValue, hc]
    dsimp only
    rw [copy_invalid ho]
    dsimp only
    rw [maybeInitReasoning, ho]
  cases h.entries key c hc with
  | compiled comp i compiledFor hkey hne reasoner grammar =>
      refine .compiled comp i compiledFor hkey reasoner ?_
      rw [getCachedOrFutureValue, hc]
      dsimp only
      rw [copy_reasoner reasoner grammar]
      dsimp only
      rw [maybeInitReasoning_pair]
  | invalid msg _ ho => exact hinvalid msg ho
  | raised error _ ho => exact hinvalid _ ho
  | timedOut ho => exact hinvalid _ ho

theorem getCachedOrFutureValue_miss (hc : s.cache key = none) (requireReasoning : Bool) :
    s.getCachedOrFutureValue key requireReasoning =
      (s, .future key requireReasoning, false) := by
  rw [getCachedOrFutureValue, hc]

theorem errorMessage_isReasoner {h : Heap Q M} (ha : h.IsReasoner a) : errorMessage h a = none := by
  obtain ⟨i, hi, -⟩ := ha
  rw [errorMessage]
  split
  · next ho =>
      rw [shapeAt, ho] at hi
      cases hi
  · rfl

theorem changes_applyReasoningBudget (h : Heap Q M)
    (hr : r.grammar = .object a) : Changes a h (applyReasoningBudget h r) := by
  rw [applyReasoningBudget, hr]
  cases r.samplingParams.thinkingBudget with
  | none => exact .refl a h
  | some n => exact changes_setMaxThinkTokens a h n

theorem Inv.addObject (h : Inv b s) (hr : r.grammar = .object a) (hn : IsNew s.heap heap a) :
    Inv b { s with heap := applyReasoningBudget heap r, reqs := s.reqs ++ [r] } := by
  have hadd := (h.grow hn.grows).addReq (h.holds_new hr hn) s.grammarQueue
  exact hadd.changes (List.mem_append_right _ List.mem_cons_self) hr
    (changes_applyReasoningBudget heap hr)

theorem Inv.processKey (h : Inv b s) (r : Req) (key : GrammarKey) : Inv b (s.processKey r key) := by
  cases hc : s.cache key with
  | none =>
      rw [GrammarManager.processKey, getCachedOrFutureValue_miss hc]
      exact h.addReq (holds_future rfl rfl) _
  | some c =>
      cases h.hit hc r.requireReasoning with
      | compiled comp i compiledFor hkey entry result =>
          have hn := isNew_pair s.heap comp comp.matcher
            ((Phase.maybeInitReasoning compiledFor).reinit r.requireReasoning) b.filter
          rw [GrammarManager.processKey, result]
          dsimp only
          rw [errorMessage_isReasoner hn.isReasoner]
          exact h.addObject rfl hn
      | invalid msg entry result =>
          have hmsg : errorMessage s.heap c = some msg := by rw [errorMessage, entry]
          rw [GrammarManager.processKey, result]
          dsimp only
          rw [hmsg]
          exact h.addReq (holds_none rfl) _

private theorem isNew_makeGrammarObject_none (h : Heap Q M) (requireReasoning : Bool) :
    IsNew h (h.makeGrammarObject b none requireReasoning).1
      (h.makeGrammarObject b none requireReasoning).2 :=
  (isNew_single h .new b.filter).changes (changes_maybeInitReasoning _ _ requireReasoning)

theorem Inv.processReqWithGrammar (h : Inv b s) (hr : r.grammar = .none)
    (hstep : s.processReqWithGrammar b r = some s') : Inv b s' := by
  rw [GrammarManager.processReqWithGrammar] at hstep
  split at hstep
  · next key _ =>
      rw [← Option.some.inj hstep]
      exact h.processKey r key
  · cases hstep
  · split at hstep
    · next heap a hobject =>
        rw [initStrictReasoningGrammar] at hobject
        split at hobject
        · obtain rfl := Option.some.inj hobject |> congrArg Prod.fst
          obtain rfl := Option.some.inj hobject |> congrArg Prod.snd
          rw [← Option.some.inj hstep]
          exact h.addObject rfl (isNew_makeGrammarObject_none s.heap r.requireReasoning)
        · cases hobject
    · rw [← Option.some.inj hstep]
      exact h.addReq (holds_none hr) _

theorem Inv.abortRequests (h : Inv b s) (abortAll : Bool) (rid : String) :
    Inv b (s.abortRequests abortAll rid) := by
  rw [GrammarManager.abortRequests]
  generalize s.grammarQueue = queue
  induction queue generalizing s with
  | nil => exact h
  | cons id queue ih =>
      refine ih (h.modifyReq fun r hr => ?_)
      split
      · exact holds_none rfl
      · exact h.holds (List.mem_of_getElem? hr)

theorem Inv.cacheNew (h : Inv b s) {c : Nat} (hp : s.heap <+: heap)
    (hentry : Entry b heap key c) (hbehind : ∀ d, heap.Owns c d → s.heap.length ≤ d) :
    Inv b ({ s with heap := heap }.setCache key c) := by
  refine (h.grow hp).setCache hentry fun r hr a ha d hd hd' => ?_
  have hheld := h.held r hr a ha
  rw [owns_of_isPrefix hp (hheld.lt_length (.inl rfl))] at hd'
  exact absurd (hbehind d hd) (Nat.not_le.mpr (hheld.lt_length hd'))

theorem Inv.cacheInvalid (h : Inv b s) {msg : String}
    (hentry : Entry b (s.heap ++ [GrammarObject.invalid msg]) key s.heap.length) :
    Inv b ({ s with heap := s.heap ++ [GrammarObject.invalid msg] }.setCache key
      s.heap.length) := by
  refine h.cacheNew (List.prefix_append _ _) hentry fun d hd => ?_
  rcases hd with rfl | hd
  · exact Nat.le_refl _
  · simp [shapeAt, GrammarObject.shape] at hd

theorem getElem?_new (h : Heap Q M) (o : GrammarObject Q M) : (h ++ [o])[h.length]? = some o :=
  List.getElem?_concat_length

theorem resultOf_cases (b : Backend Q M) (h : Heap Q M) (key : GrammarKey)
    (requireReasoning : Bool) :
    (∃ comp, b.dispatch key = .compiled comp ∧ resultOf b h key requireReasoning =
      (h ++ [.xgrammar comp comp.matcher,
        .reasoner (some h.length) (.maybeInitReasoning requireReasoning) b.filter],
        h.length + 1)) ∨
    ∃ msg, Entry b (h ++ [.invalid msg]) key h.length ∧
      resultOf b h key requireReasoning = (h ++ [.invalid msg], h.length) := by
  cases hkey : b.dispatch key with
  | compiled comp =>
      refine .inl ⟨comp, rfl, ?_⟩
      rw [resultOf, initValueDispatch_compiled hkey]
  | invalid msg =>
      refine .inr ⟨msg, .invalid msg hkey (getElem?_new h _), ?_⟩
      rw [resultOf, initValueDispatch, hkey]
      rfl
  | raises error =>
      refine .inr ⟨_, .raised error hkey (getElem?_new h _), ?_⟩
      rw [resultOf, initValueDispatch, hkey]
      rfl

theorem Inv.returnReady (h : Inv b s) {i : Nat} (hstep : s.returnReady b i = some s') :
    Inv b s' := by
  obtain ⟨id, hid, hstep⟩ := Option.bind_eq_some_iff.mp hstep
  obtain ⟨r, hr, hstep⟩ := Option.bind_eq_some_iff.mp hstep
  have hmem : r ∈ s.reqs := List.mem_of_getElem? hr
  split at hstep
  · rwa [← Option.some.inj hstep]
  split at hstep
  · next key requireReasoning grammarKey hfuture hgrammarKey =>
      obtain rfl : key = grammarKey :=
        Option.some.inj ((h.queued r hmem _ _ hfuture).symm.trans hgrammarKey)
      rcases resultOf_cases b s.heap key requireReasoning with
        ⟨comp, hkey, hresult⟩ | ⟨msg, hentry, hresult⟩
      · have hn := isNew_pair s.heap comp comp.matcher
          (.maybeInitReasoning requireReasoning) b.filter
        set heap : Heap Q M := s.heap ++ [.xgrammar comp comp.matcher,
          .reasoner (some s.heap.length) (.maybeInitReasoning requireReasoning) b.filter] with hheap
        have hreasoner : heap[s.heap.length + 1]? = some (.reasoner (some s.heap.length)
          (.maybeInitReasoning requireReasoning) b.filter) := by simp [hheap]
        have hgrammar : heap[s.heap.length]? = some (.xgrammar comp comp.matcher) := by
          simp [hheap]
        have hcopy := copy_reasoner hreasoner hgrammar
        have hn' := isNew_pair heap comp comp.matcher
          (.maybeInitReasoning requireReasoning) b.filter
        simp only [hresult, hcopy] at hstep
        -- First the request gets its object, then the copy is cached, last comes the budget.
        have hheld : Inv b ({ s with heap := heap }.modifyReq id
            fun r => { r with grammar := .object (s.heap.length + 1) }) :=
          (h.grow hn.grows).modifyReq fun r _ => h.holds_new rfl hn
        have hcached := hheld.cacheNew hn'.grows
          (.compiled comp heap.length requireReasoning hkey (Nat.ne_of_lt (Nat.lt_succ_self _))
            (by simp) (by simp)) hn'.behind
        have hmem' : { r with grammar := .object (s.heap.length + 1) } ∈
            s.reqs.modify id fun r => { r with grammar := .object (s.heap.length + 1) } :=
          List.mem_of_getElem? (i := id) (by rw [List.getElem?_modify, hr]; simp)
        have hlast := hcached.changes hmem' rfl (changes_applyReasoningBudget _
          (r := { r with grammar := .object (s.heap.length + 1) }) rfl)
        have hnone : errorMessage (applyReasoningBudget (heap ++ [.xgrammar comp comp.matcher,
            .reasoner (some heap.length) (.maybeInitReasoning requireReasoning) b.filter])
            { r with grammar := .object (s.heap.length + 1) }) (s.heap.length + 1) = none :=
          errorMessage_isReasoner (hlast.held _ hmem' _ rfl)
        simp only [GrammarManager.setCache, hnone] at hstep
        rw [← Option.some.inj hstep]
        exact hlast
      · have hobject := getElem?_new s.heap (.invalid msg)
        have hbudget : applyReasoningBudget (s.heap ++ [.invalid msg])
            { r with grammar := .object s.heap.length } = s.heap ++ [.invalid msg] := by
          rw [applyReasoningBudget]
          cases r.samplingParams.thinkingBudget with
          | none => rfl
          | some n =>
              dsimp only
              rw [setMaxThinkTokens, hobject]
        have hmsg : errorMessage (s.heap ++ [.invalid msg]) s.heap.length = some msg := by
          rw [errorMessage, hobject]
        simp only [hresult, copy_invalid hobject, GrammarManager.setCache, hbudget, hmsg] at hstep
        rw [← Option.some.inj hstep]
        exact (h.cacheInvalid hentry).modifyReq fun r _ => holds_none rfl
  · cases hstep

theorem Inv.returnFailed (h : Inv b s) {i : Nat} (hstep : s.returnFailed i = some s') :
    Inv b s' := by
  obtain ⟨id, hid, hstep⟩ := Option.bind_eq_some_iff.mp hstep
  obtain ⟨r, hr, hstep⟩ := Option.bind_eq_some_iff.mp hstep
  split at hstep
  · rw [← Option.some.inj hstep]
    exact (h.cacheInvalid (.timedOut (getElem?_new s.heap _))).modifyReq fun r _ => holds_none rfl
  · cases hstep

theorem Inv.foldlM {α : Type} (f : GrammarManager Q M → α → Option (GrammarManager Q M))
    (hf : ∀ {s s' : GrammarManager Q M} {x : α}, Inv b s → f s x = some s' → Inv b s')
    (h : Inv b s) {xs : List α} (hstep : xs.foldlM f s = some s') : Inv b s' := by
  induction xs generalizing s with
  | nil => rwa [← Option.some.inj hstep]
  | cons x xs ih =>
      rw [List.foldlM_cons] at hstep
      obtain ⟨s₁, hs₁, hstep⟩ := Option.bind_eq_some_iff.mp hstep
      exact ih (hf h hs₁) hstep

theorem Inv.getReadyGrammarRequests (h : Inv b s) {ready failed : List Nat} {returned : List Nat}
    (hstep : s.getReadyGrammarRequests b ready failed = some (s', returned)) : Inv b s' := by
  obtain ⟨s₁, hs₁, hstep⟩ := Option.bind_eq_some_iff.mp hstep
  obtain ⟨s₂, hs₂, hstep⟩ := Option.bind_eq_some_iff.mp hstep
  have h₁ : Inv b s₁ := h.foldlM _ (fun h hs => h.returnReady hs) hs₁
  have h₂ : Inv b s₂ := h₁.foldlM _ (fun h hs => h.returnFailed hs) hs₂
  cases hstep
  exact ⟨h₂.entries, h₂.held, h₂.apart, h₂.queued⟩

/-- What a request does to its object leaves the rest of the memory alone. -/
private theorem callObject_changes {h h' : Heap Q M} {c : ObjectCall}
    (hcall : callObject h a c = some h') : Changes a h h' := by
  cases c with
  | acceptToken token => exact changes_acceptToken hcall
  | rollback k => exact changes_rollback hcall

theorem call_cases (s : GrammarManager Q M) (id : Nat) (c : ObjectCall) :
    s.call id c = s ∨ ∃ r ∈ s.reqs, ∃ a heap, r.grammar = .object a ∧ Changes a s.heap heap ∧
      s.call id c = { s with heap := heap } := by
  rw [call]
  split
  · next r hr =>
      split
      · next a ha =>
          refine .inr ⟨r, List.mem_of_getElem? hr, a, _, ha, ?_, rfl⟩
          cases hcall : callObject s.heap a c with
          | none => exact .refl a s.heap
          | some heap => exact callObject_changes hcall
      · exact .inl rfl
  · exact .inl rfl

theorem Inv.step (h : Inv b s) {e : GrammarEvent} (hstep : s.step b e = some s') : Inv b s' := by
  cases e with
  | process rid params requireReasoning => exact h.processReqWithGrammar rfl hstep
  | getReady ready failed =>
      obtain ⟨⟨s₁, returned⟩, hs₁, rfl⟩ := Option.map_eq_some_iff.mp hstep
      exact h.getReadyGrammarRequests hs₁
  | abort abortAll rid =>
      rw [← Option.some.inj hstep]
      exact h.abortRequests abortAll rid
  | call id c =>
      rw [← Option.some.inj hstep]
      rcases call_cases s id c with heq | ⟨r, hr, a, heap, ha, hch, heq⟩
      · rwa [heq]
      · rw [heq]
        exact h.changes hr ha hch
  | clear =>
      rw [← Option.some.inj hstep]
      exact ⟨nofun, h.held, nofun, h.queued⟩

theorem run_inv {events : List GrammarEvent} (hrun : run b events = some s) : Inv b s :=
  inv_init.foldlM _ (fun h hs => h.step hs) hrun

/-- The object that is cached for `key` has left its thinking phase. -/
def CachedInGeneration (s : GrammarManager Q M) (key : GrammarKey) : Prop :=
  ∃ a i phase f, s.cache key = some a ∧ s.heap[a]? = some (.reasoner i phase f) ∧
    phase.isGeneration

/-- What a hit serves: an object that answers as a newly compiled one does, or the object that
stands for a compilation that raised or took too long. -/
inductive ServedAs (b : Backend Q M) (h : Heap Q M) (a : Nat) (key : GrammarKey)
    (requireReasoning : Bool) : Prop where
  | fresh (h₀ : Heap Q M) (a₀ : Nat)
      (compiled : Heap.initValueDispatch b [] key requireReasoning = .ok (h₀, a₀))
      (message : errorMessage h a = errorMessage h₀ a₀)
      (alike : ∀ tokens, h.observe a tokens = h₀.observe a₀ tokens)
  | raised (error : String)
      (compiled : Heap.initValueDispatch b [] key requireReasoning = .error error)
      (message : errorMessage h a = some s!"Grammar compilation failed: {error}")
  | timedOut (message : errorMessage h a = some "Grammar preprocessing timed out")

theorem load_pair (h : Heap Q M) (comp : Compilation Q M) (phase : Phase) (f : ThinkFilter M) :
    load (h ++ [.xgrammar comp comp.matcher, .reasoner (some h.length) phase f]) (h.length + 1) =
      some (f.config comp.ctx, ⟨some comp.matcher, phase⟩) :=
  load_reasoner (i := h.length) (by simp) (by simp)

theorem reinit_maybeInitReasoning {compiledFor : Bool}
    (h : requireReasoning = true → compiledFor = true) :
    (Phase.maybeInitReasoning compiledFor).reinit requireReasoning =
      .maybeInitReasoning requireReasoning := by
  cases requireReasoning with
  | true =>
      rw [h rfl]
      rfl
  | false => cases compiledFor <;> rfl

theorem observe_invalid {h : Heap Q M} {msg : String}
    (ho : h[a]? = some (.invalid msg)) (tokens : List Nat) : h.observe a tokens = none := by
  have hl : h.load a = none := by rw [load, ho]
  cases tokens with
  | nil =>
      change (h.load a).map _ = none
      rw [hl, Option.map_none]
  | cons token tokens =>
      rw [observe, Heap.acceptAll, List.foldlM_cons, Heap.acceptToken, hl]
      rfl

theorem Inv.servedAs (h : Inv b s)
    (hhit : s.getCachedOrFutureValue key requireReasoning = (s', .object a, true))
    (hphase : requireReasoning = true → ¬ s.CachedInGeneration key) :
    ServedAs b s'.heap a key requireReasoning := by
  cases hc : s.cache key with
  | none =>
      rw [getCachedOrFutureValue_miss hc] at hhit
      cases hhit
  | some c =>
      cases h.hit hc requireReasoning with
      | compiled comp i compiledFor hkey entry result =>
          rw [result] at hhit
          cases hhit
          have hfor : requireReasoning = true → compiledFor = true := by
            intro hr
            by_contra hnot
            rw [Bool.not_eq_true] at hnot
            refine hphase hr ⟨c, _, _, _, hc, entry, ?_⟩
            rw [hnot]
            rfl
          rw [reinit_maybeInitReasoning hfor]
          refine .fresh _ _ (initValueDispatch_compiled hkey [] requireReasoning) ?_
            fun tokens => ?_
          · rw [errorMessage_isReasoner (isNew_pair ..).isReasoner]
            exact (errorMessage_isReasoner (isNew_pair [] ..).isReasoner).symm
          · refine observe_congr ?_ tokens
            rw [load_pair]
            exact (load_pair [] ..).symm
      | invalid msg entry result =>
          rw [result] at hhit
          cases hhit
          have hmsg : errorMessage s.heap a = some msg := by rw [errorMessage, entry]
          cases h.entries key a hc with
          | compiled comp i compiledFor hkey hne reasoner grammar =>
              rw [entry] at reasoner
              cases reasoner
          | invalid msg' hkey ho =>
              rw [entry] at ho
              cases ho
              refine .fresh [.invalid msg] 0 ?_ hmsg fun tokens => ?_
              · rw [Heap.initValueDispatch, hkey]
                rfl
              · have ho : ([.invalid msg] : Heap Q M)[0]? = some (.invalid msg) := rfl
                rw [observe_invalid entry, observe_invalid ho]
          | raised error hkey ho =>
              rw [entry] at ho
              cases ho
              refine .raised error ?_ hmsg
              rw [Heap.initValueDispatch, hkey]
          | timedOut ho =>
              rw [entry] at ho
              cases ho
              exact .timedOut hmsg

/-- A call on the object of a request leaves the cached objects alone. -/
theorem Inv.getElem?_call (h : Inv b s) {c : Nat} (hc : s.cache key = some c) (id : Nat)
    (oc : ObjectCall) : (s.call id oc).heap[c]? = s.heap[c]? ∧ (s.call id oc).cache = s.cache := by
  rcases call_cases s id oc with heq | ⟨r, hr, a, heap, ha, hch, heq⟩
  · rw [heq]
    exact ⟨rfl, rfl⟩
  · rw [heq]
    exact ⟨hch.frame c (h.apart key c hc r hr a ha c (.inl rfl)), rfl⟩

/-- What a hit serves does not depend on the calls of requests on their objects. -/
theorem Inv.served_call (h : Inv b s)
    (hhit : s.getCachedOrFutureValue key requireReasoning = (s', .object a, true)) (id : Nat)
    (oc : ObjectCall) :
    ∃ s₂ a₂, (s.call id oc).getCachedOrFutureValue key requireReasoning = (s₂, .object a₂, true) ∧
      errorMessage s₂.heap a₂ = errorMessage s'.heap a ∧
      ∀ tokens, s₂.heap.observe a₂ tokens = s'.heap.observe a tokens := by
  have hcall : Inv b (s.call id oc) := h.step (e := .call id oc) rfl
  cases hc : s.cache key with
  | none =>
      rw [getCachedOrFutureValue_miss hc] at hhit
      cases hhit
  | some c =>
      obtain ⟨hsame, hcache⟩ := h.getElem?_call hc id oc
      have hc₂ : (s.call id oc).cache key = some c := by rw [hcache, hc]
      cases h.hit hc requireReasoning with
      | compiled comp i compiledFor hkey entry result =>
          rw [result] at hhit
          cases hhit
          cases hcall.hit hc₂ requireReasoning with
          | compiled comp₂ i₂ compiledFor₂ hkey₂ entry₂ result₂ =>
              obtain rfl : comp = comp₂ := Dispatched.compiled.inj (hkey.symm.trans hkey₂)
              have hphase : Phase.maybeInitReasoning compiledFor₂ =
                  .maybeInitReasoning compiledFor := by
                rw [hsame, entry] at entry₂
                exact (GrammarObject.reasoner.inj (Option.some.inj entry₂)).2.1.symm
              refine ⟨_, _, result₂, ?_, fun tokens => observe_congr ?_ tokens⟩
              · rw [errorMessage_isReasoner (isNew_pair ..).isReasoner,
                  errorMessage_isReasoner (isNew_pair ..).isReasoner]
              · rw [load_pair, load_pair, hphase]
          | invalid msg entry₂ result₂ =>
              rw [hsame, entry] at entry₂
              cases entry₂
      | invalid msg entry result =>
          rw [result] at hhit
          cases hhit
          cases hcall.hit hc₂ requireReasoning with
          | compiled comp₂ i₂ compiledFor₂ hkey₂ entry₂ result₂ =>
              rw [hsame, entry] at entry₂
              cases entry₂
          | invalid msg₂ entry₂ result₂ =>
              refine ⟨_, _, result₂, ?_, fun tokens => ?_⟩
              · rw [errorMessage, errorMessage, hsame]
              · rw [observe_invalid entry₂, observe_invalid entry]

/-- In every run a hit serves an object that answers as a newly compiled one does, whatever the
requests do to their objects, as long as no request that requires reasoning gets an object that
was compiled for one that does not. -/
theorem run_served {events : List GrammarEvent} (hrun : run b events = some s)
    {requireReasoning : Bool} {a : Nat}
    (hhit : s.getCachedOrFutureValue key requireReasoning = (s', .object a, true))
    (hphase : requireReasoning = true → ¬ s.CachedInGeneration key) :
    ServedAs b s'.heap a key requireReasoning ∧ ∀ id oc, ∃ s₂ a₂,
      (s.call id oc).getCachedOrFutureValue key requireReasoning = (s₂, .object a₂, true) ∧
      errorMessage s₂.heap a₂ = errorMessage s'.heap a ∧
      ∀ tokens, s₂.heap.observe a₂ tokens = s'.heap.observe a tokens :=
  ⟨(run_inv hrun).servedAs hhit hphase, (run_inv hrun).served_call hhit⟩

/-- A grammar of one token. -/
def oneTokenBackend : Backend Bool Unit where
  dispatch _ := .compiled
    ⟨⟨fun q token => if !q && token == 20 then some true else none, id, fun _ mask _ => mask⟩,
      false⟩
  filter := ⟨7, none, -1, false, none⟩
  enableStrictThinking := false

def oneTokenParams : SamplingParams := ⟨none, some "a", none, none, none⟩

/-- The first request with the key is compiled and cached. -/
def firstRequest (requireReasoning : Bool) : List GrammarEvent :=
  [.process "first" oneTokenParams requireReasoning, .getReady [0] []]

def firstHeap (requireReasoning : Bool) (phase : Phase) : Heap Bool Unit :=
  let c : Compilation Bool Unit :=
    ⟨⟨fun q token => if !q && token == 20 then some true else none, id, fun _ mask _ => mask⟩,
      false⟩
  [.xgrammar c c.matcher, .reasoner (some 0) phase oneTokenBackend.filter, .xgrammar c c.matcher,
    .reasoner (some 2) (.maybeInitReasoning requireReasoning) oneTokenBackend.filter]

def firstReturned (requireReasoning : Bool) (phase : Phase) : GrammarManager Bool Unit where
  heap := firstHeap requireReasoning phase
  cache := update (fun _ => none) ("regex", "a") (some 3)
  reqs := [{ Req.new "first" oneTokenParams requireReasoning with
    grammar := .object 1, grammarKey := some ("regex", "a") }]
  grammarQueue := []

theorem run_firstRequest (requireReasoning : Bool) :
    run oneTokenBackend (firstRequest requireReasoning) =
      some (firstReturned requireReasoning (.maybeInitReasoning requireReasoning)) := by
  cases requireReasoning <;> rfl

theorem firstReturned_cache (requireReasoning : Bool) (phase : Phase) :
    (firstReturned requireReasoning phase).cache ("regex", "a") = some 3 := by
  simp [firstReturned]

theorem firstReturned_hit (requireReasoning : Bool) (phase : Phase) :
    ∃ s, (firstReturned requireReasoning phase).getCachedOrFutureValue ("regex", "a") true =
        (s, .object 5, true) ∧
      s.heap[4]? = (firstHeap requireReasoning phase)[2]? ∧
      s.heap[5]? = some (.reasoner (some 4)
        ((Phase.maybeInitReasoning requireReasoning).reinit true) oneTokenBackend.filter) := by
  rw [getCachedOrFutureValue, firstReturned_cache]
  exact ⟨_, rfl, rfl, rfl⟩

theorem run_served_thinkingFirst : ∃ s s',
    run oneTokenBackend (firstRequest true ++ [.call 0 (.acceptToken 10)]) = some s ∧
      s.getCachedOrFutureValue ("regex", "a") true = (s', .object 5, true) ∧
      ServedAs oneTokenBackend s'.heap 5 ("regex", "a") true := by
  have hrun : run oneTokenBackend (firstRequest true ++ [.call 0 (.acceptToken 10)]) =
      some (firstReturned true ⟨1, -1⟩) := rfl
  obtain ⟨s', hhit, -⟩ := firstReturned_hit true ⟨1, -1⟩
  refine ⟨_, s', hrun, hhit, (run_served hrun hhit fun _ hgen => ?_).1⟩
  obtain ⟨a, i, phase, f, hc, ho, hgen⟩ := hgen
  obtain rfl : 3 = a := Option.some.inj ((firstReturned_cache true ⟨1, -1⟩).symm.trans hc)
  cases ho
  cases hgen

/-- A request that requires reasoning gets an object that raises on its first thinking token,
which a newly compiled one accepts. -/
theorem served_inGeneration : ∃ s s' h₀ a₀,
    run oneTokenBackend (firstRequest false) = some s ∧
      s.getCachedOrFutureValue ("regex", "a") true = (s', .object 5, true) ∧
      s'.heap.observe 5 [10] = none ∧
      Heap.initValueDispatch oneTokenBackend [] ("regex", "a") true = .ok (h₀, a₀) ∧
      (h₀.observe a₀ [10]).isSome = true := by
  obtain ⟨s', hhit, hgrammar, hreasoner⟩ := firstReturned_hit false (.maybeInitReasoning false)
  refine ⟨_, s', _, _, run_firstRequest false, hhit, ?_, rfl, rfl⟩
  have hload := load_reasoner hreasoner hgrammar
  rw [observe, Heap.acceptAll, List.foldlM_cons, Heap.acceptToken, hload]
  rfl

end GrammarManager

end SpecDecode.Constrained
