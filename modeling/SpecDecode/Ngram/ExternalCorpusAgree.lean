import SpecDecode.Ngram.ExternalCorpusRun

/-!
# The bookkeeping of external corpora agrees with the store

`Moved` says what a step does to the automata that are held and to the corpora that are
known to the bookkeeping. The two agree up to the load that has finished and waits for its
commit, the tokens that are held never exceed the budget, and a load that fails leaves
nothing behind.
-/

namespace SpecDecode.ExternalCorpus

variable {externalCorpusMaxTokens : Nat} {m m' : Manager} {corpusId : String} {n : Nat}

/-- The token count of a corpus that is held. -/
def Ngram.tokenCount? (o : Ngram) (corpusId : String) : Option Nat :=
  (o.sams.lookup corpusId).map SuffixAutomaton.tokenCount

/-- A corpus is counted, or its load has finished and will be. -/
def Manager.Known (m : Manager) (corpusId : String) (n : Nat) : Prop :=
  m.corpus.corpusTokenCounts.lookup corpusId = some n ∨ m.uncommitted = some (corpusId, n)

inductive Moved (m m' : Manager) : Action → Prop where
  | same {act : Action}
      (held : ∀ i, m'.corpus.obj.tokenCount? i = m.corpus.obj.tokenCount? i)
      (known : ∀ i k, m'.Known i k ↔ m.Known i k) : Moved m m' act
  | installed {act : Action} (corpusId : String) (n : Nat) (fresh : ∀ k, ¬ m.Known corpusId k)
      (held : ∀ i, m'.corpus.obj.tokenCount? i =
        if i = corpusId then some n else m.corpus.obj.tokenCount? i)
      (known : ∀ i k, m'.Known i k ↔ (i = corpusId ∧ k = n) ∨ m.Known i k) : Moved m m' act
  | removed {corpusId : String}
      (held : ∀ i, m'.corpus.obj.tokenCount? i =
        if i = corpusId then none else m.corpus.obj.tokenCount? i)
      (known : ∀ i k, m'.Known i k ↔
        (i ≠ corpusId ∧ m.Known i k) ∨ (i = corpusId ∧ m.uncommitted = some (i, k))) :
      Moved m m' (.remove corpusId)

theorem Moved.of_eq {act : Action} (hsams : m'.corpus.obj.sams = m.corpus.obj.sams)
    (hcounts : m'.corpus.corpusTokenCounts = m.corpus.corpusTokenCounts)
    (huncommitted : m'.uncommitted = m.uncommitted) : Moved m m' act := by
  refine .same (fun i => ?_) (fun i k => ?_)
  · unfold Ngram.tokenCount?
    rw [hsams]
  · unfold Manager.Known
    rw [hcounts, huncommitted]

@[simp] theorem lookup_insert_eq {β : Type} (i : String) (b : β) (s : AList fun _ : String => β)
    (j : String) : (s.insert i b).lookup j = if j = i then some b else s.lookup j := by
  split
  · next h =>
      subst h
      exact AList.lookup_insert s
  · next h => exact AList.lookup_insert_ne h

@[simp]
theorem lookup_erase_eq {β : Type} (i : String) (s : AList fun _ : String => β) (j : String) :
    (s.erase i).lookup j = if j = i then none else s.lookup j := by
  split
  · next h =>
      subst h
      exact AList.lookup_erase j s
  · next h => exact AList.lookup_erase_ne h

theorem Inv.moved_load (h : Inv externalCorpusMaxTokens m) (exception : Option String) :
    Moved m (m.load exception) (.load exception) := by
  unfold Manager.load
  cases hpending : m.pendingLoad with
  | none => exact .of_eq rfl rfl rfl
  | some load =>
      obtain ⟨req, loader⟩ := load
      have hok := h.pending hpending
      have hcalled := loader.step_called req exception m.corpus
      dsimp only
      generalize loader.step req exception m.corpus = next at hcalled ⊢
      obtain ⟨loader', c'⟩ := next
      dsimp only at hcalled ⊢
      cases hcalled with
      | staged stagingSam hold hnew =>
          refine .of_eq rfl rfl ?_
          rw [m.uncommitted_of_notLoaded hpending hold]
          exact Manager.uncommitted_of_notLoaded rfl hnew
      | installed sam hfresh hstaging =>
          obtain ⟨⟨sam', hsam, hcount⟩, hnot, -, -⟩ := hok
          cases hstaging.symm.trans hsam
          have hnone := m.uncommitted_of_notLoaded hpending nofun
          refine .installed req.corpusId sam.tokenCount (fun k hknown => ?_)
            (fun i => ?_) fun i k => ?_
          · rcases hknown with hcounted | hfinished
            · rw [AList.lookup_eq_none.mpr hnot] at hcounted
              cases hcounted
            · rw [hnone] at hfinished
              cases hfinished
          · unfold Ngram.tokenCount?
            dsimp only
            rw [lookup_insert_eq]
            split <;> rfl
          · unfold Manager.Known
            rw [hnone, ← hcount]
            simp only [Manager.uncommitted, Option.some.injEq, Prod.mk.injEq,
              reduceCtorEq, or_false]
            rw [or_comm, eq_comm, @eq_comm _ sam.tokenCount]
      | ended =>
          refine .of_eq rfl rfl ?_
          unfold Manager.uncommitted
          rw [hpending]

theorem Inv.moved_checkPendingLoad (h : Inv externalCorpusMaxTokens m) :
    Moved m m.checkPendingLoad .checkPendingLoad := by
  unfold Manager.checkPendingLoad
  split
  · next req n hpending =>
      obtain ⟨-, hnot, -⟩ := h.pending hpending
      refine .same (fun i => rfl) fun i k => ?_
      unfold Manager.Known NgramCorpus.commitExternalCorpusLoad
      simp only [Manager.uncommitted, hpending, reduceCtorEq, or_false, Option.some.injEq,
        Prod.mk.injEq]
      rw [lookup_insert_eq]
      split
      · next hi =>
          rw [hi, AList.lookup_eq_none.mpr hnot]
          simp
      · next hi => simp [Ne.symm hi]
  · next hpending =>
      refine .of_eq rfl rfl ?_
      rw [m.uncommitted_of_notLoaded hpending nofun]
      rfl
  · exact .of_eq rfl rfl rfl

private theorem moved_remove (m : Manager) (corpusId : String) :
    Moved m { m with corpus := m.corpus.removeExternalCorpus corpusId } (.remove corpusId) := by
  refine .removed (fun i => ?_) fun i k => ?_
  · unfold Ngram.tokenCount? NgramCorpus.removeExternalCorpus Ngram.removeExternalCorpus
    dsimp only
    rw [lookup_erase_eq]
    split <;> rfl
  · unfold Manager.Known NgramCorpus.removeExternalCorpus
    dsimp only
    rw [lookup_erase_eq]
    split
    · next hi => simp [hi, Manager.uncommitted]
    · next hi => simp [hi, Manager.uncommitted]

theorem Inv.moved (h : Inv externalCorpusMaxTokens m) (act : Action) :
    Moved m (m.step act) act := by
  cases act with
  | add req =>
      simp only [Manager.step, Manager.add]
      cases hpending : m.pendingLoad with
      | some load => exact .of_eq rfl rfl rfl
      | none => exact .of_eq rfl rfl (m.uncommitted_of_none hpending).symm
  | remove corpusId => exact moved_remove m corpusId
  | list => exact .of_eq rfl rfl rfl
  | load exception => exact h.moved_load exception
  | checkPendingLoad => exact h.moved_checkPendingLoad

variable {admissible : Manager → Action → Prop} {acts : List Action}

theorem Reach.known
    (h : Reach admissible externalCorpusMaxTokens m) :
    m.corpus.obj.tokenCount? corpusId = some n → m.Known corpusId n := by
  induction h generalizing corpusId n with
  | init => nofun
  | step act hreach _ ih =>
      intro hcount
      cases hreach.inv.moved act with
      | same held known =>
          rw [held] at hcount
          exact (known _ _).mpr (ih hcount)
      | installed i k fresh held known =>
          rw [held] at hcount
          rw [known]
          split at hcount
          · next hi => exact .inl ⟨hi, (Option.some.inj hcount).symm⟩
          · exact .inr (ih hcount)
      | removed held known =>
          rw [held] at hcount
          rw [known]
          split at hcount
          · cases hcount
          · next hi => exact .inl ⟨hi, ih hcount⟩

/-- No corpus is removed between the end of its load and its commit. -/
def KeepsFinished (m : Manager) (act : Action) : Prop :=
  ∀ corpusId n, act = .remove corpusId → m.uncommitted ≠ some (corpusId, n)

theorem Reach.held (h : Reach KeepsFinished externalCorpusMaxTokens m) :
    m.Known corpusId n → m.corpus.obj.tokenCount? corpusId = some n := by
  induction h generalizing corpusId n with
  | init =>
      intro hknown
      rcases hknown with hcounted | hfinished
      · cases hcounted
      · cases hfinished
  | step act hreach hkeeps ih =>
      intro hknown
      cases hreach.inv.moved act with
      | same held known =>
          rw [held]
          exact ih ((known _ _).mp hknown)
      | installed i k fresh held known =>
          rw [held]
          rcases (known _ _).mp hknown with ⟨rfl, rfl⟩ | hold
          · rw [if_pos rfl]
          · rw [if_neg (by rintro rfl; exact fresh _ hold)]
            exact ih hold
      | removed held known =>
          rw [held]
          rcases (known _ _).mp hknown with ⟨hne, hold⟩ | ⟨rfl, hfinished⟩
          · rw [if_neg hne]
            exact ih hold
          · exact absurd hfinished (hkeeps _ _ rfl)

def Manager.uncommittedTokens (m : Manager) : Nat := (m.uncommitted.map Prod.snd).getD 0

def Manager.settledCounts (m : Manager) : AList fun _ : String => Nat :=
  match m.uncommitted with
  | some (corpusId, n) => m.corpus.corpusTokenCounts.insert corpusId n
  | none => m.corpus.corpusTokenCounts

section

variable (h : Inv externalCorpusMaxTokens m)

include h

theorem Inv.uncommitted_ok
    (hfinished : m.uncommitted = some (corpusId, n)) : corpusId ∉ m.corpus.corpusTokenCounts ∧
      m.corpus.totalLoadedTokens + n ≤ externalCorpusMaxTokens := by
  obtain ⟨req, rfl, hpending⟩ := Manager.pendingLoad_of_uncommitted hfinished
  obtain ⟨-, hnot, hle⟩ := h.pending hpending
  rw [h.max] at hle
  exact ⟨hnot, hle⟩

theorem Inv.settledCounts_lookup :
    m.settledCounts.lookup corpusId = some n ↔ m.Known corpusId n := by
  unfold Manager.settledCounts Manager.Known
  cases hfinished : m.uncommitted with
  | none => simp
  | some load =>
      obtain ⟨i, k⟩ := load
      have hnot := (h.uncommitted_ok hfinished).1
      dsimp only
      rw [lookup_insert_eq]
      split
      · next hi =>
          rw [hi, AList.lookup_eq_none.mpr hnot]
          simp
      · next hi => simp [Ne.symm hi]

theorem Inv.settledCounts_sum :
    (valueSum id m.settledCounts : Int) = m.corpus.totalLoadedTokens + m.uncommittedTokens := by
  rw [h.total]
  unfold Manager.settledCounts Manager.uncommittedTokens
  cases hfinished : m.uncommitted with
  | none => simp
  | some load =>
      obtain ⟨i, k⟩ := load
      simp [valueSum_insert (h.uncommitted_ok hfinished).1]

theorem Inv.uncommitted_le :
    m.corpus.totalLoadedTokens + m.uncommittedTokens ≤ externalCorpusMaxTokens := by
  unfold Manager.uncommittedTokens
  cases hfinished : m.uncommitted with
  | none => simpa using h.total_le
  | some load => exact (h.uncommitted_ok hfinished).2

end

theorem Reach.heldTokens_le
    (h : Reach admissible externalCorpusMaxTokens m) :
    (m.corpus.obj.heldTokens : Int) ≤ m.corpus.totalLoadedTokens + m.uncommittedTokens := by
  rw [← h.inv.settledCounts_sum, Int.ofNat_le]
  refine valueSum_le fun i sam hsam => ⟨_, ?_, rfl⟩
  rw [h.inv.settledCounts_lookup]
  exact h.known (by unfold Ngram.tokenCount?; rw [hsam]; rfl)

/-- The bookkeeping agrees with the store, up to the load that is not committed yet. -/
structure Agrees (m : Manager) : Prop where
  counts (corpusId : String) : (∀ n, m.uncommitted ≠ some (corpusId, n)) →
    m.corpus.corpusTokenCounts.lookup corpusId = m.corpus.obj.tokenCount? corpusId
  finished (corpusId : String) (n : Nat) : m.uncommitted = some (corpusId, n) →
    m.corpus.corpusTokenCounts.lookup corpusId = none ∧
      m.corpus.obj.tokenCount? corpusId = some n
  budget : m.corpus.remainingTokenBudget =
    m.corpus.externalCorpusMaxTokens - m.corpus.obj.heldTokens + m.uncommittedTokens

theorem Reach.agrees (h : Reach KeepsFinished externalCorpusMaxTokens m) : Agrees m where
  counts corpusId hnot := by
    refine Option.ext fun n => ⟨fun hcounted => h.held (.inl hcounted), fun hcount => ?_⟩
    rcases h.known hcount with hcounted | hfinished
    · exact hcounted
    · exact absurd hfinished (hnot n)
  finished corpusId n hfinished :=
    ⟨AList.lookup_eq_none.mpr (h.inv.uncommitted_ok hfinished).1, h.held (.inr hfinished)⟩
  budget := by
    have hsum : m.corpus.obj.heldTokens = valueSum id m.settledCounts := by
      refine valueSum_congr fun i => Option.ext fun n => ?_
      rw [Option.map_id, id_eq, h.inv.settledCounts_lookup]
      exact ⟨h.held, h.known⟩
    have hsettled := h.inv.settledCounts_sum
    unfold NgramCorpus.remainingTokenBudget
    omega

def NgramCorpus.removeAll (c : NgramCorpus) (corpusIds : List String) : NgramCorpus :=
  corpusIds.foldl NgramCorpus.removeExternalCorpus c

/-- The load is pending all along a run. -/
def Manager.Pending (m : Manager) (acts : List Action) : Prop :=
  ∀ k, (m.run (acts.take k)).pendingLoad.isSome

theorem Manager.Pending.head {act : Action} (h : m.Pending (act :: acts)) :
    (m.step act).Pending acts := fun k => h (k + 1)

def NgramCorpus.withStaging (c : NgramCorpus) (stagingSam : Option SuffixAutomaton) :
    NgramCorpus :=
  { c with obj := { c.obj with stagingSam } }

theorem NgramCorpus.withStaging_eq {c : NgramCorpus} {stagingSam : Option SuffixAutomaton}
    (h : c.obj.stagingSam = stagingSam) : c.withStaging stagingSam = c := by
  subst h
  rfl

theorem NgramCorpus.removeAll_staging (c : NgramCorpus) (corpusIds : List String) :
    (c.removeAll corpusIds).obj.stagingSam = c.obj.stagingSam := by
  induction corpusIds generalizing c with
  | nil => rfl
  | cons corpusId corpusIds ih => exact ih (c.removeExternalCorpus corpusId)

theorem run_loaded {req : AddReq} {n : Nat} (hpending : m.Pending acts)
    (hloaded : m.pendingLoad = some (req, .loaded n)) :
    (m.run acts).pendingLoad = some (req, .loaded n) := by
  induction acts generalizing m with
  | nil => exact hloaded
  | cons act acts ih =>
      refine ih hpending.head ?_
      cases act with
      | add req' =>
          simp only [Manager.step, Manager.add, hloaded]
      | remove corpusId => exact hloaded
      | list => exact hloaded
      | load exception => simp only [Manager.step, Manager.load, hloaded, Loader.step]
      | checkPendingLoad =>
          have hsome := hpending.head 0
          simp [Manager.step, Manager.checkPendingLoad, hloaded] at hsome

/-- As long as it has not finished, a load touches nothing but the staging slot. -/
theorem run_notLoaded {c : NgramCorpus} {req : AddReq} {loader : Loader}
    {stagingSam : Option SuffixAutomaton} (hpending : m.Pending acts)
    (hm : m = ⟨c.withStaging stagingSam, some (req, loader)⟩) (hloader : ∀ n, loader ≠ .loaded n) :
    (∃ n, (m.run acts).pendingLoad = some (req, .loaded n)) ∨
      ∃ stagingSam', (m.run acts).corpus = (c.removeAll (removals acts)).withStaging
      stagingSam' := by
  induction acts generalizing m c loader stagingSam with
  | nil => exact .inr ⟨stagingSam, by rw [hm]; rfl⟩
  | cons act acts ih =>
      cases act with
      | add req' => exact ih hpending.head (by rw [hm]; rfl) hloader
      | remove corpusId => exact ih hpending.head (by rw [hm]; rfl) hloader
      | list => exact ih hpending.head hm hloader
      | load exception =>
          have hcalled := loader.step_called req exception (c.withStaging stagingSam)
          have hstep : m.step (.load exception) =
              ⟨(loader.step req exception (c.withStaging stagingSam)).2,
                some (req, (loader.step req exception (c.withStaging stagingSam)).1)⟩ := by
            rw [hm]
            rfl
          generalize loader.step req exception (c.withStaging stagingSam) = next at hcalled hstep
          obtain ⟨loader', c'⟩ := next
          dsimp only at hcalled hstep
          cases hcalled with
          | staged stagingSam' _ hnew => exact ih hpending.head hstep hnew
          | installed sam _ _ =>
              obtain ⟨n, hloaded⟩ : ∃ n, (m.step (.load exception)).pendingLoad =
                  some (req, .loaded n) := ⟨_, by rw [hstep]⟩
              refine .inl ⟨n, ?_⟩
              rw [Manager.run_cons]
              exact run_loaded hpending.head hloaded
          | ended => exact absurd rfl (hloader _)
      | checkPendingLoad =>
          cases loader with
          | loaded n => exact absurd rfl (hloader n)
          | failed error =>
              have hsome := hpending.head 0
              simp [hm, Manager.step, Manager.checkPendingLoad] at hsome
          | _ => exact ih hpending.head (by rw [hm]; rfl) hloader

theorem Reach.run
    (h : Reach admissible externalCorpusMaxTokens m) (hall : ∀ m act, admissible m act) :
    Reach admissible externalCorpusMaxTokens (m.run acts) := by
  induction acts generalizing m with
  | nil => exact h
  | cons act acts ih => exact ih (h.step act (hall m act))

theorem Reach.failed {req req' : AddReq} {error : LoadError}
    (h : Reach (fun _ _ => True) externalCorpusMaxTokens m) (hidle : m.pendingLoad = none)
    (hpending : (m.add req).Pending acts)
    (hfailed : ((m.add req).run acts).pendingLoad = some (req', .failed error)) :
    ((m.add req).run acts).corpus = m.corpus.removeAll (removals acts) := by
  have hstart : m.add req = ⟨m.corpus.withStaging none, some (req, .check)⟩ := by
    rw [NgramCorpus.withStaging_eq (h.inv.idle hidle)]
    unfold Manager.add
    rw [hidle]
  have hinv : Inv externalCorpusMaxTokens ((m.add req).run acts) :=
    ((h.step (.add req) trivial).run fun _ _ => trivial).inv
  rcases run_notLoaded hpending hstart nofun with ⟨n, hloaded⟩ | ⟨stagingSam, hcorpus⟩
  · rw [hfailed] at hloaded
    cases hloaded
  · have hstaging : stagingSam = none := by
      have hnone : ((m.add req).run acts).corpus.obj.stagingSam = none := hinv.pending hfailed
      rw [hcorpus] at hnone
      exact hnone
    rw [hcorpus, hstaging]
    exact NgramCorpus.withStaging_eq
      ((NgramCorpus.removeAll_staging _ _).trans (h.inv.idle hidle))

/-- In runs that do not remove a corpus whose load has finished but is not yet committed, what is
counted is what is held; in all runs the limit holds, and a load that fails leaves what the removals
during it have left. -/
theorem bookkeeping (externalCorpusMaxTokens : Nat) :
    (∀ m, Reach KeepsFinished externalCorpusMaxTokens m → Agrees m) ∧
    (∀ m, Reach (fun _ _ => True) externalCorpusMaxTokens m →
      m.corpus.obj.heldTokens ≤ externalCorpusMaxTokens ∧
      m.corpus.totalLoadedTokens ≤ externalCorpusMaxTokens) ∧
    ∀ m req acts req' error, Reach (fun _ _ => True) externalCorpusMaxTokens m →
      m.pendingLoad = none → (m.add req).Pending acts →
      ((m.add req).run acts).pendingLoad = some (req', .failed error) →
      ((m.add req).run acts).corpus = m.corpus.removeAll (removals acts) := by
  refine ⟨fun m h => h.agrees, fun m h => ⟨?_, h.inv.total_le⟩,
    fun m req acts req' error h hidle hpending hfailed => h.failed hidle hpending hfailed⟩
  have hle := Int.le_trans h.heldTokens_le h.inv.uncommitted_le
  exact Int.ofNat_le.mp hle

/-- A load of one chunk up to its end. -/
def oneLoad (corpusId : String) (chunk : List Int) : List Action :=
  [.add ⟨corpusId, [chunk]⟩, .load none, .load none, .load none, .load none]

theorem Reach.run_noRemove
    (h : Reach KeepsFinished externalCorpusMaxTokens m)
    (hacts : ∀ corpusId, Action.remove corpusId ∉ acts) :
    Reach KeepsFinished externalCorpusMaxTokens (m.run acts) := by
  induction acts generalizing m with
  | nil => exact h
  | cons act acts ih =>
      have hact : KeepsFinished m act := fun corpusId _ heq =>
        absurd (heq ▸ List.mem_cons_self) (hacts corpusId)
      exact ih (h.step act hact) fun corpusId hmem => hacts corpusId (List.mem_cons_of_mem act hmem)

/-- A corpus that is loaded and committed, and a second one that fails at its second chunk. -/
theorem bookkeeping_twoLoads :
    Agrees (Manager.run (.init 5) (oneLoad "a" [7, 8] ++ [.checkPendingLoad])) ∧
    (Manager.run (.init 5) (oneLoad "a" [7, 8] ++ [.checkPendingLoad])).corpus.obj.heldTokens ≤ 5 ∧
    (Manager.run (.init 5) (oneLoad "a" [7, 8] ++ [.checkPendingLoad, .add ⟨"b", [[1], [2]]⟩,
      .load none, .load none, .load none, .load (some "Overflow"), .load none])).corpus =
      (Manager.run (.init 5) (oneLoad "a" [7, 8] ++ [.checkPendingLoad])).corpus := by
  have hfirst : Reach KeepsFinished 5
      (Manager.run (.init 5) (oneLoad "a" [7, 8] ++ [.checkPendingLoad])) :=
    .run_noRemove .init (by simp [oneLoad])
  have hany : Reach (fun _ _ => True) 5
      (Manager.run (.init 5) (oneLoad "a" [7, 8] ++ [.checkPendingLoad])) :=
    .run .init fun _ _ => trivial
  obtain ⟨hagrees, hbudget, hfailed⟩ := bookkeeping 5
  refine ⟨hagrees _ hfirst, (hbudget _ hany).1, ?_⟩
  refine hfailed _ ⟨"b", [[1], [2]]⟩ [.load none, .load none, .load none,
    .load (some "Overflow"), .load none] _ (.raised "Overflow") hany rfl (fun k => ?_) rfl
  rcases k with _ | _ | _ | _ | _ | _ | k <;> rfl

/-- A finished load is held before it is counted. -/
theorem held_before_counted : ¬ ∀ (externalCorpusMaxTokens : Nat) (m : Manager),
    Reach (fun _ _ => True) externalCorpusMaxTokens m → ∀ corpusId,
      m.corpus.corpusTokenCounts.lookup corpusId = m.corpus.obj.tokenCount? corpusId := by
  intro h
  have hreach : Reach (fun _ _ => True) 5 (Manager.run (.init 5) (oneLoad "a" [7])) :=
    .run .init fun _ _ => trivial
  have heq := h 5 _ hreach "a"
  have hcounted : (Manager.run (.init 5) (oneLoad "a" [7])).corpus.corpusTokenCounts.lookup "a" =
      none :=
    rfl
  have hheld : (Manager.run (.init 5) (oneLoad "a" [7])).corpus.obj.tokenCount? "a" = some 1 := rfl
  rw [hcounted, hheld] at heq
  cases heq

end SpecDecode.ExternalCorpus
