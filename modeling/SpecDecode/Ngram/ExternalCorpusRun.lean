import SpecDecode.Ngram.ExternalCorpus

/-!
# Runs of the external corpus manager

`Inv` holds in every run: the total is the sum of the counts, and a load stays within the
budget it read when it started. In every run the automata that are held are known to the
bookkeeping. The converse, that a known corpus is held, needs that nobody removes a corpus
between the end of its load and its commit.
-/

namespace SpecDecode.ExternalCorpus

def LoadOk (c : NgramCorpus) (req : AddReq) : Loader → Prop
  | .check => c.obj.stagingSam = none
  | .start maxTokens => c.obj.stagingSam = none ∧ req.corpusId ∉ c.corpusTokenCounts ∧
      0 ≤ maxTokens ∧ c.totalLoadedTokens + maxTokens ≤ c.externalCorpusMaxTokens
  | .append maxTokens _ loadedTokenCount =>
      (∃ sam, c.obj.stagingSam = some sam ∧ sam.tokenCount = loadedTokenCount) ∧
      req.corpusId ∉ c.corpusTokenCounts ∧ loadedTokenCount ≤ maxTokens ∧
      c.totalLoadedTokens + maxTokens ≤ c.externalCorpusMaxTokens
  | .cancel _ => True
  | .loaded loadedTokenCount => c.obj.stagingSam = none ∧
      req.corpusId ∉ c.corpusTokenCounts ∧
      c.totalLoadedTokens + loadedTokenCount ≤ c.externalCorpusMaxTokens
  | .failed _ => c.obj.stagingSam = none

structure Inv (externalCorpusMaxTokens : Nat) (m : Manager) : Prop where
  max : m.corpus.externalCorpusMaxTokens = externalCorpusMaxTokens
  total : m.corpus.totalLoadedTokens = valueSum id m.corpus.corpusTokenCounts
  total_le : m.corpus.totalLoadedTokens ≤ externalCorpusMaxTokens
  idle : m.pendingLoad = none → m.corpus.obj.stagingSam = none
  pending {req : AddReq} {loader : Loader} :
    m.pendingLoad = some (req, loader) → LoadOk m.corpus req loader

variable {externalCorpusMaxTokens : Nat} {m : Manager}

theorem Inv.init (externalCorpusMaxTokens : Nat) :
    Inv externalCorpusMaxTokens (.init externalCorpusMaxTokens) where
  max := rfl
  total := rfl
  total_le := Int.natCast_nonneg _
  idle _ := rfl
  pending := nofun

/-- What a call of the loading thread does: it installs the automaton it has built, or it
leaves everything but the staging slot alone. -/
inductive Called (req : AddReq) (c : NgramCorpus) : Loader → Loader → NgramCorpus → Prop
  | staged {loader loader' : Loader} (stagingSam : Option SuffixAutomaton)
      (old : ∀ n, loader ≠ .loaded n) (new : ∀ n, loader' ≠ .loaded n) :
      Called req c loader loader' { c with obj := ⟨c.obj.sams, stagingSam⟩ }
  | installed {maxTokens : Int} {n : Nat} (sam : SuffixAutomaton)
    (fresh : req.corpusId ∉ c.obj.sams)
      (staging : c.obj.stagingSam = some sam) :
      Called req c (.append maxTokens [] n) (.loaded n)
        { c with obj := ⟨c.obj.sams.insert req.corpusId sam, none⟩ }
  | ended {n : Nat} : Called req c (.loaded n) (.loaded n) c

variable {req : AddReq} {loader : Loader}

theorem Called.same {c : NgramCorpus} {loader' : Loader}
    (old : ∀ n, loader ≠ .loaded n) (new : ∀ n, loader' ≠ .loaded n) :
    Called req c loader loader' c :=
  .staged c.obj.stagingSam old new

theorem Loader.step_called (req : AddReq) (exception : Option String) (c : NgramCorpus)
    (loader : Loader) : Called req c loader (loader.step req exception c).1
      (loader.step req exception c).2 := by
  cases loader with
  | check =>
      simp only [Loader.step]
      split <;> exact .same nofun nofun
  | start maxTokens =>
      simp only [Loader.step, Ngram.startExternalCorpusLoad]
      cases exception with
      | some message => exact .same nofun nofun
      | none =>
          dsimp only
          by_cases hstaging : c.obj.stagingSam.isSome
          · rw [if_pos hstaging]
            exact .same nofun nofun
          · rw [if_neg hstaging]
            exact .staged _ nofun nofun
  | append maxTokens chunks loadedTokenCount =>
      cases exception with
      | some message => cases chunks <;> exact .same nofun nofun
      | none =>
          cases chunks with
          | nil =>
              simp only [Loader.step, Ngram.finishExternalCorpusLoad]
              cases hstaging : c.obj.stagingSam with
              | none => exact .same nofun nofun
              | some sam =>
                  dsimp only
                  by_cases hempty : sam.empty
                  · rw [if_pos hempty]
                    exact .staged _ nofun nofun
                  · rw [if_neg hempty]
                    by_cases hmem : req.corpusId ∈ c.obj.sams
                    · rw [if_pos hmem]
                      exact .same nofun nofun
                    · rw [if_neg hmem]
                      exact .installed sam hmem hstaging
          | cons chunk chunks =>
              simp only [Loader.step, Ngram.appendExternalCorpusTokens]
              split
              · exact .same nofun nofun
              · cases hstaging : c.obj.stagingSam with
                | none => exact .same nofun nofun
                | some sam => exact .staged _ nofun nofun
  | cancel error => exact .staged _ nofun nofun
  | loaded n => exact .ended
  | failed error => exact .same nofun nofun

theorem LoadOk.step {c : NgramCorpus} (h : LoadOk c req loader) (exception : Option String)
    (htotal : c.totalLoadedTokens ≤ c.externalCorpusMaxTokens) :
    LoadOk (loader.step req exception c).2 req (loader.step req exception c).1 := by
  cases loader with
  | check =>
      simp only [Loader.step]
      split
      · exact h
      · next hnot =>
          unfold LoadOk NgramCorpus.remainingTokenBudget
          exact ⟨h, hnot, by omega, by dsimp only; omega⟩
  | start maxTokens =>
      obtain ⟨hstaging, hnot, hpos, hle⟩ := h
      cases exception with
      | some message => exact hstaging
      | none =>
          simp only [Loader.step, Ngram.startExternalCorpusLoad, hstaging]
          exact ⟨⟨_, rfl, rfl⟩, hnot, hpos, hle⟩
  | append maxTokens chunks loadedTokenCount =>
      obtain ⟨⟨sam, hstaging, hcount⟩, hnot, hloaded, hle⟩ := h
      cases exception with
      | some message => cases chunks <;> trivial
      | none =>
          cases chunks with
          | nil =>
              simp only [Loader.step, Ngram.finishExternalCorpusLoad, hstaging]
              by_cases hempty : sam.empty
              · rw [if_pos hempty]
                trivial
              · rw [if_neg hempty]
                by_cases hmem : req.corpusId ∈ c.obj.sams
                · rw [if_pos hmem]
                  trivial
                · rw [if_neg hmem]
                  exact ⟨rfl, hnot, by dsimp only; omega⟩
          | cons chunk chunks =>
              simp only [Loader.step, Ngram.appendExternalCorpusTokens, hstaging]
              split
              · trivial
              · next hfit =>
                  refine ⟨⟨_, rfl, ?_⟩, hnot, ?_, hle⟩
                  · rw [← hcount]
                    exact List.length_append
                  · push_cast
                    omega
  | cancel error => exact rfl
  | loaded n => exact h
  | failed error => exact h

theorem Manager.uncommitted_of_notLoaded
    (hpending : m.pendingLoad = some (req, loader)) (h : ∀ n, loader ≠ .loaded n) :
    m.uncommitted = none := by
  unfold Manager.uncommitted
  rw [hpending]
  cases loader with
  | loaded n => exact absurd rfl (h n)
  | _ => rfl

theorem Manager.uncommitted_of_none (hpending : m.pendingLoad = none) : m.uncommitted = none := by
  unfold Manager.uncommitted
  rw [hpending]

theorem Manager.pendingLoad_of_uncommitted {corpusId : String} {n : Nat}
    (h : m.uncommitted = some (corpusId, n)) :
    ∃ req, req.corpusId = corpusId ∧ m.pendingLoad = some (req, .loaded n) := by
  unfold Manager.uncommitted at h
  split at h
  · next req k hpending =>
      cases h
      exact ⟨req, rfl, hpending⟩
  · cases h

theorem Inv.add (h : Inv externalCorpusMaxTokens m) (req : AddReq) :
    Inv externalCorpusMaxTokens (m.add req) := by
  unfold Manager.add
  cases hpending : m.pendingLoad with
  | some load => exact h
  | none =>
      refine ⟨h.max, h.total, h.total_le, nofun, fun heq => ?_⟩
      cases heq
      exact h.idle hpending

theorem Called.counts {c c' : NgramCorpus} {loader' : Loader}
    (h : Called req c loader loader' c') : c'.externalCorpusMaxTokens = c.externalCorpusMaxTokens ∧
      c'.corpusTokenCounts = c.corpusTokenCounts ∧ c'.totalLoadedTokens = c.totalLoadedTokens := by
  cases h <;> exact ⟨rfl, rfl, rfl⟩

theorem Inv.load (h : Inv externalCorpusMaxTokens m) (exception : Option String) :
    Inv externalCorpusMaxTokens (m.load exception) := by
  unfold Manager.load
  cases hpending : m.pendingLoad with
  | none => exact h
  | some load =>
      obtain ⟨req, loader⟩ := load
      have hok := (h.pending hpending).step exception (by rw [h.max]; exact h.total_le)
      obtain ⟨hmax, hcounts, htotal⟩ := (loader.step_called req exception m.corpus).counts
      refine ⟨?_, ?_, ?_, nofun, fun heq => ?_⟩
      · exact hmax.trans h.max
      · show (loader.step req exception m.corpus).2.totalLoadedTokens = _
        rw [htotal, h.total]
        dsimp only
        rw [hcounts]
      · show (loader.step req exception m.corpus).2.totalLoadedTokens ≤ _
        rw [htotal]
        exact h.total_le
      · cases heq
        exact hok

theorem Inv.total_remove (h : Inv externalCorpusMaxTokens m) (corpusId : String) :
    (m.corpus.removeExternalCorpus corpusId).totalLoadedTokens =
      valueSum id (m.corpus.corpusTokenCounts.erase corpusId) := by
  have hsum := @valueSum_erase_add _ _ _ id m.corpus.corpusTokenCounts corpusId
  have htotal := h.total
  rw [Option.map_id] at hsum
  unfold NgramCorpus.removeExternalCorpus
  dsimp only [id_eq] at hsum ⊢
  omega

theorem removeExternalCorpus_total_le (c : NgramCorpus) (corpusId : String) :
    (c.removeExternalCorpus corpusId).totalLoadedTokens ≤ c.totalLoadedTokens :=
  Int.sub_le_self _ (Int.natCast_nonneg _)

theorem LoadOk.remove {c : NgramCorpus} (h : LoadOk c req loader) (corpusId : String) :
    LoadOk (c.removeExternalCorpus corpusId) req loader := by
  have hle := removeExternalCorpus_total_le c corpusId
  have hnot {a : String} (ha : a ∉ c.corpusTokenCounts) :
      a ∉ c.corpusTokenCounts.erase corpusId := fun hmem => ha (AList.mem_erase.mp hmem).2
  cases loader with
  | check => exact h
  | start maxTokens => exact ⟨h.1, hnot h.2.1, h.2.2.1,
    Int.le_trans (Int.add_le_add_right hle _) h.2.2.2⟩
  | append maxTokens chunks loadedTokenCount =>
      exact ⟨h.1, hnot h.2.1, h.2.2.1, Int.le_trans (Int.add_le_add_right hle _) h.2.2.2⟩
  | cancel error => trivial
  | loaded n => exact ⟨h.1, hnot h.2.1, Int.le_trans (Int.add_le_add_right hle _) h.2.2⟩
  | failed error => exact h

theorem Inv.remove (h : Inv externalCorpusMaxTokens m) (corpusId : String) :
    Inv externalCorpusMaxTokens { m with corpus := m.corpus.removeExternalCorpus corpusId } where
  max := h.max
  total := h.total_remove corpusId
  total_le := Int.le_trans (removeExternalCorpus_total_le _ corpusId) h.total_le
  idle hpending := h.idle hpending
  pending hpending := (h.pending hpending).remove corpusId

theorem Inv.checkPendingLoad (h : Inv externalCorpusMaxTokens m) :
    Inv externalCorpusMaxTokens m.checkPendingLoad := by
  unfold Manager.checkPendingLoad
  split
  · next req n hpending =>
      obtain ⟨hstaging, hnot, hle⟩ := h.pending hpending
      refine ⟨h.max, ?_, ?_, fun _ => hstaging, nofun⟩
      · show m.corpus.totalLoadedTokens + n = valueSum id (m.corpus.corpusTokenCounts.insert _ n)
        rw [valueSum_insert hnot, h.total]
        rfl
      · rw [h.max] at hle
        exact hle
  · next hpending =>
      exact ⟨h.max, h.total, h.total_le, fun _ => h.pending hpending, nofun⟩
  · exact h

theorem Inv.step (h : Inv externalCorpusMaxTokens m) (act : Action) :
    Inv externalCorpusMaxTokens (m.step act) := by
  cases act with
  | add req => exact h.add req
  | remove corpusId => exact h.remove corpusId
  | list => exact h
  | load exception => exact h.load exception
  | checkPendingLoad => exact h.checkPendingLoad

theorem Reach.inv {admissible : Manager → Action → Prop}
    (h : Reach admissible externalCorpusMaxTokens m) : Inv externalCorpusMaxTokens m := by
  induction h with
  | init => exact .init _
  | step act _ _ ih => exact ih.step act

end SpecDecode.ExternalCorpus
