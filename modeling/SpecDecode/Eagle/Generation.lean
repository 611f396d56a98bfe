import SpecDecode.Eagle.GrammarVerify

/-!
# Generation with and without speculation

A server drafts a tree for every request of a batch, verifies the trees and commits the accepted
tokens, round after round, with the requests of a round chosen at will. Without speculation it
takes one token of the model after the other. For greedy requests without a grammar both pass
through the same requests.
-/

namespace SpecDecode.Eagle

open Function Scheduler

variable {ι σ : Type}

/-- What the requests call, the model's best token behind a sequence of tokens, and
`origin_input_ids`. -/
structure Server (ι σ : Type) where
  env : Env σ
  thinkEndId : Option Int
  target : List Int → Int
  originInputIds : ι → List Int

/-- The algorithms that verify trees with `verify_tree_greedy`. -/
inductive TreeAlgorithm where
  | eagle
  | ngram
deriving DecidableEq

namespace Server

variable (S : Server ι σ)

def fillIds (i : ι) (r : Req σ) : List Int := S.originInputIds i ++ r.outputIds

def appendToken (r : Req σ) (t : Int) : Req σ :=
  ((r.extend [t]).countReasoning S.thinkEndId t).checkFinished S.env 1

/-- `process_batch_result_decode` without speculation, for a request without a grammar. A finished
request is in no batch. -/
def decode (i : ι) (r : Req σ) : Req σ :=
  if r.finished then r else S.appendToken r (S.target (S.fillIds i r))

/-- The loop over a row of `accept_index`. -/
def commit (algorithm : TreeAlgorithm) (predict : Nat → Int) (r : Req σ) (row : List Int) :
    Except (Req σ) (Req σ × List Int) :=
  match algorithm with
  | .eagle => eagleCommit S.env S.thinkEndId predict r row
  | .ngram => ngramCommit S.env S.thinkEndId predict r row

/-- The loop over the requests of a batch; the first of them has row `bx`. -/
def commitBatch [DecidableEq ι] (algorithm : TreeAlgorithm) (a : VerifyArgs) (b : VerifyBuffers) :
    Nat → List ι → (ι → Req σ) → Option (ι → Req σ)
  | _, [], reqs => some reqs
  | bx, i :: batch, reqs =>
      match S.commit algorithm b.predicts (reqs i) (a.acceptRow b bx) with
      | .error _ => none
      | .ok (r, _) => commitBatch algorithm a b (bx + 1) batch (update reqs i r)

/-- `verify` of a greedy batch: the kernel and the loop. -/
def verify [DecidableEq ι] (algorithm : TreeAlgorithm) (a : VerifyArgs) (b : VerifyBuffers)
    (batch : List ι) (reqs : ι → Req σ) : Option (ι → Req σ) := do
  let b ← a.launchVerify batch.length b
  S.commitBatch algorithm a b 0 batch reqs

/-- The trees of a draft grow from the last tokens of the requests, and the model has predicted
behind every path. -/
structure Drafted (batch : List ι) (reqs : ι → Req σ) (a : VerifyArgs)
    (trees : Nat → OrderedTree a.numDraftTokens) : Prop where
  nodes : 0 < a.numDraftTokens
  limit : 0 < a.numSpeculativeTokens
  wellFormed {bx : Nat} : bx < batch.length → a.RowWellFormed bx (trees bx)
  root {bx : Nat} {i : ι} : batch[bx]? = some i →
    (S.fillIds i (reqs i)).getLast? = some (a.candidates (bx * a.numDraftTokens))
  predicted {bx : Nat} {i : ι} : batch[bx]? = some i → (a.tokenTree bx (trees bx)).DecodedBy
    fun path => S.target ((S.fillIds i (reqs i)).dropLast ++ path)

/-- The requests after some rounds, and how many of them each request took part in. -/
inductive SpecRun [DecidableEq ι] (reqs₀ : ι → Req σ) : (ι → Req σ) → (ι → Nat) → Prop where
  | start : SpecRun reqs₀ reqs₀ fun _ => 0
  | round {reqs reqs' : ι → Req σ} {rounds : ι → Nat} (h : SpecRun reqs₀ reqs rounds)
      (batch : List ι) (hbatch : batch.Nodup) (hlive : ∀ i ∈ batch, (reqs i).finished = false)
      (a : VerifyArgs) (trees : Nat → OrderedTree a.numDraftTokens)
      (hdraft : S.Drafted batch reqs a trees) (b : VerifyBuffers) (hb : ∀ x, b.acceptIndex x = -1)
      (algorithm : TreeAlgorithm) (hverify : S.verify algorithm a b batch reqs = some reqs') :
      SpecRun reqs₀ reqs' fun i => rounds i + if i ∈ batch then 1 else 0

variable {S} {i : ι} {r : Req σ} {t : Int}

private theorem countReasoning_fields (thinkEndId : Option Int) (t : Int) (r : Req σ) :
    (r.countReasoning thinkEndId t).outputIds = r.outputIds ∧
      (r.countReasoning thinkEndId t).grammar = r.grammar ∧
      (r.countReasoning thinkEndId t).samplingParams = r.samplingParams := by
  have hforget : (r.countReasoning thinkEndId t).forget = r.forget :=
    Req.forget_countReasoning thinkEndId t
  exact ⟨(congrArg Req.outputIds hforget :), (congrArg Req.grammar hforget :),
    (congrArg Req.samplingParams hforget :)⟩

/-- A token that does not finish the request is appended and nothing else. -/
theorem appendToken_open (h : (S.appendToken r t).finished = false) :
    (S.appendToken r t).outputIds = r.outputIds ++ [t] ∧
      (S.appendToken r t).grammar = r.grammar ∧
      (S.appendToken r t).samplingParams = r.samplingParams ∧
      r.outputIds.length + 1 < r.samplingParams.maxNewTokens := by
  have hsame : S.appendToken r t = (r.extend [t]).countReasoning S.thinkEndId t :=
    Req.checkFinished_eq_self h
  obtain ⟨hout, hgrammar, hparams⟩ := countReasoning_fields S.thinkEndId t (r.extend [t])
  rw [appendToken, Req.finished_checkFinished_eq, hout, hparams] at h
  simp only [Bool.or_eq_false_iff, decide_eq_false_iff_not] at h
  rw [hsame]
  refine ⟨hout, hgrammar, hparams, ?_⟩
  have hlt := not_le.mp h.1.1.2
  rwa [Req.extend, List.length_append] at hlt

theorem decode_finished (h : r.finished = true) : S.decode i r = r := if_pos h

theorem iterate_decode_finished (h : r.finished = true) (n : Nat) : (S.decode i)^[n] r = r :=
  Function.iterate_fixed (decode_finished h) n

theorem iterate_decode_open {n : Nat} (h : ((S.decode i)^[n] r).finished = false) :
    ((S.decode i)^[n] r).outputIds.length = r.outputIds.length + n ∧
      ((S.decode i)^[n] r).grammar = r.grammar ∧
      ((S.decode i)^[n] r).samplingParams = r.samplingParams ∧
      (0 < n → r.outputIds.length + n < r.samplingParams.maxNewTokens) := by
  induction n with
  | zero => exact ⟨rfl, rfl, rfl, fun h => absurd h (Nat.lt_irrefl 0)⟩
  | succ n ih =>
      rw [Function.iterate_succ_apply'] at h ⊢
      cases hopen : ((S.decode i)^[n] r).finished with
      | true =>
          rw [decode_finished hopen, hopen] at h
          cases h
      | false =>
          obtain ⟨hlength, hgrammar, hparams, -⟩ := ih hopen
          rw [decode, if_neg (ne_true_of_eq_false hopen)] at h ⊢
          obtain ⟨hout, hgrammar', hparams', hlt⟩ := appendToken_open h
          rw [hparams, hlength] at hlt
          refine ⟨?_, hgrammar'.trans hgrammar, hparams'.trans hparams, fun _ => hlt⟩
          rw [hout, List.length_append, hlength]
          rfl

variable (S)

/-- Append one token after the other until the request is finished. -/
def appendTokens (r : Req σ) : List Int → Req σ
  | [] => r
  | t :: ts => if (S.appendToken r t).finished then S.appendToken r t
      else appendTokens (S.appendToken r t) ts

variable {S}

/-- Without a grammar both loops append the tokens of the row. -/
theorem commit_eq (algorithm : TreeAlgorithm) (predict : Nat → Int) (row : List Int)
    (hgrammar : r.grammar = none) : ∃ row', S.commit algorithm predict r row =
      .ok (S.appendTokens r (rowTokens predict row), row') := by
  induction row generalizing r with
  | nil => cases algorithm <;> exact ⟨[], rfl⟩
  | cons idx row ih =>
      by_cases hidx : idx = -1
      · subst hidx
        cases algorithm <;> exact ⟨_, rfl⟩
      · rw [rowTokens_cons predict hidx, appendTokens]
        cases hfin : (S.appendToken r (predict idx.toNat)).finished with
        | true =>
            refine ⟨idx :: row.map fun _ => -1, ?_⟩
            rw [appendToken] at hfin
            cases algorithm <;>
              simp only [commit, eagleCommit, ngramCommit, if_neg hidx, hfin, if_true] <;> rfl
        | false =>
            have hnone := (appendToken_open hfin).2.1.trans hgrammar
            obtain ⟨row', hrest⟩ := ih hnone
            refine ⟨idx :: row', ?_⟩
            rw [if_neg Bool.false_ne_true]
            generalize hr : S.appendToken r (predict idx.toNat) = r' at *
            rw [appendToken] at hr
            cases algorithm <;> simp only [commit] at hrest ⊢ <;>
              simp only [eagleCommit, ngramCommit, if_neg hidx, hr, hfin, Req.acceptToken, hnone,
                Option.map_some, Option.isSome_none, Bool.false_eq_true, if_false, hrest] <;> rfl

theorem appendTokens_greedyDecode {front path : List Int} (hopen : r.finished = false)
    (hids : S.fillIds i r = front ++ path) (n : Nat) :
    ∃ m, 0 < m ∧ S.appendTokens r (greedyDecode (fun p => S.target (front ++ p)) path (n + 1)) =
      (S.decode i)^[m] r := by
  induction n generalizing r path with
  | zero =>
      refine ⟨1, Nat.one_pos, ?_⟩
      rw [Function.iterate_one, decode, if_neg (ne_true_of_eq_false hopen), hids]
      simp only [greedyDecode, appendTokens, ite_self]
  | succ n ih =>
      have hstep : S.decode i r = S.appendToken r (S.target (front ++ path)) := by
        rw [decode, if_neg (ne_true_of_eq_false hopen), hids]
      rw [greedyDecode, appendTokens]
      cases hfin : (S.appendToken r (S.target (front ++ path))).finished with
      | true => exact ⟨1, Nat.one_pos, by rw [if_pos rfl, Function.iterate_one, hstep]⟩
      | false =>
          have hids' : S.fillIds i (S.appendToken r (S.target (front ++ path))) =
              front ++ (path ++ [S.target (front ++ path)]) := by
            rw [fillIds, (appendToken_open hfin).1, ← List.append_assoc, ← fillIds, hids,
              List.append_assoc]
          obtain ⟨m, hm, hrest⟩ := ih hfin hids'
          refine ⟨m + 1, Nat.succ_pos m, ?_⟩
          rw [if_neg Bool.false_ne_true, hrest, Function.iterate_succ_apply, hstep]

variable [DecidableEq ι] {batch : List ι} {reqs reqs₀ : ι → Req σ} {a : VerifyArgs}
variable {trees : Nat → OrderedTree a.numDraftTokens}

theorem commitBatch_eq (algorithm : TreeAlgorithm) (b : VerifyBuffers) (hbatch : batch.Nodup)
    (hgrammar : ∀ i ∈ batch, (reqs i).grammar = none) (bx : Nat) :
    ∃ reqs', S.commitBatch algorithm a b bx batch reqs = some reqs' ∧
      (∀ k i, batch[k]? = some i → reqs' i =
        S.appendTokens (reqs i) (rowTokens b.predicts (a.acceptRow b (bx + k)))) ∧
      ∀ i ∉ batch, reqs' i = reqs i := by
  induction batch generalizing reqs bx with
  | nil => exact ⟨reqs, rfl, fun k i hk => absurd hk (by simp), fun _ _ => rfl⟩
  | cons j batch ih =>
      obtain ⟨hj, hbatch⟩ := List.nodup_cons.mp hbatch
      obtain ⟨row', hcommit⟩ := commit_eq algorithm b.predicts (a.acceptRow b bx)
        (hgrammar j List.mem_cons_self) (S := S)
      have hother {i : ι} (hi : i ∈ batch) (x : Req σ) : update reqs j x i = reqs i :=
        update_of_ne (ne_of_mem_of_not_mem hi hj) _ _
      have hnone (x : Req σ) : ∀ i ∈ batch, (update reqs j x i).grammar = none := by
        intro i hi
        rw [hother hi, hgrammar i (List.mem_cons_of_mem _ hi)]
      obtain ⟨reqs', hrest, hrows, hkept⟩ := ih hbatch
        (hnone (S.appendTokens (reqs j) (rowTokens b.predicts (a.acceptRow b bx)))) (bx + 1)
      refine ⟨reqs', ?_, fun k i hk => ?_, fun i hi => ?_⟩
      · simp only [commitBatch, hcommit, hrest]
      · cases k with
        | zero =>
            obtain rfl := Option.some.inj hk
            rw [hkept _ hj, update_self, Nat.add_zero]
        | succ k =>
            have hmem : i ∈ batch := List.mem_of_getElem? hk
            rw [hrows k i hk, hother hmem, Nat.add_right_comm, Nat.add_assoc]
      · rw [List.mem_cons, not_or] at hi
        rw [hkept i hi.2, update_of_ne hi.1]

/-- A round takes every request of its batch some steps of decoding further. -/
theorem Drafted.verify (hdraft : S.Drafted batch reqs a trees) (hbatch : batch.Nodup)
    (hlive : ∀ i ∈ batch, (reqs i).finished = false)
    (hgrammar : ∀ i ∈ batch, (reqs i).grammar = none) (algorithm : TreeAlgorithm)
    {b : VerifyBuffers} (hb : ∀ x, b.acceptIndex x = -1) :
    ∃ reqs', S.verify algorithm a b batch reqs = some reqs' ∧
      (∀ i ∈ batch, ∃ m, 0 < m ∧ reqs' i = (S.decode i)^[m] (reqs i)) ∧
      ∀ i ∉ batch, reqs' i = reqs i := by
  obtain ⟨b', hrun, hrows⟩ := VerifyArgs.launchVerify_result hdraft.nodes hdraft.limit
    (fun _ => hdraft.wellFormed) b
  obtain ⟨reqs', hcommit, htokens, hkept⟩ :=
    commitBatch_eq (S := S) (a := a) algorithm b' hbatch hgrammar 0
  refine ⟨reqs', ?_, fun i hi => ?_, hkept⟩
  · rw [Server.verify, hrun]
    exact hcommit
  · obtain ⟨bx, hbx⟩ := List.mem_iff_getElem?.mp hi
    have hlt := (List.getElem?_eq_some_iff.mp hbx).1
    have hmatch : (a.tokenTree bx (trees bx)).MatchPath 0 (a.acceptedPath bx (trees bx)) :=
      TokenTree.followTarget_matches _ 0
    have hemitted := (VerifyArgs.rowTokens_acceptRow hdraft.nodes hdraft.limit
      (fun _ => hdraft.wellFormed) hb hrun (hrows bx hlt)).trans
      (hmatch.predicted_eq (hdraft.predicted hbx) .root)
    have hids : S.fillIds i (reqs i) = (S.fillIds i (reqs i)).dropLast ++
        [a.candidates (bx * a.numDraftTokens)] :=
      (List.dropLast_append_getLast? _ (hdraft.root hbx)).symm
    obtain ⟨m, hm, hdecoded⟩ := appendTokens_greedyDecode (hlive i hi) hids
      (a.acceptedPath bx (trees bx)).length
    refine ⟨m, hm, ?_⟩
    rw [htokens bx i hbx, Nat.zero_add, hemitted]
    exact hdecoded

/-- Every request is as after some steps of decoding, at least as many as its rounds. -/
theorem SpecRun.decoded {rounds : ι → Nat} (hgrammar : ∀ i, (reqs₀ i).grammar = none)
    (h : S.SpecRun reqs₀ reqs rounds) (i : ι) :
    (∃ n, rounds i ≤ n ∧ reqs i = (S.decode i)^[n] (reqs₀ i)) ∧
      ((reqs i).finished = false → (reqs i).grammar = none) := by
  have hnone {i : ι} {r : Req σ} (hr : ∃ n, r = (S.decode i)^[n] (reqs₀ i))
      (hopen : r.finished = false) : r.grammar = none := by
    obtain ⟨n, rfl⟩ := hr
    exact (iterate_decode_open hopen).2.1.trans (hgrammar i)
  suffices hdecoded : ∃ n, rounds i ≤ n ∧ reqs i = (S.decode i)^[n] (reqs₀ i) from
    ⟨hdecoded, hnone (hdecoded.imp fun _ => And.right)⟩
  induction h generalizing i with
  | start => exact ⟨0, Nat.le_refl 0, rfl⟩
  | round _ batch hbatch hlive a trees hdraft b hb algorithm hverify ih =>
      obtain ⟨reqs', hverify', hsteps, hkept⟩ := hdraft.verify hbatch hlive
        (fun j hj => hnone ((ih j).imp fun _ => And.right) (hlive j hj)) algorithm hb
      obtain rfl := Option.some.inj (hverify.symm.trans hverify')
      obtain ⟨n, hn, heq⟩ := ih i
      by_cases hi : i ∈ batch
      · obtain ⟨m, hm, hstep⟩ := hsteps i hi
        refine ⟨m + n, ?_, ?_⟩
        · simp only [if_pos hi]
          omega
        · rw [hstep, heq, Function.iterate_add_apply]
      · refine ⟨n, ?_, (hkept i hi).trans heq⟩
        simp only [if_neg hi]
        exact hn

/-- Speculation changes no output. After any rounds every request is as decoding without
speculation has it after at least as many steps as it took part in rounds. So a finished request
is the one that decoding without speculation ends with, a request is finished after at most
`max_new_tokens` rounds, and every further round succeeds. -/
theorem SpecRun.lossless {rounds : ι → Nat} (hgrammar : ∀ i, (reqs₀ i).grammar = none)
    (h : S.SpecRun reqs₀ reqs rounds) :
    (∀ i, ∃ n, rounds i ≤ n ∧ reqs i = (S.decode i)^[n] (reqs₀ i)) ∧
      (∀ i n, (reqs i).finished = true → ((S.decode i)^[n] (reqs₀ i)).finished = true →
        reqs i = (S.decode i)^[n] (reqs₀ i)) ∧
      (∀ i, 0 < rounds i →
        (reqs₀ i).samplingParams.maxNewTokens ≤ (reqs₀ i).outputIds.length + rounds i →
        (reqs i).finished = true) ∧
      ∀ (batch : List ι) (a : VerifyArgs) (trees : Nat → OrderedTree a.numDraftTokens)
        (b : VerifyBuffers) (algorithm : TreeAlgorithm), batch.Nodup →
        (∀ i ∈ batch, (reqs i).finished = false) → S.Drafted batch reqs a trees →
        (∀ x, b.acceptIndex x = -1) → ∃ reqs', S.verify algorithm a b batch reqs = some reqs' := by
  have hdecoded := fun i => (h.decoded hgrammar i).1
  have hstays {i : ι} {m n : Nat} (hle : m ≤ n)
      (hfin : ((S.decode i)^[m] (reqs₀ i)).finished = true) :
      (S.decode i)^[n] (reqs₀ i) = (S.decode i)^[m] (reqs₀ i) := by
    obtain ⟨k, rfl⟩ := Nat.exists_eq_add_of_le' hle
    rw [Function.iterate_add_apply, iterate_decode_finished hfin]
  refine ⟨hdecoded, fun i m hfin hfin' => ?_, fun i hpos hmax => ?_,
    fun batch a trees b algorithm hbatch hlive hdraft hb => ?_⟩
  · obtain ⟨n, -, heq⟩ := hdecoded i
    rw [heq] at hfin ⊢
    rcases Nat.le_total m n with hle | hle
    · exact hstays hle hfin'
    · exact (hstays hle hfin).symm
  · obtain ⟨n, hn, heq⟩ := hdecoded i
    by_contra hopen
    rw [heq, Bool.not_eq_true] at hopen
    have hlt := (iterate_decode_open hopen).2.2.2 (by omega)
    omega
  · obtain ⟨reqs', hverify, -⟩ := hdraft.verify hbatch hlive
      (fun i hi => (h.decoded hgrammar i).2 (hlive i hi)) algorithm hb
    exact ⟨reqs', hverify⟩

/-- A request behind the prompt `[5]`, and the target of the twins. -/
def twinServer : Server Unit Unit where
  env := ⟨fun _ _ => none, fun _ => false, fun _ => "", fun _ _ => false⟩
  thinkEndId := none
  target := VerifyArgs.twinTarget
  originInputIds _ := [5]

def twinReq : Req Unit where
  samplingParams := ⟨8, false, [], [], [], 0, 0⟩
  tokenizer := none
  eosTokenIds := [2]
  vocabSize := 10
  outputIds := []
  decodedText := ""
  grammar := none
  finishedReason := none
  finishedLen := none
  toFinish := none
  requireReasoning := false
  isReasoningOver := false
  reasoningTokens := 0

theorem twinServer_drafted : twinServer.Drafted [()] (fun _ => twinReq) VerifyArgs.twinArgs
    fun _ => VerifyArgs.twinTree.ordered 4 where
  nodes := by decide
  limit := by decide
  wellFormed {bx} hbx := by
    obtain rfl : bx = 0 := Nat.lt_one_iff.mp hbx
    exact VerifyArgs.twinArgs_rowWellFormed
  root {bx i} hi := by
    obtain rfl : bx = 0 := Nat.lt_one_iff.mp (List.getElem?_eq_some_iff.mp hi).1
    rfl
  predicted {bx i} hi := by
    obtain rfl : bx = 0 := Nat.lt_one_iff.mp (List.getElem?_eq_some_iff.mp hi).1
    exact VerifyArgs.twinArgs_decodedBy

/-- The next draft is one token behind the last one of the request. -/
def nextArgs : VerifyArgs where
  candidates x := [8, 9].getD x 0
  retriveIndex x := x
  retriveNextToken x := [1, -1].getD x (-1)
  retriveNextSibling _ := -1
  targetPredict _ := 9
  numSpeculativeTokens := 2
  numDraftTokens := 2

theorem twinServer_drafted_next {reqs : Unit → Req Unit} (hout : (reqs ()).outputIds = [7, 8]) :
    twinServer.Drafted [()] reqs nextArgs fun _ => VerifyArgs.twinTree.ordered 2 where
  nodes := by decide
  limit := by decide
  wellFormed {bx} hbx := by
    obtain rfl : bx = 0 := Nat.lt_one_iff.mp hbx
    refine ⟨fun v hv => ?_, fun v _ => by simp [nextArgs]⟩
    match v, hv with
    | 0, _ => exact Chain.cons (i := 1) Chain.nil
    | 1, _ => exact Chain.nil
  root {bx i} hi := by
    obtain rfl : bx = 0 := Nat.lt_one_iff.mp (List.getElem?_eq_some_iff.mp hi).1
    rw [fillIds, hout]
    rfl
  predicted {bx i} hi := by
    obtain rfl : bx = 0 := Nat.lt_one_iff.mp (List.getElem?_eq_some_iff.mp hi).1
    intro v p hp
    have hids : (twinServer.fillIds i (reqs i)).dropLast = [5, 7] := by
      rw [fillIds, hout]
      rfl
    rw [hids]
    have hlong : p ≠ [] := by cases hp <;> simp
    simp [twinServer, VerifyArgs.twinTarget, nextArgs, VerifyArgs.tokenTree, hlong]

/-- The first round accepts one draft and adds the token behind it, and so does the second. -/
theorem SpecRun.lossless_twin :
    ∃ reqs, twinServer.SpecRun (fun _ => twinReq) reqs (fun _ => 2) ∧
      (reqs ()).outputIds = [7, 8, 9, 9] ∧
      ∃ n, 2 ≤ n ∧ reqs () = (twinServer.decode ())^[n] twinReq := by
  have hfirst : twinServer.SpecRun (fun _ => twinReq) _ fun _ => 1 :=
    .round .start [()] (List.nodup_singleton _) (fun _ _ => rfl) _ _ twinServer_drafted
      ⟨fun _ => 0, fun _ => -1, fun _ => 0⟩ (fun _ => rfl) .eagle rfl
  have hrun : twinServer.SpecRun (fun _ => twinReq) _ fun _ => 2 :=
    .round hfirst [()] (List.nodup_singleton _) (fun _ _ => rfl) _ _ (twinServer_drafted_next rfl)
      ⟨fun _ => 0, fun _ => -1, fun _ => 0⟩ (fun _ => rfl) .eagle rfl
  exact ⟨_, hrun, rfl, (hrun.lossless fun _ => rfl).1 ()⟩

end Server

end SpecDecode.Eagle
