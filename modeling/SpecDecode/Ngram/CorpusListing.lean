import SpecDecode.Lib.Decimal
import SpecDecode.Ngram.ExternalCorpus

/-!
# The listing of external corpora

The C++ side writes the held corpora as one text, a line for each with its id, a tab and its
token count, and the Python side takes the text apart again. Ids are the caller's strings and
nothing escapes them.
-/

namespace SpecDecode.ExternalCorpus

inductive ListingError where
  | notEnoughValues
  | invalidLiteral (tokenCount : List Char)
deriving Repr, DecidableEq

def listingLine (entry : String × Nat) : List Char :=
  entry.1.toList ++ '\t' :: Nat.toDigits 10 entry.2

/-- `list_external_corpora`. -/
def listExternalCorporaText (o : Ngram) : List Char :=
  ['\n'].intercalate (o.listExternalCorpora.map listingLine)

/-- `line.split("\t", 1)` into two values, the second of which is read as an integer. -/
def readLine (line : List Char) : Except ListingError (String × Int) :=
  match line.dropWhile (· != '\t') with
  | [] => .error .notEnoughValues
  | _ :: tokenCount =>
      match Decimal.parseInt tokenCount with
      | none => .error (.invalidLiteral tokenCount)
      | some n => .ok (String.ofList (line.takeWhile (· != '\t')), n)

def readLines (out : AList fun _ : String => Int) :
    List (List Char) → Except ListingError (AList fun _ : String => Int)
  | [] => .ok out
  | line :: lines =>
      match readLine line with
      | .error e => .error e
      | .ok (corpusId, n) => readLines (out.insert corpusId n) lines

/-- `list_corpora` of the text that the C++ side returns. -/
def listCorpora (result : List Char) :
    Except ListingError (AList fun _ : String => Int) :=
  if result = [] then .ok ∅ else readLines ∅ (result.splitOn '\n')

/-- The dictionary has the held ids and their token counts, and nothing else. -/
def ListsCorpora (o : Ngram) (out : AList fun _ : String => Int) : Prop :=
  ∀ corpusId, out.lookup corpusId =
    (o.sams.lookup corpusId).map fun sam => (sam.tokenCount : Int)

/-- No line or field of the listing ends inside the id. -/
def PlainId (corpusId : String) : Prop := '\t' ∉ corpusId.toList ∧ '\n' ∉ corpusId.toList

instance (corpusId : String) : Decidable (PlainId corpusId) :=
  inferInstanceAs (Decidable (_ ∧ _))

theorem readLine_listingLine {entry : String × Nat} (h : '\t' ∉ entry.1.toList) :
    readLine (listingLine entry) = .ok (entry.1, (entry.2 : Int)) := by
  have hfield : ∀ c ∈ entry.1.toList, (c != '\t') = true := fun c hc =>
    bne_iff_ne.mpr fun heq => h (heq ▸ hc)
  have hdrop : (listingLine entry).dropWhile (· != '\t') = '\t' :: Nat.toDigits 10 entry.2 := by
    rw [listingLine, List.dropWhile_append_of_pos hfield]
    rfl
  have htake : (listingLine entry).takeWhile (· != '\t') = entry.1.toList := by
    rw [listingLine, List.takeWhile_append_of_pos hfield]
    simp
  simp only [readLine, hdrop, htake, Decimal.parseInt_toDigits, String.ofList_toList]

theorem newline_notMem_listingLine {entry : String × Nat} (h : '\n' ∉ entry.1.toList) :
    '\n' ∉ listingLine entry := by
  intro hmem
  simp only [listingLine, List.mem_append, List.mem_cons] at hmem
  obtain hid | htab | hdigit := hmem
  · exact h hid
  · exact absurd htab (by decide)
  · exact absurd (Decimal.isDigit_of_mem hdigit) (by decide)

theorem readLines_listingLines {entries : List (String × Nat)}
    (h : ∀ entry ∈ entries, '\t' ∉ entry.1.toList) (out : AList fun _ : String => Int) :
    readLines out (entries.map listingLine) =
      .ok (entries.foldl (fun out entry => out.insert entry.1 (entry.2 : Int)) out) := by
  induction entries generalizing out with
  | nil => rfl
  | cons entry entries ih =>
      rw [List.map_cons, readLines, readLine_listingLine (h entry List.mem_cons_self)]
      exact ih (fun e he => h e (List.mem_cons_of_mem entry he)) _

/-- What the pairs of a table with distinct keys leave in a dictionary. -/
theorem lookup_foldl_insert {β γ : Type} (f : β → γ) {entries : List (Sigma fun _ : String => β)}
    (hnodup : entries.NodupKeys) (out : AList fun _ : String => γ) (a : String) :
    (entries.foldl (fun out e => out.insert e.1 (f e.2)) out).lookup a =
      ((entries.dlookup a).map f).or (out.lookup a) := by
  induction entries generalizing out with
  | nil => rfl
  | cons e entries ih =>
      obtain ⟨hnotMem, hrest⟩ := List.nodupKeys_cons.mp hnodup
      rw [List.foldl_cons, ih hrest]
      by_cases ha : a = e.1
      · subst ha
        rw [List.dlookup_eq_none.mpr hnotMem, List.dlookup_cons_eq, AList.lookup_insert]
        rfl
      · rw [List.dlookup_cons_ne _ _ ha, AList.lookup_insert_ne ha]

private theorem listingLine_ne_nil (entry : String × Nat) : listingLine entry ≠ [] := by
  simp [listingLine]

theorem listCorpora_of_plain {o : Ngram} (h : ∀ corpusId ∈ o.sams, PlainId corpusId) :
    ∃ out, listCorpora (listExternalCorporaText o) = .ok out ∧ ListsCorpora o out := by
  have hplain : ∀ entry ∈ o.listExternalCorpora, PlainId entry.1 := by
    intro entry hentry
    obtain ⟨e, he, rfl⟩ := List.mem_map.mp hentry
    exact h e.1 (List.mem_keys_of_mem he)
  by_cases hempty : o.listExternalCorpora = []
  · refine ⟨∅, ?_, fun corpusId => ?_⟩
    · rw [listExternalCorporaText, hempty]
      rfl
    · have hentries : o.sams.entries = [] := List.map_eq_nil_iff.mp hempty
      rw [AList.lookup, AList.lookup, hentries]
      rfl
  · have hlines : o.listExternalCorpora.map listingLine ≠ [] := by simpa using hempty
    have hsplit : (listExternalCorporaText o).splitOn '\n' =
        o.listExternalCorpora.map listingLine := by
      apply List.splitOn_intercalate _ _ hlines
      intro line hline
      obtain ⟨entry, hentry, rfl⟩ := List.mem_map.mp hline
      exact newline_notMem_listingLine (hplain entry hentry).2
    have hne : listExternalCorporaText o ≠ [] := by
      intro hnil
      obtain ⟨entry, entries, heq⟩ := List.exists_cons_of_ne_nil hempty
      rw [hnil, heq, List.map_cons] at hsplit
      exact listingLine_ne_nil entry (List.cons.inj hsplit).1.symm
    refine ⟨o.listExternalCorpora.foldl (fun out entry => out.insert entry.1 (entry.2 : Int)) ∅,
      ?_, fun corpusId => ?_⟩
    · rw [listCorpora, if_neg hne, hsplit]
      exact readLines_listingLines (fun entry hentry => (hplain entry hentry).1) ∅
    · rw [Ngram.listExternalCorpora, List.foldl_map,
        lookup_foldl_insert (fun sam : SuffixAutomaton => (sam.tokenCount : Int)) o.sams.nodupKeys]
      exact Option.or_none

theorem readLine_eq_ok {line : List Char} {corpusId : String} {n : Int}
    (h : readLine line = .ok (corpusId, n)) : corpusId.toList = line.takeWhile (· != '\t') := by
  unfold readLine at h
  split at h
  · cases h
  · split at h
    · cases h
    · cases h
      exact String.toList_ofList

theorem notMem_of_mem_splitOn {α : Type} [DecidableEq α] {x : α} {t line : List α}
    (h : line ∈ t.splitOn x) : x ∉ line := by
  induction t generalizing line with
  | nil =>
      rw [List.splitOn_nil, List.mem_singleton] at h
      subst h
      exact List.not_mem_nil
  | cons c t ih =>
      rw [List.splitOn_cons_eq_if_modifyHead] at h
      split at h
      · obtain rfl | h := List.mem_cons.mp h
        · exact List.not_mem_nil
        · exact ih h
      · next hc =>
          cases hsplit : t.splitOn x with
          | nil => exact absurd hsplit (List.splitOn_ne_nil x t)
          | cons first rest =>
              rw [hsplit] at h
              obtain rfl | h := List.mem_cons.mp h
              · intro hmem
                obtain rfl | hmem := List.mem_cons.mp hmem
                · exact hc (beq_self_eq_true _)
                · exact ih (hsplit ▸ List.mem_cons_self) hmem
              · exact ih (hsplit ▸ List.mem_cons_of_mem first h)

/-- The ids that a line can give contain no tab, and no newline if the line does not. -/
private theorem plainId_of_readLine {line : List Char} {corpusId : String} {n : Int}
    (hline : '\n' ∉ line) (h : readLine line = .ok (corpusId, n)) : PlainId corpusId := by
  have hid := readLine_eq_ok h
  refine ⟨fun htab => ?_, fun hnewline => hline ?_⟩
  · rw [hid] at htab
    exact absurd (List.mem_takeWhile_imp htab) (by decide)
  · rw [hid] at hnewline
    exact (List.takeWhile_prefix _).subset hnewline

theorem plainId_of_readLines {lines : List (List Char)} {out out' : AList fun _ : String => Int}
    (hlines : ∀ line ∈ lines, '\n' ∉ line) (hout : ∀ corpusId ∈ out, PlainId corpusId)
    (h : readLines out lines = .ok out') : ∀ corpusId ∈ out', PlainId corpusId := by
  induction lines generalizing out with
  | nil =>
      cases h
      exact hout
  | cons line lines ih =>
      unfold readLines at h
      split at h
      · cases h
      · next corpusId n hread =>
          refine ih (fun l hl => hlines l (List.mem_cons_of_mem line hl)) ?_ h
          intro a ha
          obtain rfl | ha := (AList.mem_insert _).mp ha
          · exact plainId_of_readLine (hlines line List.mem_cons_self) hread
          · exact hout a ha

private theorem plainId_of_listCorpora {result : List Char} {out : AList fun _ : String => Int}
    (h : listCorpora result = .ok out) : ∀ corpusId ∈ out, PlainId corpusId := by
  have hempty : ∀ corpusId ∈ (∅ : AList fun _ : String => Int), PlainId corpusId :=
    fun corpusId hmem => absurd hmem (AList.notMem_empty corpusId)
  unfold listCorpora at h
  split at h
  · cases h
    exact hempty
  · exact plainId_of_readLines (fun line hline => notMem_of_mem_splitOn hline) hempty h

/-- The listing comes back as the map of the held corpora exactly when no held id contains a tab
or a newline. -/
theorem listCorpora_iff (o : Ngram) :
    (∃ out, listCorpora (listExternalCorporaText o) = .ok out ∧ ListsCorpora o out) ↔
      ∀ corpusId ∈ o.sams, PlainId corpusId := by
  constructor
  · rintro ⟨out, hread, hlists⟩ corpusId hmem
    apply plainId_of_listCorpora hread
    rw [← AList.lookup_isSome] at hmem ⊢
    rw [hlists corpusId, Option.isSome_map]
    exact hmem
  · exact listCorpora_of_plain

/-- An id with a newline breaks its line in two, and the first half has no token count. -/
theorem listCorpora_newline : let o : Ngram :=
      ⟨(∅ : AList fun _ : String => SuffixAutomaton).insert "a\nb" ⟨[7, 8]⟩, none⟩
    listCorpora (listExternalCorporaText o) = .error .notEnoughValues ∧
      ¬ ∃ out, listCorpora (listExternalCorporaText o) = .ok out ∧ ListsCorpora o out := by
  intro o
  have hread : listCorpora (listExternalCorporaText o) = .error .notEnoughValues := rfl
  refine ⟨hread, ?_⟩
  rintro ⟨out, hok, -⟩
  rw [hread] at hok
  cases hok

end SpecDecode.ExternalCorpus
