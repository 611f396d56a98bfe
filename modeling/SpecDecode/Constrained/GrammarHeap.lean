import SpecDecode.Constrained.GrammarManager

/-!
# The memory of the grammar objects

A call changes only what its object owns (`Changes`), and what is added stays behind the objects
that are there (`IsNew`). An object answers by its fields and those of its inner grammar
(`observe_congr`).
-/

namespace SpecDecode.Constrained

inductive Shape where
  | xgrammar
  | reasoner (grammar : Option Nat)
  | invalid
deriving DecidableEq

def GrammarObject.shape {Q M : Type} : GrammarObject Q M → Shape
  | .xgrammar _ _ => .xgrammar
  | .reasoner i _ _ => .reasoner i
  | .invalid _ => .invalid

namespace Heap

variable {Q M : Type} {h h' : Heap Q M} {a c i : Nat}

def shapeAt (h : Heap Q M) (a : Nat) : Option Shape := h[a]?.map GrammarObject.shape

def Owns (h : Heap Q M) (a c : Nat) : Prop := c = a ∨ h.shapeAt a = some (.reasoner (some c))

/-- A reasoner, with an inner grammar where it refers to one. -/
def IsReasoner (h : Heap Q M) (a : Nat) : Prop :=
  ∃ i, h.shapeAt a = some (.reasoner i) ∧ ∀ j, i = some j → h.shapeAt j = some .xgrammar

theorem lt_length_of_shapeAt {s : Shape} (hs : h.shapeAt a = some s) : a < h.length := by
  obtain ⟨o, ho, -⟩ := Option.map_eq_some_iff.mp hs
  exact (List.getElem?_eq_some_iff.mp ho).1

theorem IsReasoner.lt_length (ha : h.IsReasoner a) (hc : h.Owns a c) : c < h.length := by
  obtain ⟨i, hi, hgrammar⟩ := ha
  rcases hc with rfl | hc
  · exact lt_length_of_shapeAt hi
  · obtain rfl := Shape.reasoner.inj (Option.some.inj (hi.symm.trans hc))
    exact lt_length_of_shapeAt (hgrammar c rfl)

theorem shapeAt_of_isPrefix (hp : h <+: h') (ha : a < h.length) : h'.shapeAt a = h.shapeAt a := by
  obtain ⟨xs, rfl⟩ := hp
  exact congrArg _ (List.getElem?_append_left ha)

theorem owns_of_isPrefix (hp : h <+: h') (ha : a < h.length) : h'.Owns a c ↔ h.Owns a c := by
  rw [Owns, Owns, shapeAt_of_isPrefix hp ha]

theorem IsReasoner.of_isPrefix (ha : h.IsReasoner a) (hp : h <+: h') : h'.IsReasoner a := by
  obtain ⟨i, hi, hgrammar⟩ := ha
  refine ⟨i, ?_, fun j hj => ?_⟩
  · rw [shapeAt_of_isPrefix hp (lt_length_of_shapeAt hi), hi]
  · rw [shapeAt_of_isPrefix hp (lt_length_of_shapeAt (hgrammar j hj)), hgrammar j hj]

structure Changes (a : Nat) (h h' : Heap Q M) : Prop where
  frame : ∀ c, ¬ h.Owns a c → h'[c]? = h[c]?
  shape : ∀ c, h'.shapeAt c = h.shapeAt c

theorem Changes.refl (a : Nat) (h : Heap Q M) : Changes a h h := ⟨fun _ _ => rfl, fun _ => rfl⟩

theorem Changes.owns {d : Nat} (hch : Changes a h h') : h'.Owns d c ↔ h.Owns d c := by
  rw [Owns, Owns, hch.shape]

theorem Changes.isReasoner {d : Nat} (hch : Changes a h h') (hd : h.IsReasoner d) :
    h'.IsReasoner d := by
  obtain ⟨i, hi, hgrammar⟩ := hd
  exact ⟨i, (hch.shape d).trans hi, fun j hj => (hch.shape j).trans (hgrammar j hj)⟩

theorem shapeAt_set {o o' : GrammarObject Q M} (ho : h[a]? = some o) (hshape : o'.shape = o.shape)
    (c : Nat) : shapeAt (h.set a o') c = h.shapeAt c := by
  by_cases hc : a = c
  · subst hc
    have hlt : a < h.length := (List.getElem?_eq_some_iff.mp ho).1
    rw [shapeAt, shapeAt, List.getElem?_set_self hlt, ho, Option.map_some, Option.map_some, hshape]
  · rw [shapeAt, shapeAt, List.getElem?_set_ne hc]

theorem changes_set {o o' : GrammarObject Q M} (ho : h[a]? = some o)
    (hshape : o'.shape = o.shape) : Changes a h (h.set a o') where
  frame _ hc := List.getElem?_set_ne fun heq => hc (.inl heq.symm)
  shape := shapeAt_set ho hshape

theorem changes_setMaxThinkTokens (a : Nat) (h : Heap Q M) (n : Int) :
    Changes a h (h.setMaxThinkTokens a n) := by
  rw [setMaxThinkTokens]
  split
  · next ho => exact changes_set ho rfl
  · exact .refl a h

theorem changes_maybeInitReasoning (a : Nat) (h : Heap Q M) (reasoning : Bool) :
    Changes a h (h.maybeInitReasoning a reasoning) := by
  rw [maybeInitReasoning]
  split
  · next ho => exact changes_set ho rfl
  · exact .refl a h

private theorem storeGrammar_changes (h : Heap Q M) (i : Nat) (g : XGrammarGrammar Q) :
    (∀ c, c ≠ i → (h.storeGrammar i g)[c]? = h[c]?) ∧
      ∀ c, (h.storeGrammar i g).shapeAt c = h.shapeAt c := by
  rw [storeGrammar]
  split
  · next ho => exact ⟨fun c hc => List.getElem?_set_ne hc.symm, shapeAt_set ho rfl⟩
  · exact ⟨fun _ _ => rfl, fun _ => rfl⟩

theorem changes_store (a : Nat) (h : Heap Q M) (s : ReasonerGrammarObject Q) :
    Changes a h (h.store a s) := by
  rw [store]
  split
  · next i phase f ho =>
      split
      · next g _ =>
          obtain ⟨hframe, hshape⟩ := storeGrammar_changes h i g
          have hown : h.shapeAt a = some (.reasoner (some i)) := by
            rw [shapeAt, ho]
            rfl
          have ho' : (h.storeGrammar i g).shapeAt a = some (.reasoner (some i)) := by
            rw [hshape, hown]
          obtain ⟨o, ho', hreasoner⟩ := Option.map_eq_some_iff.mp ho'
          refine ⟨fun c hc => ?_, fun c => ?_⟩
          · rw [List.getElem?_set_ne fun heq => hc (.inl heq.symm)]
            exact hframe c fun heq => hc (.inr (heq ▸ hown))
          · refine (shapeAt_set ho' ?_ c).trans (hshape c)
            exact hreasoner.symm
      · exact changes_set ho rfl
  · next ho => exact changes_set ho rfl
  · exact .refl a h

theorem changes_acceptToken {token : Nat} (hcall : h.acceptToken a token = some h') :
    Changes a h h' := by
  obtain ⟨⟨c, s⟩, -, hcall⟩ := Option.bind_eq_some_iff.mp hcall
  obtain ⟨s', -, rfl⟩ := Option.map_eq_some_iff.mp hcall
  exact changes_store a h s'

theorem changes_rollback {k : Nat} (hcall : h.rollback a k = some h') : Changes a h h' := by
  obtain ⟨⟨c, s⟩, -, hcall⟩ := Option.bind_eq_some_iff.mp hcall
  obtain ⟨s', -, rfl⟩ := Option.map_eq_some_iff.mp hcall
  exact changes_store a h s'

structure IsNew (h h' : Heap Q M) (a : Nat) : Prop where
  grows : h <+: h'
  isReasoner : h'.IsReasoner a
  behind : ∀ c, h'.Owns a c → h.length ≤ c

theorem isNew_pair (h : Heap Q M) (comp : Compilation Q M) (g : XGrammarGrammar Q) (phase : Phase)
    (f : ThinkFilter M) : IsNew h (h ++ [.xgrammar comp g, .reasoner (some h.length) phase f])
      (h.length + 1) := by
  have hgrammar : shapeAt (h ++ [.xgrammar comp g, .reasoner (some h.length) phase f]) h.length =
      some .xgrammar := by simp [shapeAt, GrammarObject.shape]
  have hreasoner : shapeAt (h ++ [.xgrammar comp g, .reasoner (some h.length) phase f])
      (h.length + 1) = some (.reasoner (some h.length)) := by simp [shapeAt, GrammarObject.shape]
  refine ⟨List.prefix_append _ _, ⟨_, hreasoner, fun j hj => ?_⟩, fun c hc => ?_⟩
  · rw [← Option.some.inj hj, hgrammar]
  · rcases hc with rfl | hc
    · exact Nat.le_succ _
    · rw [hreasoner] at hc
      cases hc
      exact Nat.le_refl _

theorem isNew_single (h : Heap Q M) (phase : Phase) (f : ThinkFilter M) :
    IsNew h (h ++ [.reasoner none phase f]) h.length := by
  have hreasoner : shapeAt (h ++ [.reasoner none phase f]) h.length = some (.reasoner none) := by
    simp [shapeAt, GrammarObject.shape]
  refine ⟨List.prefix_append _ _, ⟨_, hreasoner, nofun⟩, fun c hc => ?_⟩
  rcases hc with rfl | hc
  · exact Nat.le_refl _
  · rw [hreasoner] at hc
    cases hc

theorem IsNew.changes {h₀ : Heap Q M} (hn : IsNew h₀ h a) (hch : Changes a h h') :
    IsNew h₀ h' a where
  grows := by
    obtain ⟨xs, hxs⟩ := hn.grows
    refine List.prefix_iff_getElem?.mpr fun c hc => ?_
    have hout : ¬ h.Owns a c := fun hown => Nat.not_lt.mpr (hn.behind c hown) hc
    rw [hch.frame c hout, ← hxs, List.getElem?_append_left hc, List.getElem?_eq_getElem hc]
  isReasoner := hch.isReasoner hn.isReasoner
  behind c hc := hn.behind c (hch.owns.mp hc)

inductive Entry (b : Backend Q M) (h : Heap Q M) (key : GrammarKey) (a : Nat) : Prop where
  | compiled (c : Compilation Q M) (i : Nat) (requireReasoning : Bool)
      (hkey : b.dispatch key = .compiled c) (hne : i ≠ a)
      (reasoner : h[a]? =
        some (.reasoner (some i) (.maybeInitReasoning requireReasoning) b.filter))
      (grammar : h[i]? = some (.xgrammar c c.matcher))
  | invalid (errorMessage : String) (hkey : b.dispatch key = .invalid errorMessage)
      (object : h[a]? = some (.invalid errorMessage))
  | raised (error : String) (hkey : b.dispatch key = .raises error)
      (object : h[a]? = some (.invalid s!"Grammar compilation failed: {error}"))
  | timedOut (object : h[a]? = some (.invalid "Grammar preprocessing timed out"))

variable {b : Backend Q M} {key : GrammarKey}

theorem Entry.lt_length (he : Entry b h key a) (hc : h.Owns a c) : c < h.length := by
  cases he with
  | compiled comp i requireReasoning hkey hne reasoner grammar =>
      rcases hc with rfl | hc
      · exact (List.getElem?_eq_some_iff.mp reasoner).1
      · rw [shapeAt, reasoner] at hc
        cases hc
        exact (List.getElem?_eq_some_iff.mp grammar).1
  | invalid msg hkey object | raised error hkey object | timedOut object =>
      rcases hc with rfl | hc
      · exact (List.getElem?_eq_some_iff.mp object).1
      · rw [shapeAt, object] at hc
        cases hc

theorem Entry.congr (he : Entry b h key a) (hsame : ∀ c, h.Owns a c → h'[c]? = h[c]?) :
    Entry b h' key a := by
  have hself := hsame a (.inl rfl)
  cases he with
  | compiled comp i requireReasoning hkey hne reasoner grammar =>
      have hi := hsame i (.inr (by rw [shapeAt, reasoner]; rfl))
      exact .compiled comp i requireReasoning hkey hne (hself.trans reasoner) (hi.trans grammar)
  | invalid msg hkey object => exact .invalid msg hkey (hself.trans object)
  | raised error hkey object => exact .raised error hkey (hself.trans object)
  | timedOut object => exact .timedOut (hself.trans object)

theorem Entry.of_isPrefix (he : Entry b h key a) (hp : h <+: h') : Entry b h' key a := by
  refine he.congr fun c hc => ?_
  obtain ⟨xs, rfl⟩ := hp
  exact List.getElem?_append_left (he.lt_length hc)

theorem copy_reasoner {comp : Compilation Q M} {g : XGrammarGrammar Q} {phase : Phase}
    {f : ThinkFilter M} (ha : h[a]? = some (.reasoner (some i) phase f))
    (hi : h[i]? = some (.xgrammar comp g)) :
    h.copy a = (h ++ [.xgrammar comp comp.matcher, .reasoner (some h.length) phase f],
      h.length + 1) := by
  rw [copy, ha]
  dsimp only
  rw [copyGrammar, hi]
  simp [new]

theorem copy_invalid {msg : String} (ha : h[a]? = some (.invalid msg)) : h.copy a = (h, a) := by
  rw [copy, ha]
  dsimp only
  rw [copyGrammar, ha]

theorem maybeInitReasoning_pair (o : GrammarObject Q M) (phase : Phase) (f : ThinkFilter M)
    (requireReasoning : Bool) :
    maybeInitReasoning (h ++ [o, .reasoner (some h.length) phase f]) (h.length + 1)
        requireReasoning =
      h ++ [o, .reasoner (some h.length) (phase.reinit requireReasoning) f] := by
  have hsecond : (h ++ [o, .reasoner (some h.length) phase f])[h.length + 1]? =
      some (.reasoner (some h.length) phase f) := by simp
  rw [maybeInitReasoning, hsecond]
  dsimp only
  rw [List.set_append_right _ _ (Nat.le_add_right _ 1), Nat.add_sub_cancel_left]
  rfl

@[simp] theorem reinit_new (requireReasoning : Bool) :
    Phase.new.reinit requireReasoning = .maybeInitReasoning requireReasoning := by
  cases requireReasoning <;> rfl

theorem initValueDispatch_compiled {comp : Compilation Q M} (hkey : b.dispatch key = .compiled comp)
    (h : Heap Q M) (requireReasoning : Bool) :
    h.initValueDispatch b key requireReasoning =
      .ok (h ++ [.xgrammar comp comp.matcher,
        .reasoner (some h.length) (.maybeInitReasoning requireReasoning) b.filter],
        h.length + 1) := by
  have hpair := maybeInitReasoning_pair (h := h) (.xgrammar comp comp.matcher) .new b.filter
    requireReasoning
  rw [reinit_new] at hpair
  rw [initValueDispatch, hkey]
  simp only [new, makeGrammarObject, List.append_assoc, List.singleton_append,
    List.length_append, List.length_singleton, hpair]

/-- `accept_token` for one token after the other. -/
def acceptAll (h : Heap Q M) (a : Nat) (tokens : List Nat) : Option (Heap Q M) :=
  tokens.foldlM (fun h token => h.acceptToken a token) h

/-- What an object answers after these tokens: how it fills a mask, and whether it has ended. It is
`none` when a token raises. -/
def observe (h : Heap Q M) (a : Nat) (tokens : List Nat) : Option ((M → Nat → M) × Bool) :=
  (h.acceptAll a tokens).bind fun h =>
    (h.load a).map fun (c, s) => (s.fillVocabMask c, s.isTerminated c)

theorem load_cases {c : Config Q M} {s : ReasonerGrammarObject Q} (hl : h.load a = some (c, s)) :
    (∃ phase f, h[a]? = some (.reasoner none phase f) ∧ c = f.config (.absent Q M) ∧
      s = ⟨none, phase⟩) ∨
    ∃ i phase f comp g, h[a]? = some (.reasoner (some i) phase f) ∧
      h[i]? = some (.xgrammar comp g) ∧ c = f.config comp.ctx ∧ s = ⟨some g, phase⟩ := by
  rw [load] at hl
  split at hl
  · next phase f ho =>
      cases hl
      exact .inl ⟨phase, f, ho, rfl, rfl⟩
  · next i phase f ho =>
      split at hl
      · next comp g hi =>
          cases hl
          exact .inr ⟨i, phase, f, comp, g, ho, hi, rfl, rfl⟩
      · cases hl
  · cases hl

theorem load_reasoner {comp : Compilation Q M} {g : XGrammarGrammar Q} {phase : Phase}
    {f : ThinkFilter M} (ha : h[a]? = some (.reasoner (some i) phase f))
    (hi : h[i]? = some (.xgrammar comp g)) :
    h.load a = some (f.config comp.ctx, ⟨some g, phase⟩) := by
  rw [load, ha]
  dsimp only
  rw [hi]

theorem load_store {c : Config Q M} {s s' : ReasonerGrammarObject Q} (hl : h.load a = some (c, s))
    (hsome : s'.grammar.isSome = s.grammar.isSome) : (h.store a s').load a = some (c, s') := by
  obtain ⟨grammar, phase'⟩ := s'
  rcases load_cases hl with ⟨phase, f, ho, rfl, rfl⟩ | ⟨i, phase, f, comp, g, ho, hi, rfl, rfl⟩
  · obtain rfl : grammar = none :=
      Option.isSome_eq_false_iff.mp hsome |> Option.isNone_iff_eq_none.mp
    have hlt := (List.getElem?_eq_some_iff.mp ho).1
    rw [store, ho]
    dsimp only
    rw [load, List.getElem?_set_self hlt]
  · obtain ⟨g', rfl⟩ := Option.isSome_iff_exists.mp hsome
    have hlt := (List.getElem?_eq_some_iff.mp ho).1
    have hlti := (List.getElem?_eq_some_iff.mp hi).1
    have hne : i ≠ a := fun heq => by
      rw [heq, ho] at hi
      cases hi
    rw [store, ho]
    dsimp only
    rw [storeGrammar, hi]
    refine load_reasoner (List.getElem?_set_self (by rwa [List.length_set])) ?_
    rw [List.getElem?_set_ne hne.symm, List.getElem?_set_self hlti]

theorem load_acceptAll (h : Heap Q M) (a : Nat) (tokens : List Nat) :
    ((h.acceptAll a tokens).bind fun h => h.load a) = (h.load a).bind fun (c, s) =>
      (s.acceptAll c tokens).map fun s => (c, s) := by
  induction tokens generalizing h with
  | nil => cases hl : h.load a <;> simp [acceptAll, ReasonerGrammarObject.acceptAll, hl]
  | cons token tokens ih =>
      rw [acceptAll, List.foldlM_cons, acceptToken]
      cases hl : h.load a with
      | none => rfl
      | some p =>
          obtain ⟨c, s⟩ := p
          simp only [Option.bind_some, Option.bind_eq_bind, ReasonerGrammarObject.acceptAll,
            List.foldlM_cons]
          cases hs : s.acceptToken c token with
          | none => rfl
          | some s' =>
              have hsome : s'.grammar.isSome = s.grammar.isSome := by
                obtain ⟨grammar, hgrammar, rfl⟩ := Option.map_eq_some_iff.mp hs
                rw [ReasonerGrammarObject.acceptGrammar] at hgrammar
                split at hgrammar
                · next g hg =>
                    split at hgrammar
                    · obtain ⟨g', -, rfl⟩ := Option.map_eq_some_iff.mp hgrammar
                      rw [hg]
                      rfl
                    · obtain rfl := Option.some.inj hgrammar
                      rw [hg]
                · next hg =>
                    obtain rfl := Option.some.inj hgrammar
                    rw [hg]
              have hrest := ih (h.store a s')
              rw [load_store hl hsome] at hrest
              simpa [acceptAll, ReasonerGrammarObject.acceptAll] using hrest

theorem observe_congr {a' : Nat} (hl : h.load a = h'.load a') (tokens : List Nat) :
    h.observe a tokens = h'.observe a' tokens := by
  have hload : ∀ (h : Heap Q M) (a : Nat), h.observe a tokens =
      ((h.acceptAll a tokens).bind fun h => h.load a).map fun (c, s) =>
        (s.fillVocabMask c, s.isTerminated c) := fun h a => by
    rw [observe, Option.map_bind]
    rfl
  rw [hload, hload, load_acceptAll, load_acceptAll, hl]

end Heap

end SpecDecode.Constrained
