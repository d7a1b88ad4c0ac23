import Oberlet.Proofs.Token.Continued
import Oberlet.Proofs.Tree.Grammar

/-!
# The beginnings of phrases

Tokens begin a phrase if some words can be written behind them that complete it. Where the words are
written must not matter, so a completion is a list of words and not of tokens, which have spans.
-/

namespace Oberlet

namespace Word

def fixed (kind : Token.Kind) : Word := ⟨kind, (kind.spelling.getD "").toList⟩

def someName : Word := ⟨.ident, ['x']⟩

/-- The size of a small array. -/
def one : Word := ⟨.intLit, ['1']⟩

@[simp] theorem valid_fixed {kind : Token.Kind} (h : kind.spelling.isSome = true) :
    (fixed kind).Valid := by
  obtain ⟨text, htext⟩ := Option.isSome_iff_exists.mp h
  refine .inr ?_
  simp only [fixed, htext, Option.getD_some]
  exact .fixed htext

@[simp] theorem valid_someName : someName.Valid := by
  refine .inr (.ident rfl (by simp) fun kind => ?_)
  cases kind <;> decide

@[simp] theorem valid_one : one.Valid :=
  .inr (.integer ⟨List.cons_ne_nil _ _, List.forall_mem_singleton.mpr rfl⟩)

end Word

/-- The phrases of a production, whatever their trees. -/
def Derivable {α : Type} (P : List Token → α → Prop) (ts : List Token) : Prop := ∃ a, P ts a

/-- What is said about the node of a tree when only its tokens matter. -/
def AnyNode (_ : List Token) (_ : Node) : Prop := True

/-- Whatever tokens the words are written as, a property holds of them. -/
def EveryWriting : List Word → (List Token → Prop) → Prop
  | [], P => P []
  | w :: words, P => ∀ t : Token, t.kind = w.kind → t.value.toList = w.value →
      EveryWriting words fun us => P (t :: us)

@[simp] theorem everyWriting_nil (P : List Token → Prop) : EveryWriting [] P ↔ P [] := Iff.rfl

theorem EveryWriting.holds {words : List Word} {P : List Token → Prop} (h : EveryWriting words P)
    (us : List Token) (hus : us.map Token.word = words) : P us := by
  induction us generalizing words P with
  | nil =>
    subst hus
    exact h
  | cons t us ih =>
    subst hus
    exact ih (h t rfl rfl) rfl

/-- The tokens begin a phrase: there are words that complete it. -/
def Completable (Phrase : List Token → Prop) (ts : List Token) : Prop :=
  ∃ words : List Word, (∀ w ∈ words, w.Valid) ∧
    ∀ us : List Token, us.map Token.word = words → Phrase (ts ++ us)

/-- Behind some tokens, the same words make a phrase of the second production of every phrase of the
first. -/
def LeadsTo (First Second : List Token → Prop) (used : List Token) : Prop :=
  ∃ words : List Word, (∀ w ∈ words, w.Valid) ∧
    ∀ ts us : List Token, First ts → us.map Token.word = words → Second (used ++ (ts ++ us))

section

variable {First Second : List Token → Prop} {used ts : List Token}

theorem Completable.done (h : Second used) : Completable Second used := by
  refine ⟨[], by simp, fun us hus => ?_⟩
  rw [List.map_eq_nil_iff.mp hus, List.append_nil]
  exact h

theorem Completable.words (words : List Word) (hvalid : ∀ w ∈ words, w.Valid)
    (h : EveryWriting words fun us => Second (used ++ us)) : Completable Second used :=
  ⟨words, hvalid, fun us hus => h.holds us hus⟩

theorem LeadsTo.done (h : ∀ ts, First ts → Second (used ++ ts)) : LeadsTo First Second used := by
  refine ⟨[], by simp, fun ts us hts hus => ?_⟩
  rw [List.map_eq_nil_iff.mp hus, List.append_nil]
  exact h ts hts

theorem LeadsTo.words (words : List Word) (hvalid : ∀ w ∈ words, w.Valid)
    (h : ∀ ts, First ts → EveryWriting words fun us => Second (used ++ (ts ++ us))) :
    LeadsTo First Second used :=
  ⟨words, hvalid, fun ts us hts hus => (h ts hts).holds us hus⟩

theorem LeadsTo.single (kind : Token.Kind) (hkind : kind.spelling.isSome = true)
    (h : ∀ ts t, First ts → t.kind = kind → Second (used ++ (ts ++ [t]))) :
    LeadsTo First Second used :=
  .words [.fixed kind] (by simp [Word.valid_fixed hkind]) fun ts hts t ht _ => h ts t hts ht

/-- A beginning of one phrase is a beginning of the other. -/
theorem Completable.leads (h : LeadsTo First Second used) (hts : Completable First ts) :
    Completable Second (used ++ ts) := by
  obtain ⟨words, hvalid, hwords⟩ := hts
  obtain ⟨more, hmore, hlead⟩ := h
  refine ⟨words ++ more, ?_, fun us hus => ?_⟩
  · exact List.forall_mem_append.mpr ⟨hvalid, hmore⟩
  · obtain ⟨front, back, rfl, hfront, hback⟩ := List.map_eq_append_iff.mp hus
    have hwhole := hlead _ back (hwords front hfront) hback
    simpa using hwhole

/-- Behind a phrase that leads to another, that one can be completed. -/
theorem LeadsTo.completable (h : LeadsTo First Second used) (hts : First ts) :
    Completable Second (used ++ ts) :=
  Completable.leads h (.done hts)

end

/-! ## Subprograms in front of other tokens -/

variable {R : List Token → Node → Prop} {ts : List Token} {next next' : Token.Kind}
  {s : SubprogramDecl}

theorem IsHeading.name_valid {heading : Heading} (h : IsHeading R ts heading)
    (hwritable : ∀ t ∈ ts, t.Writable) : (Word.mk .ident heading.name.name.toList).Valid := by
  cases h with
  | @mk t t₁ ts us n params result ht ht₁ hparams hresult hn =>
    exact (hwritable t₁ (by simp)).name ht₁

theorem IsSubprogram.inFrontOf (h : IsSubprogram R next ts s) (hvar : next' ≠ .varKw)
    (hbegin : next' ≠ .beginKw) : IsSubprogram R next' ts s := by
  cases h with
  | forward hheading hsemi _ _ hn => exact .forward hheading hsemi hvar hbegin hn
  | definition hheading hsemi hvars hbegin hbody hend hclosing hsame hlast hn =>
    exact .definition hheading hsemi hvars hbegin hbody hend hclosing hsame hlast hn

theorem IsSubprogram.firstKind_eq {kind : Token.Kind} (h : IsSubprogram R next ts s) :
    firstKind ts kind = .procedureKw := by
  cases h with
  | forward hheading =>
    cases hheading
    assumption
  | definition hheading =>
    cases hheading
    assumption

theorem IsSubprograms.inFrontOf {ss : List SubprogramDecl} (h : IsSubprograms R next ts ss)
    (hvar : next' ≠ .varKw) (hbegin : next' ≠ .beginKw) : IsSubprograms R next' ts ss := by
  induction h with
  | nil => exact .nil
  | @cons ts us first rest hfirst hrest ih =>
    refine .cons ?_ ih
    cases hrest with
    | nil => exact hfirst.inFrontOf hvar hbegin
    | cons hsecond _ =>
      rw [firstKind_append, hsecond.firstKind_eq] at hfirst ⊢
      exact hfirst

end Oberlet
