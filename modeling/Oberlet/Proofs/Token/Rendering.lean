import Oberlet.Proofs.Token.Lexed

/-!
# Reading undoes writing

Tokens are written one behind the other, with spacing between them.
-/

namespace Oberlet

/-- A token to be written: its kind and its value. -/
structure Word where
  kind : Token.Kind
  value : List Char
deriving DecidableEq, Repr

namespace Word

/-- Words that can be written. A string may have any value. Every other word has its own text as
value, so its kind must allow that text. -/
def Valid (w : Word) : Prop := w.kind = .stringLit ∨ Spelled w.kind w.value

def text (w : Word) : List Char :=
  if w.kind = .stringLit then '"' :: (Text.Escape.encode w.value ++ ['"']) else w.value

theorem Valid.lexeme {w : Word} (h : w.Valid) : Lexeme w.kind w.text w.value := by
  obtain ⟨kind, value⟩ := w
  by_cases hkind : kind = .stringLit
  · subst hkind
    exact .string (Text.Escape.decode?_encode value)
  · have htext : text ⟨kind, value⟩ = value := if_neg hkind
    rw [htext]
    exact .plain (h.resolve_left hkind)

end Word

/-- The text of words, each with the spacing behind it. -/
def render : List (Word × List Char) → List Char
  | [] => []
  | (word, gap) :: rest => word.text ++ (gap ++ render rest)

theorem parted_render {word : Word} {gap : List Char} {rest : List (Word × List Char)}
    (hgap : Spacing gap) (hgaps : ∀ pair ∈ ((word, gap) :: rest).dropLast, pair.2 ≠ []) :
    Parted (gap ++ render rest) := by
  cases rest with
  | cons next rest => exact hgap.parted (hgaps (word, gap) (by simp)) _
  | nil =>
    by_cases hne : gap = []
    · subst hne
      intro c hc
      cases hc
    · exact hgap.parted hne _

/-- What was written is spacing and lexemes by turns. -/
theorem lexed_render {words : List (Word × List Char)}
    (hwords : ∀ pair ∈ words, pair.1.Valid ∧ Spacing pair.2)
    (hgaps : ∀ pair ∈ words.dropLast, pair.2 ≠ []) (pos : Position) :
    ∃ tokens, Lexed Spacing (render words) pos tokens ∧
      tokens.map (fun t => (t.kind, t.value.toList)) =
        words.map fun pair => (pair.1.kind, pair.1.value) := by
  induction words generalizing pos with
  | nil => exact ⟨[], .done .nil, rfl⟩
  | cons pair rest ih =>
    obtain ⟨word, gap⟩ := pair
    obtain ⟨hvalid, hgap⟩ := hwords (word, gap) (by simp)
    have hrest : ∀ pair ∈ rest.dropLast, pair.2 ≠ [] := by
      cases rest with
      | nil => simp
      | cons next rest => exact fun pair hpair => hgaps pair (by simp [hpair])
    obtain ⟨tokens, hlexed, hmap⟩ := ih (fun pair hpair => hwords pair (by simp [hpair])) hrest
      ((pos.afterAll word.text).afterAll gap)
    have hparted := parted_render hgap hgaps
    have hbegins : beginsSpacing (word.text ++ (gap ++ render rest)) = false :=
      hvalid.lexeme.beginsSpacing fun _ hstar => absurd (hparted '*' hstar) (by decide)
    have hwhole := Lexed.token .nil (hvalid.lexeme.munches hparted) hbegins (hlexed.spaced hgap)
    exact ⟨_, hwhole, by simp [hmap]⟩

/-- The tokens read from a text of words are these words, in order, and then comes the end of the
text. Spacing may be chosen freely, but between two words there must be some. -/
theorem lexing_undoes_rendering {lead : List Char} {words : List (Word × List Char)}
    (hlead : Spacing lead) (hwords : ∀ pair ∈ words, pair.1.Valid ∧ Spacing pair.2)
    (hgaps : ∀ pair ∈ words.dropLast, pair.2 ≠ []) :
    (TokenStream.ofSource (lead ++ render words)).fault = none ∧
      (TokenStream.ofSource (lead ++ render words)).tokens.map
          (fun t => (t.kind, t.value.toList)) =
        words.map (fun pair => (pair.1.kind, pair.1.value)) ++ [(.eof, [])] := by
  obtain ⟨tokens, hlexed, hmap⟩ := lexed_render hwords hgaps (Position.origin.afterAll lead)
  rw [TokenStream.ofSource_of_lexed (hlexed.spaced hlead)]
  simp [hmap, Token.atEnd]

/-- Words of several kinds, with a comment in a comment between the first two. -/
def sampleWords : List (Word × List Char) :=
  [(⟨.lparen, ['(']⟩, " (*(**)*)".toList), (⟨.ident, "x1".toList⟩, ['\n']),
    (⟨.realLit, "2.5E-3".toList⟩, "(**)".toList), (⟨.stringLit, "a\n\"".toList⟩, [])]

theorem sampleWords_valid : ∀ pair ∈ sampleWords, pair.1.Valid ∧ Spacing pair.2 := by
  have hdigits {c : Char} (h : c.isDigit = true) : Digits [c] := ⟨by simp, by simpa using h⟩
  have hparen : Token.Kind.lparen.spelling = some "(" := rfl
  have hident : Spelled .ident ['x', '1'] := by
    refine .ident rfl (List.forall_mem_singleton.mpr rfl) fun kind => ?_
    cases kind <;> decide
  have hreal : Spelled .realLit (['2'] ++ '.' :: (['5'] ++ 'E' :: (['-'] ++ ['3']))) :=
    .real (hdigits rfl) (hdigits rfl) (.some (.inl rfl) (.inr (.inr rfl)) (hdigits rfl))
  simp only [sampleWords, List.forall_mem_cons]
  refine ⟨⟨.inr (.fixed hparen), .blank rfl (.comment (.comment .nil .nil) .nil)⟩,
    ⟨.inr hident, .blank rfl .nil⟩, ⟨.inr hreal, .comment .nil .nil⟩, ⟨.inl rfl, .nil⟩, by simp⟩

/-- The words are read back from their text. -/
theorem sampleWords_read_back :
    (TokenStream.ofSource "\t( (*(**)*)x1\n2.5E-3(**)\"a\\n\\\"\"".toList).fault = none ∧
      (TokenStream.ofSource "\t( (*(**)*)x1\n2.5E-3(**)\"a\\n\\\"\"".toList).tokens.map
          (fun t => (t.kind, t.value.toList)) =
        [(.lparen, "(".toList), (.ident, "x1".toList), (.realLit, "2.5E-3".toList),
          (.stringLit, "a\n\"".toList), (.eof, [])] :=
  have htab : Spacing ['\t'] := .blank rfl .nil
  lexing_undoes_rendering htab sampleWords_valid (by decide)

end Oberlet
