import Oberlet.Proofs.Token.Continued
import Oberlet.Proofs.Token.Placement

/-!
# Spans of a text

A span lies in a text if it is that of a range of it.
-/

namespace Oberlet

/-- The span is that of a range of the text. -/
def Span.LiesIn (source : List Char) (span : Span) : Prop :=
  ∃ i j, i ≤ j ∧ j ≤ source.length ∧
    span = .between (positionAt source i) (positionAt source j)

/-- The diagnostic has a span, and all its spans are those of ranges of the text. -/
structure Diagnostic.LiesIn (source : List Char) (d : Diagnostic) : Prop where
  span : ∃ span, d.span = some span ∧ span.LiesIn source
  related : ∀ span, d.related = some span → span.LiesIn source

/-- The span is that of a range of a text that begins at a position, and no blank is at its start.
-/
def Span.Sited (pos : Position) (cs : List Char) (span : Span) : Prop :=
  ∃ before text behind, cs = before ++ (text ++ behind) ∧
    (∀ c ∈ (text ++ behind).head?, Lexer.isBlank c = false) ∧
    span = .between (pos.afterAll before) ((pos.afterAll before).afterAll text)

structure Diagnostic.Sited (pos : Position) (cs : List Char) (d : Diagnostic) : Prop where
  span : ∃ span, d.span = some span ∧ span.Sited pos cs
  related : ∀ span, d.related = some span → span.Sited pos cs

section

variable {source front cs : List Char} {pos : Position} {span : Span} {d : Diagnostic}

theorem Span.Sited.append (h : span.Sited (pos.afterAll front) cs) :
    span.Sited pos (front ++ cs) := by
  obtain ⟨before, text, behind, rfl, hstart, rfl⟩ := h
  exact ⟨front ++ before, text, behind, by simp, hstart, by simp⟩

theorem Diagnostic.Sited.append (h : d.Sited (pos.afterAll front) cs) : d.Sited pos (front ++ cs) :=
  ⟨h.span.imp fun _ hspan => ⟨hspan.1, hspan.2.append⟩,
    fun span hspan => (h.related span hspan).append⟩

theorem Diagnostic.Sited.on (h : span.Sited pos cs) (cause : Diagnostic.Cause) :
    (Diagnostic.on span cause).Sited pos cs :=
  ⟨⟨span, rfl, h⟩, nofun⟩

theorem Span.Sited.liesIn (h : span.Sited .origin source) : span.LiesIn source := by
  obtain ⟨before, text, behind, rfl, -, rfl⟩ := h
  refine ⟨before.length, (before ++ text).length, by simp, by simp, ?_⟩
  rw [positionAt_length, ← List.append_assoc, positionAt_length, Position.afterAll_append]

theorem Diagnostic.Sited.liesIn (h : d.Sited .origin source) : d.LiesIn source :=
  ⟨h.span.imp fun _ hspan => ⟨hspan.1, hspan.2.liesIn⟩,
    fun span hspan => (h.related span hspan).liesIn⟩

theorem not_blank_of_beginsSpacing (h : beginsSpacing cs = false) :
    ∀ c ∈ cs.head?, Lexer.isBlank c = false := by
  unfold beginsSpacing at h
  split at h <;> simp_all

end

/-- The tokens are in the order of the text: there is a range from each of them to any later one. -/
structure Row (source : List Char) (ts : List Token) : Prop where
  each : ∀ t ∈ ts, t.span.Sited .origin source
  pairs : ts.Pairwise fun t u => (t.span.cover u.span).Sited .origin source

theorem Row.sublist {source : List Char} {ts us : List Token} (h : Row source ts)
    (hus : us.Sublist ts) : Row source us :=
  ⟨fun t ht => h.each t (hus.subset ht), h.pairs.sublist hus⟩

/-! ## Tokens -/

namespace Lexed

variable {Tail : List Char → Prop} {cs : List Char} {pos : Position} {tokens : List Token}

/-- The tokens of a text lie in it. -/
theorem sited (h : Lexed Tail cs pos tokens) :
    ∀ t ∈ tokens ++ [.atEnd (pos.afterAll cs)], t.span.Sited pos cs := by
  induction h with
  | @done cs pos hcs => exact List.forall_mem_singleton.mpr ⟨cs, [], [], by simp, by simp, rfl⟩
  | @token gap text value rest kind pos tokens _ _ hbegins _ ih =>
    rw [Position.afterAll_append, Position.afterAll_append]
    exact List.forall_mem_cons.mpr ⟨⟨gap, text, rest, rfl, not_blank_of_beginsSpacing hbegins, rfl⟩,
      fun t ht => (ih t ht).append.append⟩

/-- From the start of a token to the end of a later one there is a range. -/
theorem cover_sited (h : Lexed Tail cs pos tokens) :
    (tokens ++ [Token.atEnd (pos.afterAll cs)]).Pairwise
      fun t u => (t.span.cover u.span).Sited pos cs := by
  induction h with
  | done => simp
  | @token gap text value rest kind pos tokens _ _ hbegins hrest ih =>
    rw [Position.afterAll_append, Position.afterAll_append, List.cons_append, List.pairwise_cons]
    refine ⟨fun u hu => ?_, ih.imp fun h => h.append.append⟩
    obtain ⟨front, text', back, rfl, -, hspan⟩ := hrest.sited u hu
    refine ⟨gap, text ++ (front ++ text'), back, by simp, ?_, by simp [hspan]⟩
    simpa using not_blank_of_beginsSpacing hbegins

end Lexed

theorem TokenStream.row (source : List Char) : Row source (ofSource source).tokens := by
  obtain ⟨Tail, ts, hlexed, htokens | htokens⟩ := exists_lexed source <;> rw [htokens]
  · exact Row.sublist ⟨hlexed.sited, hlexed.cover_sited⟩ (List.sublist_append_left _ _)
  · exact ⟨hlexed.sited, hlexed.cover_sited⟩

/-! ## Lexical errors -/

namespace Lexer

/-- What was read is a part of the text, and the rest of it is left. -/
def Reading.Advances (cs : List Char) (pos : Position) (r : Reading) : Prop :=
  ∃ text, cs = text ++ r.rest ∧ r.pos = pos.afterAll text

variable {cs pending : List Char} {pos : Position}

theorem Reading.Advances.append (front : List Char) {r : Reading}
    (h : r.Advances cs (pos.afterAll front)) : r.Advances (front ++ cs) pos := by
  obtain ⟨text, rfl, hpos⟩ := h
  exact ⟨front ++ text, by simp, by simpa using hpos⟩

theorem readWord_advances : (readWord pending cs pos).Advances cs pos :=
  ⟨cs.takeWhile Text.isIdentRest, List.takeWhile_append_dropWhile.symm, rfl⟩

theorem readExponent_advances (pending cs : List Char) (pos : Position) :
    (readExponent pending cs pos).Advances cs pos := by
  unfold readExponent
  split
  · rename_i mark rest
    split
    · obtain ⟨sign, digitsOn, hsplit⟩ : ∃ sign digitsOn, splitSign rest = (sign, digitsOn) :=
        ⟨_, _, rfl⟩
      obtain ⟨rfl, -⟩ := splitSign_eq hsplit
      simp only [hsplit]
      split
      · exact ⟨mark :: sign, rfl, rfl⟩
      · refine ⟨mark :: (sign ++ digitsOn.takeWhile Char.isDigit), ?_, by simp⟩
        simp [List.takeWhile_append_dropWhile]
    · exact ⟨[], rfl, rfl⟩
  · exact ⟨[], rfl, rfl⟩

theorem readNumber_advances : (readNumber pending cs pos).Advances cs pos := by
  unfold readNumber
  have hwhole := List.takeWhile_append_dropWhile (p := Char.isDigit) (l := cs)
  dsimp only
  generalize cs.takeWhile Char.isDigit = whole at *
  generalize cs.dropWhile Char.isDigit = behind at *
  subst hwhole
  refine .append whole ?_
  split
  · rename_i rest
    have hfraction := List.takeWhile_append_dropWhile (p := Char.isDigit) (l := rest)
    split
    · exact ⟨['.'], rfl, rfl⟩
    · have hnumber := Reading.Advances.append ('.' :: rest.takeWhile Char.isDigit)
        (readExponent_advances (pending ++ whole ++ ['.'] ++ rest.takeWhile Char.isDigit)
          (rest.dropWhile Char.isDigit) ((pos.afterAll whole).afterAll _))
      rw [List.cons_append, hfraction] at hnumber
      exact hnumber
  · exact ⟨[], rfl, rfl⟩

theorem readString_advances : (readString cs pos).Advances cs pos := by
  fun_induction readString cs pos with
  | case1 => exact ⟨[], rfl, rfl⟩
  | case2 => exact ⟨['"'], rfl, rfl⟩
  | case3 => exact ⟨['\\'], rfl, rfl⟩
  | case4 c rest pos inside decoded hdecoded tail ih => exact .append ['\\', c] ih
  | case5 c rest pos inside hnone => exact ⟨['\\', c], rfl, rfl⟩
  | case6 => exact ⟨[], rfl, rfl⟩
  | case7 c rest pos hquote hlone hescape hnewline tail ih => exact .append [c] ih

theorem extendSymbol_advances {kind : Token.Kind} :
    (extendSymbol kind pending cs pos).Advances cs pos := by
  induction cs generalizing kind pending pos with
  | nil => exact ⟨[], rfl, rfl⟩
  | cons c cs ih =>
    unfold extendSymbol
    split
    · exact .append [c] ih
    · exact ⟨[], rfl, rfl⟩

theorem readLexeme_advances (pending cs : List Char) (pos : Position) :
    (readLexeme pending cs pos).Advances cs pos := by
  unfold readLexeme
  split
  · exact ⟨[], rfl, rfl⟩
  · exact ⟨['('], rfl, rfl⟩
  · exact .append ['"'] readString_advances
  · rename_i c rest _ _
    split
    · exact readNumber_advances
    · split
      · exact readWord_advances
      · unfold readSymbol
        dsimp only
        split
        · exact .append [c] extendSymbol_advances
        · exact ⟨[c], rfl, rfl⟩

/-- The span of a lexical error lies in the text. -/
theorem next_error_sited {d : Diagnostic} {after : Lexer}
    (h : next ⟨cs, pos, []⟩ = (.error d, after)) : d.Sited pos cs := by
  unfold next at h
  dsimp only at h
  split at h
  · rename_i first last hskip
    cases h
    obtain ⟨-, rfl, ⟨-, hdepth⟩ | ⟨front, back, rfl, rfl⟩⟩ := skips_of_unclosed hskip
    · exact absurd hdepth (Nat.lt_irrefl 0)
    · refine .on ⟨front, '(' :: back, [], by simp, ?_, by rw [Position.afterAll_append]⟩ _
      exact fun c hc => by cases hc; rfl
  · rename_i behind start commented hskip
    obtain ⟨hbegins, gap, rfl, rfl, -⟩ := skips_of_skipGap hskip
    rw [ite_self] at h
    obtain ⟨text, htext, hstop⟩ := readLexeme_advances [] behind (pos.afterAll gap)
    split at h
    · cases h
    · cases h
      refine .on ⟨gap, text, _, by rw [← htext], ?_, by rw [hstop]⟩ _
      rw [← htext]
      exact not_blank_of_beginsSpacing hbegins

end Lexer

namespace TokenStream

variable {source : List Char} {d : Diagnostic}

theorem sited_of_faulty_read {cs : List Char} {pos : Position} {count : Nat}
    (h : (read count ⟨cs, pos, []⟩).fault = some d) : d.Sited pos cs := by
  induction count generalizing cs pos with
  | zero => cases h
  | succ count ih =>
    unfold read at h
    split at h
    · rename_i fault after hnext
      cases h
      exact Lexer.next_error_sited hnext
    · rename_i token after hnext
      obtain ⟨-, rfl⟩ |
        ⟨gap, text, value, rest, kind, rfl, -, hmunches, -, rfl, rfl⟩ := Lexer.next_ok hnext
      · cases h
      · have hkind := hmunches.lexeme.kind_ne_eof
        simp only [beq_iff_eq, hkind, if_false] at h
        exact (ih h).append.append

theorem sited_of_fault (h : (ofSource source).fault = some d) : d.Sited .origin source :=
  sited_of_faulty_read h

end TokenStream

end Oberlet
