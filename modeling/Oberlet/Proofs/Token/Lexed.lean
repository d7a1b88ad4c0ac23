import Oberlet.Proofs.Token.Lexeme

/-!
# Texts and their tokens

A text that is read without error is spacing and lexemes by turns. `Lexed` says so, and with which
tokens. Its first argument says how the text ends behind the last token; a text may also end inside
a comment.
-/

namespace Oberlet

/-- The text ends inside a comment. -/
def OpenComment (cs : List Char) : Prop := ∃ depth, Skips 0 cs (depth + 1)

/-- The text, from a position on, has the given tokens, and behind them it ends in a certain way. -/
inductive Lexed (Tail : List Char → Prop) : List Char → Position → List Token → Prop
  | done {cs : List Char} {pos : Position} : Tail cs → Lexed Tail cs pos []
  | token {gap text value rest : List Char} {kind : Token.Kind} {pos : Position}
      {tokens : List Token} : Spacing gap → Munches kind text value rest →
      beginsSpacing (text ++ rest) = false →
      Lexed Tail rest ((pos.afterAll gap).afterAll text) tokens →
      Lexed Tail (gap ++ (text ++ rest)) pos
        (⟨kind, String.ofList value,
          .between (pos.afterAll gap) ((pos.afterAll gap).afterAll text)⟩ :: tokens)

namespace Lexed

variable {Tail : List Char → Prop} {cs : List Char} {pos : Position} {tokens : List Token}

theorem length_le (h : Lexed Tail cs pos tokens) : tokens.length ≤ cs.length := by
  induction h with
  | done => simp
  | token _ hmunches _ _ ih =>
    have := List.length_pos_iff.mpr hmunches.lexeme.ne_nil
    simp only [List.length_cons, List.length_append]
    omega

theorem kind_ne_eof (h : Lexed Tail cs pos tokens) : ∀ t ∈ tokens, t.kind ≠ .eof := by
  induction h with
  | done => simp
  | token _ hmunches _ _ ih => simpa using ⟨hmunches.lexeme.kind_ne_eof, ih⟩

theorem spaced {gap : List Char} (hgap : Spacing gap)
    (h : Lexed Spacing cs (pos.afterAll gap) tokens) : Lexed Spacing (gap ++ cs) pos tokens := by
  cases h with
  | done hcs => exact .done (hgap.append hcs)
  | @token gap' _ _ _ _ _ _ hgap' hmunches hbegins hrest =>
    rw [← Position.afterAll_append pos gap gap'] at hrest ⊢
    rw [← List.append_assoc]
    exact .token (hgap.append hgap') hmunches hbegins hrest

end Lexed

/-! ## Reading one token -/

def Token.atEnd (pos : Position) : Token := ⟨.eof, "", .between pos pos⟩

namespace Lexer

variable {cs gap text value rest : List Char} {kind : Token.Kind} {pos : Position}

theorem next_of_munches (hgap : Spacing gap) (hmunches : Munches kind text value rest)
    (hbegins : beginsSpacing (text ++ rest) = false) :
    next ⟨gap ++ (text ++ rest), pos, []⟩ =
      (.ok ⟨kind, String.ofList value,
          .between (pos.afterAll gap) ((pos.afterAll gap).afterAll text)⟩,
        ⟨rest, (pos.afterAll gap).afterAll text, []⟩) := by
  obtain ⟨flag, hskip⟩ := skipGap_of_skips (.of_spacing hgap) hbegins pos false pos
  simp [next, hskip, readLexeme_of_munches hmunches]

theorem next_of_spacing (h : Spacing cs) :
    next ⟨cs, pos, []⟩ = (.ok (.atEnd (pos.afterAll cs)), ⟨[], pos.afterAll cs, []⟩) := by
  have hnil : beginsSpacing [] = false := rfl
  obtain ⟨flag, hskip⟩ := skipGap_of_skips (.of_spacing h) hnil pos false pos
  rw [List.append_nil] at hskip
  simp [next, hskip, readLexeme, Token.atEnd]

theorem next_of_openComment (pos : Position) (h : OpenComment cs) :
    ∃ d after, next ⟨cs, pos, []⟩ = (.error d, after) ∧ d.cause = .unclosedComment := by
  obtain ⟨depth, hskips⟩ := h
  obtain ⟨first, last, hskip⟩ := skipGap_unclosed hskips pos false pos
  refine ⟨.on (.between first last) .unclosedComment, ⟨[], last, []⟩, ?_, rfl⟩
  simp only [next, hskip]

/-- What is read next is a lexeme behind spacing, or the end. -/
theorem next_ok {token : Token} {after : Lexer} (h : next ⟨cs, pos, []⟩ = (.ok token, after)) :
    (Spacing cs ∧ token = .atEnd (pos.afterAll cs)) ∨
      ∃ gap text value rest kind, cs = gap ++ (text ++ rest) ∧ Spacing gap ∧
        Munches kind text value rest ∧ beginsSpacing (text ++ rest) = false ∧
        token = ⟨kind, String.ofList value,
          .between (pos.afterAll gap) ((pos.afterAll gap).afterAll text)⟩ ∧
        after = ⟨rest, (pos.afterAll gap).afterAll text, []⟩ := by
  unfold next at h
  dsimp only at h
  split at h
  · cases h
  · rename_i behind start commented hskip
    obtain ⟨hbegins, gap, rfl, rfl, hskips⟩ := skips_of_skipGap hskip
    have hgap := spacing_iff_skips.mpr hskips
    rw [ite_self] at h
    cases behind with
    | nil =>
      cases h
      exact .inl ⟨by simpa using hgap, by simp [readLexeme, Token.atEnd]⟩
    | cons c behind =>
      generalize hread : readLexeme [] (c :: behind) (pos.afterAll gap) = reading at h
      obtain ⟨outcome, value, rest, stop⟩ := reading
      cases outcome with
      | error cause => cases h
      | ok kind =>
        cases h
        obtain ⟨text, hmunches, htext, rfl⟩ := munches_of_readLexeme (by simp) hread
        rw [htext] at hbegins ⊢
        exact .inr ⟨gap, text, value, rest, kind, rfl, hgap, hmunches, hbegins, by simp, by simp⟩

end Lexer

/-! ## Reading all tokens -/

namespace TokenStream

variable {cs source : List Char} {pos : Position} {tokens : List Token} {count : Nat}

theorem read_token {gap text value rest : List Char} {kind : Token.Kind} (hgap : Spacing gap)
    (hmunches : Munches kind text value rest) (hbegins : beginsSpacing (text ++ rest) = false) :
    read (count + 1) ⟨gap ++ (text ++ rest), pos, []⟩ =
      let stream := read count ⟨rest, (pos.afterAll gap).afterAll text, []⟩
      { stream with tokens := ⟨kind, String.ofList value,
          .between (pos.afterAll gap) ((pos.afterAll gap).afterAll text)⟩ :: stream.tokens } := by
  simp [read, Lexer.next_of_munches hgap hmunches hbegins, hmunches.lexeme.kind_ne_eof]

theorem read_of_lexed (h : Lexed Spacing cs pos tokens) (hcount : tokens.length < count) :
    read count ⟨cs, pos, []⟩ = ⟨tokens ++ [.atEnd (pos.afterAll cs)], none⟩ := by
  obtain ⟨count, rfl⟩ := Nat.exists_eq_succ_of_ne_zero (Nat.ne_of_gt (Nat.zero_lt_of_lt hcount))
  induction h generalizing count with
  | done hcs => simp [read, Lexer.next_of_spacing hcs, Token.atEnd]
  | token hgap hmunches hbegins _ ih =>
    rw [read_token hgap hmunches hbegins]
    match count with
    | 0 => simp at hcount
    | count + 1 => simp [ih count (Nat.lt_of_succ_lt_succ hcount)]

theorem read_of_broken {Tail : List Char → Prop} {P : Diagnostic → Prop}
    (hTail : ∀ {cs} pos, Tail cs → ∃ d after, Lexer.next ⟨cs, pos, []⟩ = (.error d, after) ∧ P d)
    (h : Lexed Tail cs pos tokens) (hcount : tokens.length < count) :
    ∃ d, read count ⟨cs, pos, []⟩ = ⟨tokens, some d⟩ ∧ P d := by
  obtain ⟨count, rfl⟩ := Nat.exists_eq_succ_of_ne_zero (Nat.ne_of_gt (Nat.zero_lt_of_lt hcount))
  induction h generalizing count with
  | @done _ pos hcs =>
    obtain ⟨d, after, hnext, hd⟩ := hTail pos hcs
    exact ⟨d, by simp [read, hnext], hd⟩
  | token hgap hmunches hbegins _ ih =>
    rw [read_token hgap hmunches hbegins]
    match count with
    | 0 => simp at hcount
    | count + 1 =>
      obtain ⟨d, hread, hd⟩ := ih count (Nat.lt_of_succ_lt_succ hcount)
      exact ⟨d, by simp [hread], hd⟩

theorem read_of_openComment (h : Lexed OpenComment cs pos tokens) (hcount : tokens.length < count) :
    ∃ d, read count ⟨cs, pos, []⟩ = ⟨tokens, some d⟩ ∧ d.cause = .unclosedComment :=
  read_of_broken Lexer.next_of_openComment h hcount

theorem lexed_of_read (hcount : cs.length < count) (h : (read count ⟨cs, pos, []⟩).fault = none) :
    ∃ tokens, Lexed Spacing cs pos tokens := by
  induction count generalizing cs pos with
  | zero => simp at hcount
  | succ count ih =>
    unfold read at h
    split at h
    · cases h
    · rename_i token after hnext
      obtain ⟨hspacing, -⟩ |
        ⟨gap, text, value, rest, kind, rfl, hgap, hmunches, hbegins, rfl, rfl⟩ :=
          Lexer.next_ok hnext
      · exact ⟨[], .done hspacing⟩
      · have hlength := List.length_pos_iff.mpr hmunches.lexeme.ne_nil
        simp only [List.length_append] at hcount
        have hkind := hmunches.lexeme.kind_ne_eof
        simp only [beq_iff_eq, hkind, if_false] at h
        obtain ⟨tokens, hrest⟩ := ih (by omega) h
        exact ⟨_, .token hgap hmunches hbegins hrest⟩

/-- The tokens of a text are read from it. -/
theorem ofSource_of_lexed (h : Lexed Spacing source .origin tokens) :
    ofSource source = ⟨tokens ++ [.atEnd (Position.origin.afterAll source)], none⟩ :=
  read_of_lexed h (Nat.lt_succ_of_le h.length_le)

/-- A text that is read without error is spacing and lexemes by turns. -/
theorem lexed_of_ofSource (h : (ofSource source).fault = none) :
    ∃ tokens, Lexed Spacing source .origin tokens :=
  lexed_of_read (Nat.lt_succ_self _) h

theorem kind_ne_eof_of_fault {lexer : Lexer} (h : (read count lexer).fault ≠ none) :
    ∀ t ∈ (read count lexer).tokens, t.kind ≠ .eof := by
  induction count generalizing lexer with
  | zero => simp [read]
  | succ count ih =>
    unfold read at h ⊢
    split
    · simp
    · rename_i token after hnext
      simp only [hnext] at h
      split
      · rename_i hkind
        simp [hkind] at h
      · rename_i hkind
        rw [if_neg hkind] at h
        simpa using ⟨by simpa using hkind, ih h⟩

end TokenStream

end Oberlet
