import Oberlet.Proofs.Tree.Accepted

/-!
# Where syntax errors are reported

The tokens before a syntax error begin a module: some text that is a module has them as its first
tokens. No text is a module that has the reported token there, too.
-/

namespace Oberlet

open TokenStream

namespace TokenStream

variable {stream : TokenStream} {c : Cursor}

theorem cursor_last (hc : stream.cursor = .ok c) : c.last = c.token.span := by
  unfold cursor at hc
  split at hc <;> cases hc
  rfl

theorem cursor_ids (hc : stream.cursor = .ok c) : c.ids = .none := by
  unfold cursor at hc
  split at hc <;> cases hc
  rfl

theorem cursor_resumes {stream' : TokenStream} {c' : Cursor} {front back back' : List Token}
    {t : Token} (hc : stream.cursor = .ok c) (hc' : stream'.cursor = .ok c')
    (htokens : c.tokens = front ++ t :: back) (htokens' : stream'.tokens = front ++ t :: back') :
    c'.Resumes c (front ++ t :: back') := by
  obtain ⟨rest, hrest⟩ := Cursor.tokens_cons htokens back'
  have hall := (cursor_ok hc').1.trans htokens'
  rw [hrest] at hall ⊢
  obtain ⟨hfirst, -⟩ := List.cons.inj hall
  refine ⟨hall, ?_, ?_⟩
  · rw [cursor_last hc, cursor_last hc', hfirst]
  · rw [cursor_ids hc, cursor_ids hc']

theorem ofTokens_of_rejected (hstream : stream.Delimited) (hc : stream.cursor = .ok c)
    {depth : Nat} {d : Diagnostic} (h : Parser.program depth c = .error (.rejected d)) :
    Program.ofTokens stream = .error d := by
  have hrun : Parser.program stream.depth c = .error (.rejected d) := by
    obtain hle | hle := Nat.le_total stream.depth depth
    · exact ((program_halts Parser.anyNode_spanned hstream hc hle).same
        (program_ne_overrun hstream hc)).symm.trans h
    · exact ((program_halts Parser.anyNode_spanned hstream hc hle).same (by simp [h])).trans h
  rw [ofTokens_eq_concluded hc, hrun]
  rfl

end TokenStream

theorem TokenStream.split_end {ts front back : List Token} {eof t : Token}
    (h : ts ++ [eof] = front ++ t :: back) :
    (front = ts ∧ t = eof) ∨ ∃ rest, ts = front ++ t :: rest := by
  rcases List.eq_nil_or_concat back with rfl | ⟨rest, last, rfl⟩
  · obtain ⟨rfl, ht⟩ := List.append_inj' h rfl
    exact .inl ⟨rfl, (List.cons.inj ht).1.symm⟩
  · have hsplit : ts ++ [eof] = (front ++ t :: rest) ++ [last] := by simpa using h
    exact .inr ⟨rest, (List.append_inj' hsplit rfl).1⟩

theorem Parser.Blames.incomplete {Phrase : List Token → Prop} {used : List Token} {next : Token}
    {d : Diagnostic} (h : Blames Phrase used next d) (hnext : next.kind = .eof) :
    d.isIncomplete = true := by
  obtain ⟨rfl, -⟩ | hrange | hunfit := h
  · rw [unexpected, hnext]
    rfl
  · cases hrange <;> simp_all
  · cases hunfit <;> simp_all

namespace Program

variable {source : List Char} {d : Diagnostic}

theorem stopped (h : parse source = .error d) :
    (ofSource source).fault = some d ∨
      ∃ front t back, (ofSource source).tokens = front ++ t :: back ∧
        Parser.Blames (Derivable (IsProgram AnyNode)) front t d ∧
        ∀ source' back', (Parser.Unfit t d → back' ≠ []) →
          (ofSource source').tokens = front ++ t :: back' →
          parse source' = .error d := by
  have hstream := ofSource_delimited source
  by_cases hnil : (ofSource source).tokens = []
  · -- a text without tokens has an error, or its end would be one
    left
    cases hfault : (ofSource source).fault with
    | none =>
      obtain ⟨ts, eof, hts, -⟩ := hstream.closed hfault
      simp [hnil] at hts
    | some fault =>
      have hcursor : (ofSource source).cursor = .error fault := by
        unfold cursor
        split <;> simp_all
      have herror : parse source = .error fault := by
        unfold parse ofTokens
        rw [hcursor]
        rfl
      rw [Except.error.inj (h.symm.trans herror)]
  · obtain ⟨c, hc⟩ := exists_cursor hnil
    obtain ⟨htokens, hfault⟩ := cursor_ok hc
    have hrun : Parser.program (ofSource source).depth c = .error (.rejected d) := by
      have hne := program_ne_overrun hstream hc
      rw [parse, ofTokens_eq_concluded hc] at h
      generalize Parser.program (ofSource source).depth c = r at h hne
      obtain (d | -) | ⟨p, c'⟩ := r
      · cases h
        rfl
      · exact absurd rfl hne
      · cases h
    have hdepth := Nat.le_refl (ofSource source).depth
    have hhalts := program_halts Parser.anyNode_spanned hstream hc hdepth
    rw [hrun] at hhalts
    obtain ⟨hd, -⟩ | ⟨front, t, back, hfront, -, hblames, hsame⟩ := hhalts
    · exact .inl (hfault ▸ hd)
    · refine .inr ⟨front, t, back, htokens ▸ hfront, hblames,
        fun source' back' hmore htokens' => ?_⟩
      obtain ⟨c', hc'⟩ := exists_cursor
        (show (ofSource source').tokens ≠ [] by simp [htokens'])
      refine ofTokens_of_rejected (ofSource_delimited source') hc'
        (hsame c' back' hmore ?_)
      exact cursor_resumes hc hc' hfront htokens'

theorem exists_parse_of_completable {text gap : List Char} {ts : List Token}
    (h : Completable (Derivable (IsProgram AnyNode)) ts) (htext : Lexed (· = []) text .origin ts)
    (hgap : Spacing gap) (hne : gap ≠ []) :
    ∃ more us p, parse (text ++ (gap ++ more)) = .ok p ∧
      Lexed Spacing (text ++ (gap ++ more)) .origin (ts ++ us) := by
  obtain ⟨words, hvalid, hwords⟩ := h
  obtain ⟨more, us, hus, hlexed⟩ := htext.continued hgap hne hvalid
  obtain ⟨t, hprogram⟩ := hwords us hus
  obtain ⟨p, hp⟩ := parse_ok_iff.mpr ⟨ts ++ us, t, hlexed, hprogram⟩
  exact ⟨more, us, p, hp, hlexed⟩

end Program

/-- A syntax error is reported at the first token at which the text can no longer become a module:
the tokens before it are the first tokens of a module, but no module has the token, too. -/
theorem syntax_errors_earliest {source : List Char} {d : Diagnostic}
    (h : Program.parse source = .error d)
    (hcause : d.cause = .unexpectedEnd ∨ ∃ text, d.cause = .unexpectedToken text) :
    ∃ k t, (TokenStream.ofSource source).tokens[k]? = some t ∧ d = Parser.unexpected t ∧
      (∃ source' p, Program.parse source' = .ok p ∧
        (TokenStream.ofSource source').tokens.take k =
          (TokenStream.ofSource source).tokens.take k) ∧
      ∀ source' p, Program.parse source' = .ok p →
        (TokenStream.ofSource source').tokens.take (k + 1) ≠
          (TokenStream.ofSource source).tokens.take (k + 1) := by
  obtain hfault | ⟨front, t, back, htokens, hblames, hsame⟩ := Program.stopped h
  · -- a lexical error is none of these
    obtain hcomment | hbad := cause_of_fault hfault
    · simp [hcomment] at hcause
    · generalize d.cause = cause at hbad hcause
      cases hbad <;> simp at hcause
  · obtain ⟨hd, hbegun⟩ | hrange | hunfit := hblames
    · have hk : (ofSource source).tokens[front.length]? = some t := by simp [htokens]
      have hfit : ¬ Parser.Unfit t d := hd ▸ Parser.unexpected_not_unfit t
      refine ⟨front.length, t, hk, hd, ?_, fun source' p hp htake => ?_⟩
      · obtain ⟨text, htext⟩ := exists_front htokens
        have hblank : Spacing ['\n'] := .blank rfl .nil
        obtain ⟨more, us, p, hp, hlexed⟩ :=
          Program.exists_parse_of_completable hbegun htext hblank (by simp)
        refine ⟨_, p, hp, ?_⟩
        rw [ofSource_of_lexed hlexed, htokens]
        simp
      · have hfront : (ofSource source).tokens.take (front.length + 1) =
          front ++ [t] := by
          rw [htokens, List.take_append]
          simp
        have hwhole := List.take_append_drop (front.length + 1)
          (ofSource source').tokens
        rw [htake, hfront, List.append_assoc] at hwhole
        cases hp.symm.trans (hsame source' _ (fun hunfit => absurd hunfit hfit) hwhole.symm)
    · cases hrange <;> simp [Diagnostic.on] at hcause
    · cases hunfit <;> simp [Diagnostic.on] at hcause

def missingOperand : List Char := "MODULE M; VAR x: INTEGER; BEGIN x := 1 + ; END M.".toList

/-- The error is reported at the semicolon where the operand should be. -/
theorem missingOperand_earliest : ∃ d, Program.parse missingOperand = .error d ∧
    d.cause = .unexpectedToken ";" ∧
    ∃ k t, (TokenStream.ofSource missingOperand).tokens[k]? = some t ∧ d = Parser.unexpected t ∧
      (∃ source' p, Program.parse source' = .ok p ∧
        (TokenStream.ofSource source').tokens.take k =
          (TokenStream.ofSource missingOperand).tokens.take k) ∧
      ∀ source' p, Program.parse source' = .ok p →
        (TokenStream.ofSource source').tokens.take (k + 1) ≠
          (TokenStream.ofSource missingOperand).tokens.take (k + 1) := by
  have hcheck : ((Program.parse missingOperand).map fun _ => ()).mapError (·.cause) =
      .error (.unexpectedToken ";") := by decide +kernel
  cases hparse : Program.parse missingOperand with
  | ok p =>
    rw [hparse] at hcheck
    cases hcheck
  | error d =>
    rw [hparse] at hcheck
    have hcause : d.cause = .unexpectedToken ";" := Except.error.inj hcheck
    exact ⟨d, rfl, hcause, syntax_errors_earliest hparse (.inr ⟨";", hcause⟩)⟩

end Oberlet
