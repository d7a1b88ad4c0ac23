import Oberlet.Proofs.Repl.Probe

/-!
# Asking for more lines

Behind a size of an array that is refused, or a name behind an END that is not the one expected, a
comment may be open: the parser looks at such a token only when it has the next one.
-/

namespace Oberlet

open TokenStream

/-! ## How texts end -/

/-- The text ends inside a string. -/
def EndsInString (source : List Char) : Prop := ∃ ts, Lexed OpenString source .origin ts

/-- The second text is the first, without lexical errors, and a comment behind it that is open. -/
def EndsInComment (front source : List Char) : Prop :=
  ∃ ts comment, source = front ++ comment ∧ Lexed Spacing front .origin ts ∧ OpenComment comment

/-- The text is no module because of the size of an array or of a name behind an END. -/
def Refused (source : List Char) : Prop :=
  ∃ d, Program.parse source = .error d ∧ ((∃ size, d.cause = .invalidArraySize size) ∨
    ∃ opening closing, d.cause = .endMismatch opening closing)

section

variable {source front more : List Char}

theorem EndsInString.fault (h : EndsInString source) :
    ∃ d, (TokenStream.ofSource source).fault = some d ∧
      (d.cause = .unclosedString ∨ d.cause = .missingEscape) := by
  obtain ⟨ts, hlexed⟩ := h
  obtain ⟨d, hread, hcause⟩ := TokenStream.read_of_broken Lexer.next_of_openString hlexed
    (Nat.lt_succ_of_le hlexed.length_le)
  exact ⟨d, congrArg TokenStream.fault hread, hcause⟩

theorem endsInString_of_fault {d : Diagnostic} (h : (TokenStream.ofSource source).fault = some d)
    (hcause : d.cause = .unclosedString ∨ d.cause = .missingEscape) : EndsInString source :=
  ⟨_, (lexed_of_fault h).mono fun hbreaks => hbreaks.openString hcause⟩

theorem fault_of_openComment {ts : List Token} (h : Lexed OpenComment source .origin ts) :
    ∃ d, TokenStream.ofSource source = ⟨ts, some d⟩ ∧ d.cause = .unclosedComment :=
  read_of_openComment h (Nat.lt_succ_of_le h.length_le)

theorem EndsInComment.lexed (h : EndsInComment front source) :
    ∃ ts, Lexed Spacing front .origin ts ∧ Lexed OpenComment source .origin ts := by
  obtain ⟨ts, comment, rfl, hfront, hopen⟩ := h
  obtain ⟨text, gap, rfl, htext, hgap⟩ := hfront.split_tail
  have hcomment := hopen.spaced hgap
  have hlexed := htext.append hcomment.parted (.done hcomment)
  rw [List.append_nil, ← List.append_assoc] at hlexed
  exact ⟨ts, hfront, hlexed⟩

/-- A string that is open cannot go on in another line. -/
theorem EndsInString.not_parse (h : EndsInString source) {p : Program} :
    Program.parse (source ++ '\n' :: more) ≠ .ok p := by
  intro hp
  obtain ⟨d, hd, hcause⟩ := h.fault
  obtain ⟨us, t, hlexed, -⟩ := Program.parse_ok_iff.mp ⟨p, hp⟩
  obtain ⟨kept, gone, -, ⟨hkept, -⟩ | hopen⟩ := hlexed.cut rfl
  · rw [ofSource_of_lexed hkept] at hd
    cases hd
  · obtain ⟨d', hd', hcause'⟩ := fault_of_openComment hopen
    rw [hd'] at hd
    cases hd
    simp [hcause'] at hcause

theorem EndsInComment.not_refused (h : EndsInComment front source) {p : Program}
    (hp : Program.parse (source ++ '\n' :: more) = .ok p) : ¬ Refused front := by
  rintro ⟨d, hd, hcause⟩
  obtain ⟨ts, hfront, hopen⟩ := h.lexed
  obtain ⟨d', hd', -⟩ := fault_of_openComment hopen
  obtain ⟨us, t, hlexed, -⟩ := Program.parse_ok_iff.mp ⟨p, hp⟩
  obtain ⟨kept, gone, rfl, ⟨hkept, -⟩ | hkept⟩ := hlexed.cut rfl
  · cases (ofSource_of_lexed hkept).symm.trans hd'
  · obtain ⟨d'', hd'', -⟩ := fault_of_openComment hkept
    obtain rfl : kept = ts := congrArg tokens (hd''.symm.trans hd')
    have hcut : (TokenStream.ofSource front).CutBehind kept :=
      .inl ⟨_, rfl, ofSource_of_lexed hfront⟩
    have hwhole := congrArg tokens (ofSource_of_lexed hlexed)
    rw [List.append_assoc] at hwhole
    obtain ⟨q, hq⟩ | ⟨e, he, hincomplete⟩ := Program.begins_of_cut hcut hwhole (by simp) hp
    · cases hd.symm.trans hq
    · obtain rfl : d = e := Except.error.inj (hd.symm.trans he)
      rw [Diagnostic.isIncomplete, Diagnostic.kind] at hincomplete
      obtain ⟨size, hcause⟩ | ⟨opening, closing, hcause⟩ := hcause <;>
        simp [hcause, Diagnostic.Cause.kind] at hincomplete

end

/-! ## Texts that can be continued -/

theorem Parser.Blames.atEnd {Phrase : List Token → Prop} {used : List Token} {next : Token}
    {d : Diagnostic} (h : Blames Phrase used next d) (hd : d.isIncomplete = true) :
    next.kind = .eof ∧ Completable Phrase used := by
  obtain ⟨rfl, hbegun⟩ | hrange | hunfit := h
  · refine ⟨?_, hbegun⟩
    unfold unexpected at hd
    split at hd
    · rename_i hkind
      simpa using hkind
    · cases hd
  · cases hrange <;> cases hd
  · cases hunfit <;> cases hd

namespace Program

variable {source front : List Char} {ts : List Token} {d : Diagnostic}

/-- What ends too early can be completed. -/
theorem completable_of_incomplete (hlexed : Lexed Spacing source .origin ts)
    (h : parse source = .error d) (hd : d.isIncomplete = true) :
    Completable (Derivable (IsProgram AnyNode)) ts := by
  have hstream := ofSource_of_lexed hlexed
  obtain hfault | ⟨front, t, back, htokens, hblames, -⟩ := stopped h
  · rw [hstream] at hfault
    cases hfault
  · obtain ⟨hkind, hbegun⟩ := hblames.atEnd hd
    rw [hstream] at htokens
    obtain ⟨rfl, -⟩ | ⟨rest, rfl⟩ := split_end htokens
    · exact hbegun
    · exact absurd hkind (hlexed.kind_ne_eof t (by simp))

theorem fault_of_incomplete {fault : Diagnostic}
    (hfault : (TokenStream.ofSource source).fault = some fault) (h : parse source = .error d)
    (hd : d.isIncomplete = true) : d = fault := by
  obtain hd' | ⟨front, t, back, htokens, hblames, -⟩ := stopped h
  · exact Option.some.inj (hd'.symm.trans hfault)
  · have hne := (ofSource_delimited source).faulty (by simp [hfault])
    exact absurd (hblames.atEnd hd).1 (hne t (by simp [htokens]))

/-- Where a comment is open, it can be closed first. -/
theorem completable_before_comment (hfront : Lexed Spacing front .origin ts)
    (hopen : Lexed OpenComment source .origin ts) (h : parse source = .error d)
    (hd : d.isIncomplete = true) (hrefused : ¬ Refused front) :
    Completable (Derivable (IsProgram AnyNode)) ts := by
  obtain ⟨fault, hstream, -⟩ := fault_of_openComment hopen
  have hends := ofSource_of_lexed hfront
  cases hparse : parse front with
  | ok p =>
    obtain ⟨us, t, hus, hprogram⟩ := parse_ok_iff.mp ⟨p, hparse⟩
    cases tokens_unique hfront hus
    exact .done ⟨t, hprogram⟩
  | error d' =>
    obtain hfault | ⟨used, t, back, htokens, hblames, hsame⟩ := stopped hparse
    · rw [hends] at hfault
      cases hfault
    · rw [hends] at htokens
      obtain ⟨rfl, rfl⟩ | ⟨rest, rfl⟩ := split_end htokens
      · exact (hblames.atEnd (hblames.incomplete rfl)).2
      · -- the parser would have stopped at the same token of the whole text
        have hfit : ¬ Parser.Unfit t d' := by
          rintro (_ | _)
          · exact hrefused ⟨_, hparse, .inl ⟨_, rfl⟩⟩
          · exact hrefused ⟨_, hparse, .inr ⟨_, _, rfl⟩⟩
        have herror := hsame source rest (fun hunfit => absurd hunfit hfit) (by rw [hstream])
        obtain rfl : d = d' := Except.error.inj (h.symm.trans herror)
        exact absurd (hblames.atEnd hd).1 (hfront.kind_ne_eof t (by simp))

end Program

namespace Repl

theorem needsMore_eq_true {source : List Char} (h : needsMore source = true) :
    ∃ d, Program.parse source = .error d ∧ d.isIncomplete = true := by
  unfold needsMore at h
  split at h
  · cases h
  · split at h
    · cases h
    · rename_i d hd
      exact ⟨d, hd, h⟩

/-- When a session asks for more, there are lines that make a module of what has been entered,
unless a string is open, or a comment is open behind what is refused. -/
theorem asks_for_what_helps {source : List Char} (h : needsMore source = true) :
    (∃ more p, Program.parse (source ++ '\n' :: more) = .ok p) ↔
      ¬ EndsInString source ∧ ∀ front, EndsInComment front source → ¬ Refused front := by
  obtain ⟨d, hd, hincomplete⟩ := needsMore_eq_true h
  constructor
  · rintro ⟨more, p, hp⟩
    exact ⟨fun hstring => hstring.not_parse hp, fun front hcomment => hcomment.not_refused hp⟩
  · rintro ⟨hstring, hcomment⟩
    cases hfault : (TokenStream.ofSource source).fault with
    | none =>
      obtain ⟨ts, hlexed⟩ := lexed_of_ofSource hfault
      have hbegun := Program.completable_of_incomplete hlexed hd hincomplete
      obtain ⟨text, gap, rfl, htext, hgap⟩ := hlexed.split_tail
      have hline : Spacing (gap ++ ['\n']) := hgap.append (.blank rfl .nil)
      obtain ⟨more, us, p, hp, -⟩ :=
        Program.exists_parse_of_completable hbegun htext hline (by simp)
      exact ⟨more, p, by simpa using hp⟩
    | some fault =>
      obtain rfl := Program.fault_of_incomplete hfault hd hincomplete
      obtain hcause | hbad := cause_of_fault hfault
      · have hlexed := lexed_of_fault hfault
        rw [hcause] at hlexed
        have hopen := hlexed.mono Breaks.openComment
        obtain ⟨text, comment, rfl, htext, hunclosed⟩ := hopen.split_tail
        have hfront : Lexed Spacing text .origin _ := htext.mono fun hnil => hnil ▸ .nil
        have hbegun := Program.completable_before_comment hfront hopen hd hincomplete
          (hcomment text ⟨_, comment, rfl, hfront, hunclosed⟩)
        obtain ⟨closing, hclosing⟩ := hunclosed.exists_closing
        obtain ⟨more, us, p, hp, -⟩ :=
          Program.exists_parse_of_completable hbegun htext hclosing (by simp)
        exact ⟨closing ++ more, p, by simpa using hp⟩
      · refine absurd (endsInString_of_fault hfault ?_) hstring
        generalize hcause : d.cause = cause at hbad
        have hkind : cause.kind = .unexpectedEof := by
          rw [← hcause]
          simpa [Diagnostic.isIncomplete, Diagnostic.kind] using hincomplete
        cases hbad with
        | unclosed => exact .inl rfl
        | missing => exact .inr rfl
        | rune => cases hkind
        | number => cases hkind
        | newline => cases hkind
        | escape => cases hkind

def missingCondition : List Char := "MODULE M; BEGIN IF".toList

theorem missingCondition_helped : needsMore missingCondition = true ∧
    ∃ more p, Program.parse (missingCondition ++ '\n' :: more) = .ok p := by
  have hmore : needsMore missingCondition = true := by decide +kernel
  have hfault : (TokenStream.ofSource missingCondition).fault = none := by decide +kernel
  refine ⟨hmore, (asks_for_what_helps hmore).mpr ⟨fun hstring => ?_, fun front hcomment => ?_⟩⟩
  · obtain ⟨d, hd, -⟩ := hstring.fault
    cases hfault.symm.trans hd
  · obtain ⟨ts, -, hopen⟩ := hcomment.lexed
    obtain ⟨d, hd, -⟩ := fault_of_openComment hopen
    rw [hd] at hfault
    cases hfault

def openText : List Char := "MODULE M; BEGIN PrintLine(\"a".toList

/-- A session asks for more though nothing helps. -/
theorem openText_not_helped : needsMore openText = true ∧
    ¬ ∃ more p, Program.parse (openText ++ '\n' :: more) = .ok p := by
  have hcause : (TokenStream.ofSource openText).fault.map (·.cause) = some .unclosedString := by
    decide +kernel
  obtain ⟨d, hd, hcause⟩ := Option.map_eq_some_iff.mp hcause
  refine ⟨by decide +kernel, ?_⟩
  rintro ⟨more, p, hp⟩
  exact (endsInString_of_fault hd (.inl hcause)).not_parse hp

end Repl

end Oberlet
