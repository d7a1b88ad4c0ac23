import Oberlet.Proofs.Tree.Complete

/-!
# The texts that are modules

A text is read as a module if and only if it has no lexical error and its tokens are derived from
the grammar, and then the tree is the only one of these tokens, up to ids and spans.
-/

namespace Oberlet

open TokenStream

theorem Parser.Halts.settled {α : Type} {depth weight : Nat}
    {Good : List Token → Token → α → Prop} {Phrase : List Token → Prop} {used : List Token}
    {p' : Parser α} {c : Cursor} {r : Except ParseStop (α × Cursor)}
    (h : Halts depth weight Good Phrase used c p' r)
    (hdepth : 16 * (used.length + c.rest.length) + weight ≤ depth) :
    r ≠ .error .overrun ∧ p' c = r := by
  obtain (d | -) | ⟨a, c₁⟩ := r
  · refine ⟨nofun, ?_⟩
    obtain ⟨-, hagain⟩ | ⟨ts, next, rest, htokens, hunfit, -, hagain⟩ := h
    · exact hagain
    · exact hagain c rest hunfit ⟨htokens, rfl, rfl⟩
  · exact absurd hdepth (Nat.not_le.mpr h)
  · obtain ⟨ts, hmoved, -, hagain⟩ := h
    refine ⟨nofun, (hagain c c₁.rest ⟨hmoved.tokens, rfl, rfl⟩).trans ?_⟩
    rw [← hmoved.fault]

namespace TokenStream

/-- The tokens of a stream without errors are derived from the grammar, as a module with the given
tree. -/
def Derives (stream : TokenStream) (p : Program) : Prop :=
  stream.fault = none ∧ ∃ ts eof, stream.tokens = ts ++ [eof] ∧ eof.kind = .eof ∧
    IsProgram (fun _ _ => True) ts p

/-- A stream in which the end of the text is the last token, unless there is an error. Its tokens
can be written again. -/
structure Delimited (stream : TokenStream) : Prop where
  writable : ∀ t ∈ stream.tokens, t.Writable
  closed : stream.fault = none → ∃ ts eof, stream.tokens = ts ++ [eof] ∧ eof.kind = .eof ∧
    ∀ t ∈ ts, t.kind ≠ .eof
  faulty : stream.fault ≠ none → ∀ t ∈ stream.tokens, t.kind ≠ .eof

theorem ofSource_delimited (source : List Char) : (ofSource source).Delimited := by
  refine ⟨writable_ofSource source, fun h => ?_, kind_ne_eof_of_fault⟩
  obtain ⟨tokens, hlexed⟩ := lexed_of_ofSource h
  rw [ofSource_of_lexed hlexed]
  exact ⟨tokens, _, rfl, rfl, hlexed.kind_ne_eof⟩

variable {c : Cursor} {stream : TokenStream} {R : List Token → Node → Prop} {p : Program}

theorem cursor_ok (h : stream.cursor = .ok c) :
    c.tokens = stream.tokens ∧ c.fault = stream.fault := by
  unfold cursor at h
  split at h <;> cases h
  exact ⟨rfl, rfl⟩

theorem exists_cursor (h : stream.tokens ≠ []) : ∃ c, stream.cursor = .ok c := by
  obtain ⟨tokens, fault⟩ := stream
  cases tokens with
  | nil => exact absurd rfl h
  | cons first rest => exact ⟨_, rfl⟩

theorem cursor_stands (hstream : stream.Delimited) (hc : stream.cursor = .ok c) :
    c.Stands c.token [] c.token := by
  obtain ⟨htokens, hfault⟩ := cursor_ok hc
  refine ⟨fun hnone t ht => ?_, rfl, rfl, by simp⟩
  obtain ⟨ts, eof, hts, heof, -⟩ := hstream.closed (hfault ▸ hnone)
  rw [htokens, hts] at ht
  simp only [List.getLast?_append, List.getLast?_singleton, Option.some_or, Option.some.injEq] at ht
  rwa [← ht]

/-- Reading a module comes to an end as `Reads` says. -/
theorem program_halts (hR : Parser.Spanned R) (hstream : stream.Delimited)
    (hc : stream.cursor = .ok c) {depth depth' : Nat} (hdepth : depth ≤ depth') :
    Parser.Halts depth 2 (fun ts next p => IsProgram R ts p ∧ next.kind = .eof)
      (Derivable (IsProgram R)) [] c (Parser.program depth') (Parser.program depth c) := by
  obtain ⟨extra, rfl⟩ := Nat.exists_eq_add_of_le' hdepth
  refine Parser.program_reads hR c.token c (cursor_stands hstream hc) ?_
  rw [(cursor_ok hc).1]
  exact hstream.writable

theorem program_ne_overrun (hstream : stream.Delimited) (hc : stream.cursor = .ok c) :
    Parser.program stream.depth c ≠ .error .overrun := by
  refine ((program_halts Parser.anyNode_spanned hstream hc (Nat.le_refl _)).settled ?_).1
  rw [depth, ← (cursor_ok hc).1, Cursor.tokens, List.length_cons, List.length_nil]
  omega

/-- What the reader of modules makes of the outcome of the parser. -/
def concluded : Except ParseStop (Program × Cursor) → Except Diagnostic Program
  | .ok (p, _) => .ok p
  | .error (.rejected d) => .error d
  | .error .overrun => .error ⟨.unexpectedEnd, none, none⟩

theorem ofTokens_eq_concluded (hc : stream.cursor = .ok c) :
    Program.ofTokens stream = concluded (Parser.program stream.depth c) := by
  unfold Program.ofTokens
  rw [hc]
  rfl

theorem ofTokens_ok_iff : Program.ofTokens stream = .ok p ↔
    ∃ c c', stream.cursor = .ok c ∧ Parser.program stream.depth c = .ok (p, c') := by
  cases hcursor : stream.cursor with
  | error d =>
    have herror : Program.ofTokens stream = .error d := by
      unfold Program.ofTokens
      rw [hcursor]
      rfl
    simp [herror]
  | ok c =>
    rw [ofTokens_eq_concluded hcursor]
    constructor
    · intro h
      generalize hrun : Parser.program stream.depth c = r at h
      obtain (d | -) | ⟨p', c'⟩ := r <;> cases h
      exact ⟨c, c', rfl, hrun⟩
    · rintro ⟨_, c', hc, hrun⟩
      cases hc
      rw [hrun]
      rfl

theorem eq_nil_of_eof {ts us rest : List Token} {eof t : Token} (h : us ++ [eof] = ts ++ t :: rest)
    (hus : ∀ t ∈ us, t.kind ≠ .eof) (ht : t.kind = .eof) : rest = [] := by
  rcases List.eq_nil_or_concat rest with hrest | ⟨front, last, rfl⟩
  · exact hrest
  · have hsplit : us ++ [eof] = (ts ++ t :: front) ++ [last] := by simpa using h
    obtain ⟨rfl, -⟩ := List.append_inj' hsplit rfl
    exact absurd ht (hus t (by simp))

theorem phrase_of_ofTokens (hR : Parser.Spanned R) (hstream : stream.Delimited)
    (h : Program.ofTokens stream = .ok p) :
    stream.fault = none ∧ ∃ ts eof, stream.tokens = ts ++ [eof] ∧ eof.kind = .eof ∧
      IsProgram R ts p := by
  obtain ⟨c, c', hc, hrun⟩ := ofTokens_ok_iff.mp h
  obtain ⟨htokens, -⟩ := cursor_ok hc
  have hhalts := program_halts hR hstream hc (Nat.le_refl stream.depth)
  rw [hrun] at hhalts
  obtain ⟨ts, hmoved, ⟨hprogram, heof⟩, -⟩ := hhalts
  have hall : stream.tokens = ts ++ c'.token :: c'.rest := htokens.symm.trans hmoved.tokens
  have hfault : stream.fault = none := by
    refine Classical.byContradiction fun hfault => ?_
    exact hstream.faulty hfault c'.token (by rw [hall]; simp) heof
  obtain ⟨us, eof, hus, -, hne⟩ := hstream.closed hfault
  have hrest := eq_nil_of_eof (hus.symm.trans hall) hne heof
  exact ⟨hfault, ts, c'.token, by rw [hall, hrest], heof, hprogram⟩

theorem derives_of_ofTokens (hstream : stream.Delimited) (h : Program.ofTokens stream = .ok p) :
    stream.Derives p :=
  phrase_of_ofTokens Parser.anyNode_spanned hstream h

/-- Tokens that are derived from the grammar are read. -/
theorem ofTokens_of_derives {t : Program} (hstream : stream.Delimited) (h : stream.Derives t) :
    ∃ p, Program.ofTokens stream = .ok p ∧ t.outline = p.outline := by
  obtain ⟨-, ts, eof, hts, heof, hprogram⟩ := h
  obtain ⟨c, hc⟩ := exists_cursor (show stream.tokens ≠ [] by simp [hts])
  have hyields : Parser.Yields ts [eof] _ _ := Parser.program_yields stream.depth hprogram heof
  obtain hover | ⟨p, c', hrun, -, houtline⟩ :=
    hyields (by simp) c ((cursor_ok hc).1.trans hts)
  · exact absurd hover (program_ne_overrun hstream hc)
  · exact ⟨p, ofTokens_ok_iff.mpr ⟨c, c', hc, hrun⟩, houtline.symm⟩

end TokenStream

namespace Program

variable {source : List Char}

theorem tokens_unique {ts us : List Token} (h : Lexed Spacing source .origin ts)
    (h' : Lexed Spacing source .origin us) : ts = us := by
  have hstream := (ofSource_of_lexed h).symm.trans (ofSource_of_lexed h')
  exact (List.append_inj' (congrArg tokens hstream) rfl).1

/-- A text is a module exactly if its tokens are derived from the grammar. -/
theorem parse_ok_iff : (∃ p, parse source = .ok p) ↔
    ∃ ts t, Lexed Spacing source .origin ts ∧ IsProgram (fun _ _ => True) ts t := by
  have hstream := ofSource_delimited source
  constructor
  · rintro ⟨p, hp⟩
    obtain ⟨hfault, ts, eof, htokens, -, hprogram⟩ := derives_of_ofTokens hstream hp
    obtain ⟨us, hlexed⟩ := lexed_of_ofSource hfault
    rw [ofSource_of_lexed hlexed] at htokens
    obtain ⟨rfl, -⟩ := List.append_inj' htokens rfl
    exact ⟨us, p, hlexed, hprogram⟩
  · rintro ⟨ts, t, hlexed, hprogram⟩
    have hderives : (ofSource source).Derives t := by
      rw [ofSource_of_lexed hlexed]
      exact ⟨rfl, ts, _, rfl, rfl, hprogram⟩
    obtain ⟨p, hp, -⟩ := ofTokens_of_derives hstream hderives
    exact ⟨p, hp⟩

end Program

/-- A text is read as a module if and only if its tokens are derived from the grammar, and the tree
that is read is the only one that is derived, up to ids and spans. -/
theorem parser_decides_grammar (source : List Char) :
    ((∃ p, Program.parse source = .ok p) ↔ ∃ t, (TokenStream.ofSource source).Derives t) ∧
      ∀ p, Program.parse source = .ok p → (TokenStream.ofSource source).Derives p ∧
        ∀ t, (TokenStream.ofSource source).Derives t → t.outline = p.outline := by
  have hstream := ofSource_delimited source
  refine ⟨⟨fun ⟨p, hp⟩ => ?_, fun ⟨t, ht⟩ => ?_⟩, fun p hp => ?_⟩
  · exact ⟨p, derives_of_ofTokens hstream hp⟩
  · obtain ⟨p, hp, -⟩ := ofTokens_of_derives hstream ht
    exact ⟨p, hp⟩
  · refine ⟨derives_of_ofTokens hstream hp, fun t ht => ?_⟩
    obtain ⟨p', hp', houtline⟩ := ofTokens_of_derives hstream ht
    rwa [Except.ok.inj (hp.symm.trans hp')]

/-- A module with a forward declaration, an empty ELSE, a name alone as a call, and a REAL. -/
def grammarText : List Char :=
  ("MODULE M; VAR x: ARRAY 3 OF REAL; PROCEDURE P; PROCEDURE P; BEGIN END P;" ++
    "BEGIN P; IF ~TRUE & (-x[1] < 2.5) THEN P() ELSE END; END M.").toList

theorem grammarText_derived : ∃ p, Program.parse grammarText = .ok p ∧
    (TokenStream.ofSource grammarText).Derives p ∧
      ∀ t, (TokenStream.ofSource grammarText).Derives t → t.outline = p.outline := by
  have hok : (Program.parse grammarText).toOption.isSome = true := by decide +kernel
  obtain ⟨p, hp⟩ := Option.isSome_iff_exists.mp hok
  have hparse := eq_ok_of_toOption hp
  exact ⟨p, hparse, (parser_decides_grammar grammarText).2 p hparse⟩

end Oberlet
