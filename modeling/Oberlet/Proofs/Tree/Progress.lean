import Oberlet.Proofs.Token.Located
import Oberlet.Proofs.Tree.Accepted

/-!
# Reading goes on

Every token or error that is read uses up a character, and every round of calls in the parser uses
up a token.
-/

namespace Oberlet

namespace Lexer

variable {pending rest : List Char} {c : Char} {pos : Position}

theorem Reading.Advances.suffix {r : Reading} (h : r.Advances rest pos) : r.rest <:+ rest := by
  obtain ⟨text, htext, -⟩ := h
  exact ⟨text, htext.symm⟩

theorem readNumber_cons (h : c.isDigit = true) :
    readNumber pending (c :: rest) pos = readNumber (pending ++ [c]) rest (pos.after c) := by
  simp [readNumber, h, Position.afterAll]

theorem readWord_cons (h : Text.isIdentRest c = true) :
    readWord pending (c :: rest) pos = readWord (pending ++ [c]) rest (pos.after c) := by
  simp [readWord, h, Position.afterAll]

theorem readLexeme_cons_suffix (pending : List Char) (c : Char) (rest : List Char)
    (pos : Position) : (readLexeme pending (c :: rest) pos).rest <:+ rest := by
  unfold readLexeme
  split
  · rename_i heq
    cases heq
  · rename_i heq
    cases heq
    exact List.suffix_refl _
  · rename_i heq
    cases heq
    exact readString_advances.suffix
  · rename_i heq
    cases heq
    split
    · rename_i hdigit
      rw [readNumber_cons hdigit]
      exact readNumber_advances.suffix
    · split
      · rename_i hstart
        rw [readWord_cons (by simp [Text.isIdentRest, hstart])]
        exact readWord_advances.suffix
      · unfold readSymbol
        dsimp only
        split
        · exact extendSymbol_advances.suffix
        · exact List.suffix_refl _

/-- Every token or error that is read uses up a character. -/
theorem next_progress (lexer : Lexer) : (∃ t, lexer.next.1 = .ok t ∧ t.kind = .eof) ∨
    ∃ text, text ≠ [] ∧ lexer.rest = text ++ lexer.next.2.rest := by
  unfold next
  split
  · rename_i start stop hskip
    refine .inr ⟨lexer.rest, fun hnil => ?_, by simp⟩
    rw [hnil] at hskip
    cases hskip
  · rename_i behind start commented hskip
    obtain ⟨-, gap, hgap, -⟩ := skips_of_skipGap hskip
    cases behind with
    | nil => exact .inl ⟨_, rfl, rfl⟩
    | cons c rest =>
      obtain ⟨text, htext⟩ :=
        readLexeme_cons_suffix (if commented then [] else lexer.pending) c rest start
      refine .inr ⟨gap ++ c :: text, by simp, ?_⟩
      dsimp only
      split <;> simp [hgap, htext]

/-- The end is reached after as many calls as there are characters. -/
theorem eof_within (lexer : Lexer) : ∃ n ≤ lexer.rest.length,
    ∃ t, (Nat.iterate (·.next.2) n lexer).next.1 = .ok t ∧ t.kind = .eof := by
  obtain heof | ⟨text, hne, hrest⟩ := lexer.next_progress
  · exact ⟨0, Nat.zero_le _, heof⟩
  · have hlt : lexer.next.2.rest.length < lexer.rest.length := by
      have hpos := List.length_pos_iff.mpr hne
      rw [hrest, List.length_append]
      omega
    obtain ⟨n, hn, heof⟩ := eof_within lexer.next.2
    exact ⟨n + 1, by omega, heof⟩
termination_by lexer.rest.length

end Lexer

/-! ## Calls of the parser -/

/-- The same place in a text that is faulty behind the next token, so that none can be used. -/
def Cursor.barred (c : Cursor) (d : Diagnostic) : Cursor := { c with rest := [], fault := some d }

/-- The functions of the parser that are called at a place, by the bound on the depth of calls. -/
inductive Routine (c : Cursor) : (α : Type) → (Nat → Parser α) → Prop
  | expr : Routine c Expr Parser.expr
  | sum : Routine c Expr Parser.sum
  | sumRest : Routine c (List (BinOp × Expr)) Parser.sumRest
  | product : Routine c Expr Parser.product
  | productRest : Routine c (List (BinOp × Expr)) Parser.productRest
  | factor : Routine c Expr Parser.factor
  | call {name : Ident} : name.span = c.last → Routine c (Call Expr) (Parser.call · name)
  | argsRest : Routine c (List Expr) Parser.argsRest
  | designator {name : Ident} : name.span = c.last →
      Routine c (Designator Expr) (Parser.designator · name)
  | selectors : Routine c (List Expr) Parser.selectors
  | namedStmt : Routine c Stmt Parser.namedStmt
  | stmts : Routine c (List Stmt) Parser.stmts
  | stmt : Routine c Stmt Parser.stmt
  | branches : Routine c (List (Branch Stmt)) Parser.branches
  | branch : c.token.kind = .ifKw ∨ c.token.kind = .elsifKw →
      Routine c (Branch Stmt) Parser.branch
  | dataType : Routine c DataType Parser.dataType
  | namesRest : Routine c (List Ident) Parser.namesRest
  | varDecl : Routine c VarDecl Parser.varDecl
  | varDecls : Routine c (List VarDecl) Parser.varDecls
  | varBlock : Routine c (List VarDecl) Parser.varBlock
  | paramsRest : Routine c (List VarDecl) Parser.paramsRest
  | params : Routine c (List VarDecl) Parser.params
  | heading : Routine c Heading Parser.heading
  | subprogram : Routine c SubprogramDecl Parser.subprogram
  | subprograms : Routine c (List SubprogramDecl) Parser.subprograms
  | program : Routine c Program Parser.program

namespace Routine

variable {c : Cursor} {α : Type} {p : Nat → Parser α} {depth depth' : Nat}

theorem settled (h : Routine c α p) (hclosed : c.Closed) (hwritable : ∀ t ∈ c.tokens, t.Writable)
    (hbound : 16 * c.tokens.length + 5 ≤ depth) (hdepth : depth ≤ depth') :
    p depth c ≠ .error .overrun ∧ p depth' c = p depth c := by
  obtain ⟨extra, rfl⟩ := Nat.exists_eq_add_of_le' hdepth
  have hR := Parser.anyNode_spanned
  have hstands : c.Stands c.token [] c.token := ⟨hclosed, rfl, rfl, by simp⟩
  rw [Cursor.tokens, List.length_cons] at hbound
  -- A phrase that begins at the place leaves all of the tokens to be used.
  have begun {β : Type} {q q' : Parser β} {weight : Nat} {Good : List Token → Token → β → Prop}
      {Phrase : List Token → Prop} (hweight : weight ≤ 5)
      (hq : Parser.Reads depth weight Good Phrase c.token [] c.token q q') :
      q c ≠ .error .overrun ∧ q' c = q c :=
    (hq c hstands hwritable).settled (by rw [List.length_nil]; omega)
  -- Others follow a name, which has been used already.
  have named (name : Token) {β : Type} {q q' : Parser β} {Good : List Token → Token → β → Prop}
      {Phrase : List Token → Prop} (hname : name.span = c.last)
      (hq : Parser.Reads depth 1 Good Phrase name [name] c.token q q') :
      q c ≠ .error .overrun ∧ q' c = q c :=
    (hq c ⟨hclosed, rfl, rfl, by simp [hname]⟩ hwritable).settled
      (by rw [List.length_singleton]; omega)
  cases h with
  | expr => exact begun (by decide) (Parser.expr_reads hR _)
  | sum => exact begun (by decide) (Parser.sum_reads hR _)
  | sumRest => exact begun (by decide) (Parser.sumRest_reads hR _)
  | product => exact begun (by decide) (Parser.product_reads hR _)
  | productRest => exact begun (by decide) (Parser.productRest_reads hR _)
  | factor => exact begun (by decide) (Parser.factor_reads hR _)
  | @call name hspan =>
    exact named ⟨.ident, name.name, name.span⟩ hspan (Parser.call_reads hR rfl _)
  | argsRest => exact begun (by decide) (Parser.argsRest_reads hR _)
  | @designator name hspan =>
    exact named ⟨.ident, name.name, name.span⟩ hspan (Parser.designator_reads hR rfl _)
  | selectors => exact begun (by decide) (Parser.selectors_reads hR _)
  | namedStmt => exact begun (by decide) (Parser.namedStmt_reads hR _)
  | stmts => exact begun (by decide) (Parser.stmts_reads hR _)
  | stmt => exact begun (by decide) (Parser.stmt_reads hR _)
  | branches => exact begun (by decide) (Parser.branches_reads hR _)
  | branch hkind => exact begun (by decide) (Parser.branch_reads hR rfl (by grind))
  | dataType => exact begun (by decide) (Parser.dataType_reads _)
  | namesRest => exact begun (by decide) (Parser.namesRest_reads _)
  | varDecl => exact begun (by decide) (Parser.varDecl_reads hR _)
  | varDecls => exact begun (by decide) (Parser.varDecls_reads hR _)
  | varBlock => exact begun (by decide) (Parser.varBlock_reads hR _)
  | paramsRest => exact begun (by decide) (Parser.paramsRest_reads hR _)
  | params => exact begun (by decide) (Parser.params_reads hR _)
  | heading => exact begun (by decide) (Parser.heading_reads hR _)
  | subprogram => exact begun (by decide) (Parser.subprogram_reads hR _)
  | subprograms => exact begun (by decide) (Parser.subprograms_reads hR _)
  | program => exact begun (by decide) (Parser.program_reads hR _)

theorem barred {d : Diagnostic} (h : Routine c α p) : Routine (c.barred d) α p := by
  cases h <;> constructor <;> assumption

end Routine

/-- A call of the lexer reads characters until it reads the end of the text, which it does after as
many calls as there are characters, errors or not. In the parser, at any place in the tokens of a
text, no function calls others more than twenty deep without using a token, and the depth of all
calls is bounded by the number of the tokens that are left, so that the bound it is given makes no
difference. -/
theorem front_end_progresses :
    (∀ lexer : Lexer, (∃ t, lexer.next.1 = .ok t ∧ t.kind = .eof) ∨
      ∃ text, text ≠ [] ∧ lexer.rest = text ++ lexer.next.2.rest) ∧
    (∀ lexer : Lexer, ∃ n ≤ lexer.rest.length,
      ∃ t, (Nat.iterate (·.next.2) n lexer).next.1 = .ok t ∧ t.kind = .eof) ∧
    (∀ (source : List Char) (c : Cursor), c.tokens <:+ (TokenStream.ofSource source).tokens →
      c.fault = (TokenStream.ofSource source).fault → ∀ (α : Type) (p : Nat → Parser α),
        Routine c α p →
          (∀ (d : Diagnostic) (depth : Nat), 21 ≤ depth → p depth (c.barred d) ≠ .error .overrun) ∧
          ∀ depth, 16 * c.tokens.length + 5 ≤ depth → p depth c ≠ .error .overrun ∧
            p depth c = p (16 * c.tokens.length + 5) c) ∧
    ∀ (source : List Char) (c : Cursor), (TokenStream.ofSource source).cursor = .ok c →
      Parser.program (TokenStream.ofSource source).depth c ≠ .error .overrun := by
  refine ⟨Lexer.next_progress, Lexer.eof_within, fun source c htokens hfault α p h => ?_,
    fun source c hc => TokenStream.program_ne_overrun (TokenStream.ofSource_delimited source) hc⟩
  have hstream := TokenStream.ofSource_delimited source
  have hwritable : ∀ t ∈ c.tokens, t.Writable := fun t ht => hstream.writable t (htokens.subset ht)
  have hclosed : c.Closed := by
    intro hnone t ht
    obtain ⟨ts, eof, hts, heof, -⟩ := hstream.closed (hfault ▸ hnone)
    obtain ⟨front, hfront⟩ := htokens
    have hlast := congrArg List.getLast? hfront
    simp only [List.getLast?_append, ht, hts, List.getLast?_singleton, Option.some_or,
      Option.some.injEq] at hlast
    rwa [hlast]
  refine ⟨fun d depth hdepth => ?_, fun depth hdepth => ?_⟩
  · refine (h.barred.settled nofun (fun t ht => hwritable t ?_) hdepth (Nat.le_refl _)).1
    exact List.mem_of_mem_take (i := 1) ht
  · obtain ⟨hne, heq⟩ := h.settled hclosed hwritable (Nat.le_refl _) hdepth
    exact ⟨heq ▸ hne, heq⟩

/-- Where a branch is begun that has no condition. -/
def bareIf : Cursor :=
  ⟨⟨.ifKw, "IF", ⟨0, 0, 0, 2⟩⟩, [⟨.eof, "", ⟨0, 2, 0, 2⟩⟩], none, ⟨0, 0, 0, 2⟩, .none⟩

theorem bareIf_branch_settled :
    Parser.branch 21 (bareIf.barred ⟨.unexpectedEnd, none, none⟩) ≠ .error .overrun ∧
      Parser.branch 100 bareIf ≠ .error .overrun ∧
      Parser.branch 100 bareIf = Parser.branch 37 bareIf :=
  have hplace : bareIf.tokens <:+ (TokenStream.ofSource "IF".toList).tokens :=
    ⟨[], by decide +kernel⟩
  have hcalls := front_end_progresses.2.2.1 "IF".toList bareIf hplace (by decide +kernel) _ _
    (.branch (.inl rfl))
  ⟨hcalls.1 _ 21 (Nat.le_refl _), hcalls.2 100 (by decide)⟩

end Oberlet
