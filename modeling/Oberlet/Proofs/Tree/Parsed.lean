import Oberlet.Proofs.Invariant
import Oberlet.Proofs.Tree.Parts
import Oberlet.Tree.Parser

/-!
# What the parser promises about its trees

The ids are followed through the parser by `Builds`: what a parser returns consists of nodes that
were there before, and of nodes whose ids it took from the supply.
-/

namespace Oberlet

theorem eq_ok_of_toOption {ε α : Type} {x : Except ε α} {a : α} (h : x.toOption = some a) :
    x = .ok a := by
  cases x <;> cases h
  rfl

/-- Types that can be declared: the primitives, and arrays that are neither empty nor too large. -/
def DataType.Proper : DataType → Prop
  | .integer => True
  | .real => True
  | .string => True
  | .boolean => True
  | .void => False
  | .unknown => False
  | .array size elem => (0 < size ∧ size ≤ Parser.maxArraySize) ∧ elem.Proper

/-- Results that can be declared: there may be none. -/
def DataType.ProperResult (t : DataType) : Prop := t = .void ∨ t.Proper

/-- A heading whose parameters and result can be declared. -/
structure Heading.Proper (heading : Heading) : Prop where
  params : ∀ group ∈ heading.params, group.type.Proper
  result : heading.result.ProperResult

mutual

/-- A statement in which every IF has a branch. -/
def Stmt.Proper : Stmt → Prop
  | .ite _ branches none => branches ≠ [] ∧ ProperBranches branches
  | .ite _ branches (some body) => branches ≠ [] ∧ ProperBranches branches ∧ ProperBody body
  | .loop _ _ body => ProperBody body
  | _ => True

def ProperBranches : List (Branch Stmt) → Prop
  | [] => True
  | ⟨_, _, body⟩ :: rest => ProperBody body ∧ ProperBranches rest

def ProperBody : List Stmt → Prop
  | [] => True
  | stmt :: rest => stmt.Proper ∧ ProperBody rest

end

theorem ProperBody.append {front back : List Stmt} (hfront : ProperBody front)
    (hback : ProperBody back) : ProperBody (front ++ back) := by
  induction front with
  | nil => exact hback
  | cons stmt rest ih => exact ⟨hfront.1, ih hfront.2⟩

/-- A subprogram whose types can be declared, and whose statements are proper. -/
def SubprogramDecl.Proper : SubprogramDecl → Prop
  | .forward _ heading => heading.Proper
  | .definition _ heading vars body =>
    heading.Proper ∧ (∀ decl ∈ vars, decl.type.Proper) ∧ ProperBody body

/-- A module of which no two nodes have the same id, in which all types can be declared, and in
which every IF has a branch. -/
structure Program.Regular (p : Program) : Prop where
  ids_nodup : p.ids.Nodup
  vars : ∀ decl ∈ p.vars, decl.type.Proper
  subprograms : ∀ decl ∈ p.subprograms, decl.Proper
  body : ProperBody p.body

namespace Parser

variable {α β : Type}

/-! ## Parsers and the ids they take -/

/-- A parser that takes no id. -/
def Quiet (p : Parser α) : Prop := ∀ c a c', p c = .ok (a, c') → c'.ids = c.ids

/-- What the parser returns is `good`, and its nodes are nodes with the ids `old` and nodes that
got their ids from the supply: if the old ids are fresh then so are all. -/
def Builds (ids : α → List Nat) (good : α → Prop) (old : List Nat) (p : Parser α) : Prop :=
  ∀ c a c', p c = .ok (a, c') →
    good a ∧ ∀ lo, Fresh lo c.ids.count old → Fresh lo c'.ids.count (ids a)

variable {c : Cursor}

theorem reject_ne_ok {r : α × Cursor} : reject c ≠ .ok r := by
  intro h
  obtain ⟨t, mid, -, h⟩ := of_run_bind_eq_ok h
  split at h <;> cases h

namespace Quiet

theorem token : Quiet Parser.token := by
  intro c a c' h
  cases h
  rfl

theorem kind : Quiet Parser.kind := by
  intro c a c' h
  cases h
  rfl

theorem get : Quiet (get : Parser Cursor) := by
  intro c a c' h
  cases h
  rfl

theorem advance : Quiet Parser.advance := by
  intro c a c' h
  unfold Parser.advance at h
  split at h <;> cases h <;> rfl

theorem fail {span : Span} {cause : Diagnostic.Cause} :
    Quiet (Parser.fail span cause : Parser α) := by
  intro c a c' h
  cases h

theorem pure (a : α) : Quiet (Pure.pure a) := by
  intro c b c' h
  cases h
  rfl

theorem bind {p : Parser α} {f : α → Parser β} (hp : Quiet p) (hf : ∀ a, Quiet (f a)) :
    Quiet (p >>= f) := by
  intro c b c' h
  obtain ⟨a, mid, h₁, h₂⟩ := of_run_bind_eq_ok h
  rw [hf a mid b c' h₂, hp c a mid h₁]

theorem reject : Quiet (Parser.reject : Parser α) := by
  refine bind token fun t => ?_
  split <;> exact fail

theorem want (expected : Token.Kind) : Quiet (Parser.want expected) := by
  refine bind token fun t => ?_
  split
  · exact bind advance fun _ => pure _
  · exact reject

theorem ident : Quiet Parser.ident := bind (want _) fun _ => pure _

theorem endName (opening : Ident) : Quiet (Parser.endName opening) := by
  refine bind ident fun closing => ?_
  split
  · exact fail
  · exact pure _

theorem literalValue : Quiet Parser.literalValue := by
  refine bind token fun t => ?_
  split
  · dsimp only
    split
    · exact pure _
    · exact fail
  · split
    · exact pure _
    · exact fail
  · exact pure _
  · exact pure _
  · exact pure _
  · exact reject

end Quiet

namespace Builds

variable {ids : α → List Nat} {ids' : β → List Nat} {good : α → Prop} {good' : β → Prop}
variable {old : List Nat} {a : α} {f : α → Parser β} {p : Parser α}

theorem pure (hgood : good a) (hids : (ids a).Perm old) : Builds ids good old (Pure.pure a) := by
  intro c b c' h
  cases h
  exact ⟨hgood, fun lo hold => hold.perm hids.symm⟩

theorem known (h : Builds ids' good' old (f a)) : Builds ids' good' old (Pure.pure a >>= f) := h

/-- A parser that takes no id can be left out. -/
theorem skip (hp : Quiet p) (hf : ∀ a, Builds ids' good' old (f a)) :
    Builds ids' good' old (p >>= f) := by
  intro c b c' h
  obtain ⟨a, mid, h₁, h₂⟩ := of_run_bind_eq_ok h
  have := hf a mid b c' h₂
  rwa [hp c a mid h₁] at this

/-- Nodes that were there before are kept. -/
theorem bind (hp : Builds ids good [] p)
    (hf : ∀ a, good a → Builds ids' good' (old ++ ids a) (f a)) :
    Builds ids' good' old (p >>= f) := by
  intro c b c' h
  obtain ⟨a, mid, h₁, h₂⟩ := of_run_bind_eq_ok h
  obtain ⟨ha, hfresh⟩ := hp c a mid h₁
  obtain ⟨hb, hfresh'⟩ := hf a ha mid b c' h₂
  refine ⟨hb, fun lo hold => hfresh' lo ?_⟩
  exact hold.append (hfresh c.ids.count (.nil (Nat.le_refl _)))

/-- A node may be thrown away. -/
theorem forget {gone : List Nat} (h : Builds ids good old p) : Builds ids good (old ++ gone) p := by
  intro c a c' hp
  obtain ⟨ha, hfresh⟩ := h c a c' hp
  exact ⟨ha, fun lo hold => hfresh lo hold.of_append⟩

theorem overrun : Builds ids good old (Parser.overrun : Parser α) := by
  intro c a c' h
  cases h

theorem failed {span : Span} {cause : Diagnostic.Cause} :
    Builds ids' good' old (Parser.fail span cause >>= f) := by
  intro c b c' h
  obtain ⟨a, mid, h₁, -⟩ := of_run_bind_eq_ok h
  cases h₁

theorem reject : Builds ids good old (Parser.reject : Parser α) := by
  intro c a c' h
  unfold Parser.reject at h
  obtain ⟨t, mid, h₁, h₂⟩ := of_run_bind_eq_ok h
  split at h₂ <;> cases h₂

theorem node (start : Span) : Builds (fun n => [n.id]) (fun _ => True) [] (Parser.node start) := by
  intro c n c' h
  cases h
  exact ⟨trivial, fun lo hold => hold.append (Fresh.single _)⟩

end Builds

/-! ## Expressions -/

theorem literal_builds : Builds Expr.ids (fun _ => True) [] literal := by
  refine .skip .token fun t => .skip .literalValue fun value => .skip .advance fun _ => ?_
  exact .bind (.node _) fun n _ => .pure trivial (.refl _)

mutual

/-- All nodes of an expression are new. -/
theorem expr_builds (depth : Nat) : Builds Expr.ids (fun _ => True) [] (expr depth) := by
  cases depth with
  | zero => exact .overrun
  | succ depth =>
    refine .skip .token fun t => .bind (sum_builds depth) fun left _ => .skip .kind fun k => ?_
    split
    · refine .skip .advance fun _ => .bind (sum_builds depth) fun right _ => ?_
      exact .bind (.node _) fun n _ => .pure trivial (by simp)
    · exact .pure trivial (by simp)

theorem sum_builds (depth : Nat) : Builds Expr.ids (fun _ => True) [] (sum depth) := by
  cases depth with
  | zero => exact .overrun
  | succ depth =>
    refine .skip .token fun t => .skip .kind fun k => ?_
    -- with and without a sign the parser goes on in the same way
    have rest (negate : Bool) (start : Span) : Builds Expr.ids (fun _ => True) [] (do
        let first ← product depth
        let rest ← sumRest depth
        if !negate && rest.isEmpty then return first
        else return .sum (← node start) negate first rest) := by
      refine .bind (product_builds depth) fun first _ => .bind (sumRest_builds depth)
        fun rest _ => ?_
      split
      · rename_i h
        have hrest : rest = [] := by
          simp only [Bool.and_eq_true, List.isEmpty_iff] at h
          exact h.2
        exact .pure trivial (by simp [hrest])
      · exact .bind (.node _) fun n _ => .pure trivial (by simp)
    dsimp only
    split
    · exact .skip .advance fun _ => rest _ _
    · exact rest _ _

theorem sumRest_builds (depth : Nat) : Builds idsOfChain (fun _ => True) [] (sumRest depth) := by
  cases depth with
  | zero => exact .overrun
  | succ depth =>
    refine .skip .kind fun k => ?_
    split
    · refine .skip .advance fun _ => .bind (product_builds depth) fun operand _ => ?_
      exact .bind (sumRest_builds depth) fun rest _ => .pure trivial (by simp)
    · exact .pure trivial (by simp)

theorem product_builds (depth : Nat) : Builds Expr.ids (fun _ => True) [] (product depth) := by
  cases depth with
  | zero => exact .overrun
  | succ depth =>
    refine .skip .token fun t => .bind (factor_builds depth) fun first _ => ?_
    refine .bind (productRest_builds depth) fun rest _ => ?_
    split
    · rename_i h
      exact .pure trivial (by simp [List.isEmpty_iff.mp h])
    · exact .bind (.node _) fun n _ => .pure trivial (by simp)

theorem productRest_builds (depth : Nat) :
    Builds idsOfChain (fun _ => True) [] (productRest depth) := by
  cases depth with
  | zero => exact .overrun
  | succ depth =>
    refine .skip .kind fun k => ?_
    split
    · refine .skip .advance fun _ => .bind (factor_builds depth) fun operand _ => ?_
      exact .bind (productRest_builds depth) fun rest _ => .pure trivial (by simp)
    · exact .pure trivial (by simp)

theorem factor_builds (depth : Nat) : Builds Expr.ids (fun _ => True) [] (factor depth) := by
  cases depth with
  | zero => exact .overrun
  | succ depth =>
    refine .skip .token fun t => .skip .kind fun k => ?_
    split
    · refine .skip .advance fun _ => .bind (factor_builds depth) fun operand _ => ?_
      exact .bind (.node _) fun n _ => .pure trivial (by simp)
    · refine .skip .advance fun _ => .bind (expr_builds depth) fun inner _ => ?_
      exact .skip (.want _) fun _ => .bind (.node _) fun n _ => .pure trivial (by simp)
    · refine .skip .ident fun name => .skip .kind fun k => ?_
      split
      · exact .bind (call_builds depth name) fun c _ => .pure trivial (by simp)
      · exact .bind (designator_builds depth name) fun d _ => .pure trivial (by simp)
    · exact literal_builds

theorem call_builds (depth : Nat) (callee : Ident) :
    Builds (fun c => (Expr.call c).ids) (fun _ => True) [] (call depth callee) := by
  cases depth with
  | zero => exact .overrun
  | succ depth =>
    refine .skip (.want _) fun _ => .skip .kind fun k => ?_
    have rest (args : List Expr) :
        Builds (fun c => (Expr.call c).ids) (fun _ => True) (idsOfAll args) (do
          let _ ← want .rparen
          return ⟨← node callee.span, callee, args⟩) := by
      exact .skip (.want _) fun _ => .bind (.node _) fun n _ => .pure trivial (by simp)
    split
    · exact rest []
    · refine .bind (expr_builds depth) fun first _ => .bind (argsRest_builds depth) fun args _ => ?_
      simpa using rest (first :: args)

theorem argsRest_builds (depth : Nat) : Builds idsOfAll (fun _ => True) [] (argsRest depth) := by
  cases depth with
  | zero => exact .overrun
  | succ depth =>
    refine .skip .kind fun k => ?_
    split
    · refine .skip .advance fun _ => .bind (expr_builds depth) fun arg _ => ?_
      exact .bind (argsRest_builds depth) fun rest _ => .pure trivial (by simp)
    · exact .pure trivial (by simp)

theorem designator_builds (depth : Nat) (name : Ident) :
    Builds (fun d => (Expr.designator d).ids) (fun _ => True) [] (designator depth name) := by
  cases depth with
  | zero => exact .overrun
  | succ depth =>
    refine .bind (selectors_builds depth) fun selectors _ => ?_
    exact .bind (.node _) fun n _ => .pure trivial (by simp)

theorem selectors_builds (depth : Nat) : Builds idsOfAll (fun _ => True) [] (selectors depth) := by
  cases depth with
  | zero => exact .overrun
  | succ depth =>
    refine .skip .kind fun k => ?_
    split
    · refine .skip .advance fun _ => .bind (expr_builds depth) fun index _ => ?_
      refine .skip (.want _) fun _ => ?_
      exact .bind (selectors_builds depth) fun rest _ => .pure trivial (by simp)
    · exact .pure trivial (by simp)

end

/-! ## Statements -/

theorem namedStmt_builds (depth : Nat) : Builds Stmt.ids Stmt.Proper [] (namedStmt depth) := by
  refine .skip .token fun t => .skip .ident fun name => .skip .kind fun k => ?_
  split
  · refine .bind (call_builds depth name) fun c _ => ?_
    exact .bind (.node _) fun n _ => .pure trivial (by simp [Stmt.ids])
  · refine .bind (designator_builds depth name) fun target _ => .skip .kind fun k => ?_
    split
    · refine .skip .advance fun _ => .bind (expr_builds depth) fun value _ => ?_
      exact .bind (.node _) fun n _ => .pure trivial (by simp [Stmt.ids])
    · split
      · -- the call has a node of its own, completed after that of the statement
        refine .forget (.bind (.node _) fun outer _ => .bind (.node _) fun inner _ => ?_)
        exact .pure trivial (by simpa [Stmt.ids] using .swap ..)
      · exact .reject

mutual

theorem stmts_builds (depth : Nat) : Builds idsOfBody ProperBody [] (stmts depth) := by
  cases depth with
  | zero => exact .overrun
  | succ depth =>
    refine .skip .kind fun k => ?_
    have rest (first : List Stmt) (hfirst : ProperBody first) :
        Builds idsOfBody ProperBody (idsOfBody first) (do
        if (← Parser.kind) == .semi then
          advance
          return first ++ (← stmts depth)
        else return first) := by
      refine .skip .kind fun k => ?_
      split
      · refine .skip .advance fun _ => .bind (stmts_builds depth) fun rest hrest => ?_
        exact .pure (hfirst.append hrest) (by simp [idsOfBody_append])
      · exact .pure hfirst (.refl _)
    split
    · exact rest [] trivial
    · refine .bind (stmt_builds depth) fun first hfirst => ?_
      simpa [idsOfBody] using rest [first] ⟨hfirst, trivial⟩

theorem stmt_builds (depth : Nat) : Builds Stmt.ids Stmt.Proper [] (stmt depth) := by
  cases depth with
  | zero => exact .overrun
  | succ depth =>
    refine .skip .token fun t => .skip .kind fun k => ?_
    split
    · refine .bind (branch_builds depth) fun first hfirst => ?_
      refine .bind (branches_builds depth) fun rest hrest => .skip .kind fun k => ?_
      split
      · refine .skip .advance fun _ => .bind (stmts_builds depth) fun body hbody => .known ?_
        refine .skip (.want _) fun _ => .bind (.node _) fun n _ => ?_
        refine .pure ⟨List.cons_ne_nil _ _, ⟨hfirst, hrest⟩, hbody⟩ ?_
        simp [Stmt.ids, idsOfBranches_cons]
      · refine .known (.skip (.want _) fun _ => .bind (.node _) fun n _ => ?_)
        refine .pure ⟨List.cons_ne_nil _ _, hfirst, hrest⟩ ?_
        simp [Stmt.ids, idsOfBranches_cons]
    · refine .skip .advance fun _ => .bind (expr_builds depth) fun cond _ => ?_
      refine .skip (.want _) fun _ => .bind (stmts_builds depth) fun body hbody => ?_
      refine .skip (.want _) fun _ => .bind (.node _) fun n _ => .pure hbody ?_
      simp [Stmt.ids]
    · exact .skip .advance fun _ => .bind (.node _) fun n _ => .pure trivial (by simp [Stmt.ids])
    · refine .skip .advance fun _ => .skip .kind fun k => ?_
      split
      · exact .known (.bind (.node _) fun n _ => .pure trivial (by simp [Stmt.ids]))
      · refine .bind (expr_builds depth) fun value _ => .known ?_
        exact .bind (.node _) fun n _ => .pure trivial (by simp [Stmt.ids])
    · exact namedStmt_builds depth
    · exact .reject

theorem branches_builds (depth : Nat) :
    Builds idsOfBranches ProperBranches [] (branches depth) := by
  cases depth with
  | zero => exact .overrun
  | succ depth =>
    refine .skip .kind fun k => ?_
    split
    · refine .bind (branch_builds depth) fun first hfirst => ?_
      refine .bind (branches_builds depth) fun rest hrest => ?_
      exact .pure ⟨hfirst, hrest⟩ (by simp [idsOfBranches_cons])
    · exact .pure trivial (.refl _)

theorem branch_builds (depth : Nat) :
    Builds Branch.ids (fun branch => ProperBody branch.body) [] (branch depth) := by
  cases depth with
  | zero => exact .overrun
  | succ depth =>
    refine .skip .token fun t => .skip .advance fun _ => .bind (expr_builds depth) fun cond _ => ?_
    refine .skip (.want _) fun _ => .bind (stmts_builds depth) fun body hbody => ?_
    exact .bind (.node _) fun n _ => .pure hbody (by simp [Branch.ids])

end

/-! ## Declarations -/

abbrev noIds : α → List Nat := fun _ => []

theorem dataType_builds (depth : Nat) : Builds noIds DataType.Proper [] (dataType depth) := by
  induction depth with
  | zero => exact .overrun
  | succ depth ih =>
    refine .skip .kind fun k => ?_
    split
    · exact .skip .advance fun _ => .pure trivial (.refl _)
    · exact .skip .advance fun _ => .pure trivial (.refl _)
    · exact .skip .advance fun _ => .pure trivial (.refl _)
    · exact .skip .advance fun _ => .pure trivial (.refl _)
    · refine .skip .advance fun _ => .skip (.want _) fun size => ?_
      dsimp only
      split
      · exact .failed
      · rename_i hsize
        have hrange : 0 < (Decimal.ofDigits size.value.toList : Int) ∧
            (Decimal.ofDigits size.value.toList : Int) ≤ maxArraySize := by
          simp only [Bool.or_eq_true, beq_iff_eq, not_or, decide_eq_true_eq] at hsize
          omega
        exact .skip (.want _) fun _ => .bind ih fun elem helem => .pure ⟨hrange, helem⟩ (.refl _)
    · exact .reject

theorem namesRest_quiet (depth : Nat) : Quiet (namesRest depth) := by
  induction depth with
  | zero =>
    intro c a c' h
    cases h
  | succ depth ih =>
    refine .bind .kind fun k => ?_
    split
    · exact .bind .advance fun _ => .bind .ident fun name => .bind ih fun rest => .pure _
    · exact .pure _

theorem varDecl_builds (depth : Nat) :
    Builds (fun decl => [decl.node.id]) (fun decl => decl.type.Proper) [] (varDecl depth) := by
  refine .skip .token fun t => .skip .ident fun first => .skip (namesRest_quiet depth)
    fun rest => ?_
  refine .skip (.want _) fun _ => .bind (dataType_builds depth) fun type htype => ?_
  exact .bind (.node _) fun n _ => .pure htype (.refl _)

def ProperVars (decls : List VarDecl) : Prop := ∀ decl ∈ decls, decl.type.Proper

theorem ProperVars.nil : ProperVars [] := by simp [ProperVars]

theorem ProperVars.cons {decl : VarDecl} {rest : List VarDecl} (h : decl.type.Proper)
    (hrest : ProperVars rest) : ProperVars (decl :: rest) := by
  simpa [ProperVars] using ⟨h, hrest⟩

theorem varDecls_builds (depth : Nat) : Builds idsOfVars ProperVars [] (varDecls depth) := by
  induction depth with
  | zero => exact .overrun
  | succ depth ih =>
    refine .skip .kind fun k => ?_
    split
    · refine .bind (varDecl_builds depth) fun decl hdecl => .skip (.want _) fun _ => ?_
      exact .bind ih fun rest hrest => .pure (.cons hdecl hrest) (by simp [idsOfVars])
    · exact .pure .nil (.refl _)

theorem varBlock_builds (depth : Nat) : Builds idsOfVars ProperVars [] (varBlock depth) := by
  refine .skip .kind fun k => ?_
  split
  · exact .skip .advance fun _ => varDecls_builds depth
  · exact .pure .nil (.refl _)

theorem paramsRest_builds (depth : Nat) : Builds idsOfVars ProperVars [] (paramsRest depth) := by
  induction depth with
  | zero => exact .overrun
  | succ depth ih =>
    refine .skip .kind fun k => ?_
    split
    · refine .skip .advance fun _ => .bind (varDecl_builds depth) fun group hgroup => ?_
      exact .bind ih fun rest hrest => .pure (.cons hgroup hrest) (by simp [idsOfVars])
    · exact .pure .nil (.refl _)

theorem params_builds (depth : Nat) : Builds idsOfVars ProperVars [] (params depth) := by
  refine .skip .kind fun k => ?_
  split
  · refine .skip .advance fun _ => .skip .kind fun k => ?_
    split
    · exact .known (.skip (.want _) fun _ => .pure .nil (.refl _))
    · refine .bind (varDecl_builds depth) fun first hfirst => ?_
      refine .bind (paramsRest_builds depth) fun rest hrest => .known (.skip (.want _) fun _ => ?_)
      exact .pure (.cons hfirst hrest) (by simp [idsOfVars])
  · exact .pure .nil (.refl _)

theorem heading_builds (depth : Nat) : Builds Heading.ids Heading.Proper [] (heading depth) := by
  refine .skip (.want _) fun start => .skip .ident fun name => ?_
  refine .bind (params_builds depth) fun params hparams => .skip .kind fun k => ?_
  split
  · refine .skip .advance fun _ => .bind (dataType_builds depth) fun result hresult => ?_
    exact .bind (.node _) fun n _ => .pure ⟨hparams, .inr hresult⟩ (by simp [Heading.ids])
  · refine .known (.bind (.node _) fun n _ => ?_)
    exact .pure ⟨hparams, .inl rfl⟩ (by simp [Heading.ids])

theorem subprogram_builds (depth : Nat) :
    Builds SubprogramDecl.ids SubprogramDecl.Proper [] (subprogram depth) := by
  refine .skip .token fun t => .bind (heading_builds depth) fun heading hheading => ?_
  refine .skip (.want _) fun _ => .skip .kind fun k => ?_
  split
  · refine .bind (varBlock_builds depth) fun vars hvars => .skip (.want _) fun _ => ?_
    refine .bind (stmts_builds depth) fun body hbody => .skip (.want _) fun _ => ?_
    refine .skip (.endName _) fun _ => .skip (.want _) fun _ => .bind (.node _) fun n _ => ?_
    exact .pure ⟨hheading, hvars, hbody⟩ (by simp [SubprogramDecl.ids])
  · exact .bind (.node _) fun n _ => .pure hheading (by simp [SubprogramDecl.ids])

theorem subprograms_builds (depth : Nat) :
    Builds idsOfSubprograms (fun decls => ∀ decl ∈ decls, decl.Proper) [] (subprograms depth) := by
  induction depth with
  | zero => exact .overrun
  | succ depth ih =>
    refine .skip .kind fun k => ?_
    split
    · refine .bind (subprogram_builds depth) fun first hfirst => .bind ih fun rest hrest => ?_
      exact .pure (by simpa using ⟨hfirst, hrest⟩) (by simp [idsOfSubprograms])
    · exact .pure (by simp) (.refl _)

theorem program_builds (depth : Nat) :
    Builds Program.ids (fun p => (∀ decl ∈ p.vars, decl.type.Proper) ∧
      (∀ decl ∈ p.subprograms, decl.Proper) ∧ ProperBody p.body) [] (program depth) := by
  refine .skip (.want _) fun start => .skip .ident fun name => .skip (.want _) fun _ => ?_
  refine .bind (varBlock_builds depth) fun vars hvars => ?_
  refine .bind (subprograms_builds depth) fun subprograms hsubprograms => .skip .kind fun k => ?_
  have rest (body : List Stmt) (hbody : ProperBody body) :
      Builds Program.ids (fun p => (∀ decl ∈ p.vars, decl.type.Proper) ∧
        (∀ decl ∈ p.subprograms, decl.Proper) ∧ ProperBody p.body)
      (idsOfVars vars ++ idsOfSubprograms subprograms ++ idsOfBody body) (do
        let _ ← want .endKw
        endName name
        let _ ← want .dot
        if (← kind) != .eof then reject
        let node ← node start.span
        return ⟨node, name, vars, subprograms, body, (← get).ids.count⟩) := by
    refine .skip (.want _) fun _ => .skip (.endName _) fun _ => .skip (.want _) fun _ => ?_
    refine .skip .kind fun k => ?_
    split
    · exact .skip .reject fun _ => .bind (.node _) fun n _ => .skip .get fun c =>
        .pure ⟨hvars, hsubprograms, hbody⟩ (by simp [Program.ids])
    · exact .bind (.node _) fun n _ => .skip .get fun c =>
        .pure ⟨hvars, hsubprograms, hbody⟩ (by simp [Program.ids])
  split
  · exact .skip .advance fun _ => .bind (stmts_builds depth) fun body hbody => rest body hbody
  · simpa [idsOfBody] using rest [] trivial

end Parser

/-- Every node has an id of its own, and types are admissible. -/
theorem Program.regular_of_ofTokens {stream : TokenStream} {p : Program}
    (h : Program.ofTokens stream = .ok p) : p.Regular := by
  unfold Program.ofTokens at h
  cases hc : stream.cursor with
  | error d => simp [hc, bind, Except.bind] at h
  | ok c =>
    simp only [hc, bind, Except.bind, StateT.run] at h
    split at h
    · rename_i q c' hrun
      cases h
      obtain ⟨⟨hvars, hsubprograms, hbody⟩, hfresh⟩ :=
        Parser.program_builds stream.depth c p c' hrun
      exact ⟨(hfresh c.ids.count (.nil (Nat.le_refl _))).nodup, hvars, hsubprograms, hbody⟩
    · cases h
    · cases h

end Oberlet
