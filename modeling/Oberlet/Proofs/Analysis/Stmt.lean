import Oberlet.Proofs.Analysis.Expr

/-!
# The analysis of statements follows the rules

The analysis of a body consists of those of its clauses, one after the other.
-/

namespace Oberlet

open Typing Checker

/-! ## Clauses -/

/-- A part of a body that diagnostics are about: a guard, or a statement that has no guards and no
statements in it, inside of a loop or not. -/
inductive Clause
  | guard (cond : Expr)
  | plain (inLoop : Bool) (stmt : Stmt)

/-- The analysis of a clause. -/
def Clause.check (table : SymbolTable) (context : BodyContext) : Clause → Checker Unit
  | guard cond => cond.checkGuard table
  | plain inLoop stmt => stmt.check table { context with inLoop }

def Clause.selectors : Clause → List Expr
  | guard cond => cond.selectors
  | plain _ stmt => match stmt with
    | .assign _ target value => (Expr.designator target).selectors ++ value.selectors
    | .call _ c => (Expr.call c).selectors
    | .ret _ (some value) => value.selectors
    | _ => []

mutual

/-- The clauses of a statement, in the order of the text. -/
def Stmt.clauses (inLoop : Bool) : Stmt → List Clause
  | .assign node target value => [.plain inLoop (.assign node target value)]
  | .call node c => [.plain inLoop (.call node c)]
  | .ite _ branches none => clausesOfBranches inLoop branches
  | .ite _ branches (some body) => clausesOfBranches inLoop branches ++ clausesOfBody inLoop body
  | .loop _ cond body => .guard cond :: clausesOfBody true body
  | .exit node => [.plain inLoop (.exit node)]
  | .ret node value => [.plain inLoop (.ret node value)]

def clausesOfBranches (inLoop : Bool) : List (Branch Stmt) → List Clause
  | [] => []
  | ⟨_, cond, body⟩ :: rest =>
    .guard cond :: clausesOfBody inLoop body ++ clausesOfBranches inLoop rest

def clausesOfBody (inLoop : Bool) : List Stmt → List Clause
  | [] => []
  | stmt :: rest => stmt.clauses inLoop ++ clausesOfBody inLoop rest

end

/-- The statement has no guards and no statements in it. -/
inductive Stmt.IsPlain : Stmt → Prop
  | assign {node : Node} {target : Designator Expr} {value : Expr} :
      IsPlain (.assign node target value)
  | call {node : Node} {c : Call Expr} : IsPlain (.call node c)
  | exit {node : Node} : IsPlain (.exit node)
  | ret {node : Node} {value : Option Expr} : IsPlain (.ret node value)

theorem Typing.discard_eq {α : Type} (t : Typing α) (f : α → Checker Unit) :
    (do let _ ← (t >>= fun a => liftM (f a)).type?) =
      t.type? >>= fun r => r.elim (Pure.pure ()) f := by
  funext notes
  change Except.bind (Except.bind (Except.bind (t notes) _) _) _ =
    Except.bind (Except.bind (t notes) _) _
  cases t notes with
  | error fault => rfl
  | ok p =>
    obtain ⟨r, middle⟩ := p
    cases r with
    | error d => rfl
    | ok a =>
      change Except.bind (Except.bind (Except.bind (f a middle) _) _) _ = f a middle
      cases f a middle <;> rfl

theorem liftM_same {t u : DataType} {span : Span} {cause : Diagnostic.Cause} :
    (if t != u then liftM (Checker.report span cause) else Pure.pure () : Typing Unit) =
      liftM (if t != u then Checker.report span cause else Pure.pure () : Checker Unit) := by
  split <;> rfl

variable (table : SymbolTable)

theorem Expr.checkGuard_assessed (cond : Expr) :
    Assessed table.Sane (roomOf cond.ids) (checkIndexes table cond.selectors)
      (HasType table.lookup cond .boolean) (NotedIn table.lookup cond.parts)
      (cond.checkGuard table) := by
  refine ((cond.check_judged table).review (fun t => .same) rfl).imp (by simp) (fun h => h)
    (by simp) ?_
  exact fun _ finding hfinding _ _ => .inl hfinding

theorem Stmt.IsPlain.check_assessed {stmt : Stmt} (h : stmt.IsPlain) (context : BodyContext) :
    Assessed table.Sane (roomOf stmt.ids)
      (checkIndexes table (Clause.plain context.inLoop stmt).selectors)
      (stmt.WellTyped table.lookup context.result context.inLoop) (NotedIn table.lookup stmt.parts)
      (stmt.check table context) := by
  cases h with
  | @assign node target value =>
    have hpair : Judged table.Sane
        (fun key => roomOf (Expr.designator target).ids key + (roomOf value.ids key + 0))
        (checkIndexes table (Expr.designator target).selectors ++
          (checkIndexes table value.selectors ++ [])) (fun _ => True) _ _ (do
            let t ← target.check table
            let u ← value.check table
            return (t, u)) :=
      (target.check_judged table).bind fun t _ => (value.check_judged table).bind fun u _ =>
        .pure fun _ => trivial
    have heq : checkAssign table node target value = (do
        let t ← target.check table
        let u ← value.check table
        return (t, u)) >>= fun p => liftM (if p.1 != p.2 then
          Checker.report node.span (.cannotAssign p.2 p.1) else Pure.pure ()) := by
      simp only [checkAssign, bind_assoc, pure_bind, liftM_same]
    rw [Stmt.check, heq, discard_eq]
    refine (hpair.review (fun p => .same) rfl).imp ?_ ?_ ?_ ?_
    · simp [Stmt.ids]
    · simp [Clause.selectors, checkIndexes]
    · rw [Stmt.wellTyped_assign_iff]
      constructor
      · rintro ⟨_, ⟨t, ht, u, hu, rfl⟩, heq⟩
        obtain rfl : t = u := heq
        exact ⟨t, ht, hu⟩
      · rintro ⟨t, ht, hu⟩
        exact ⟨_, ⟨t, ht, t, hu, rfl⟩, rfl⟩
    · intro _ finding hfinding _ _
      rw [Stmt.parts, notedIn_append] at hfinding
      exact .inl fun _ _ => hfinding.imp_right fun hfinding _ _ => .inl hfinding
  | @call node c =>
    rw [Stmt.check]
    refine ((c.check_judged table true).review (fun _ => .pure) rfl).imp ?_ id ?_ ?_
    · simp [Stmt.ids]
    · simp [Stmt.wellTyped_call_iff]
    · exact fun _ finding hfinding _ _ => .inl hfinding
  | @exit node =>
    rw [Stmt.check]
    split
    · exact Assessed.imp .report (by simp) (fun _ => rfl) (by simp_all [Stmt.wellTyped_exit_iff])
        (by simp)
    · exact Assessed.pure.imp (by simp) (fun _ => rfl) (by simp_all [Stmt.wellTyped_exit_iff])
        (by simp [Stmt.parts])
  | @ret node value =>
    have heq : checkReturn table context node value =
        value.elim (Pure.pure .void) (·.check table) >>= fun t => liftM (if t != context.result then
          Checker.report node.span (.cannotReturn t context.name context.result) else
            Pure.pure ()) := by
      cases value <;> simp only [checkReturn, liftM_same] <;> rfl
    rw [Stmt.check, heq, discard_eq]
    cases value with
    | none =>
      have hvoid := @Judged.pure _ table.Sane (fun _ => True) DataType.void fun _ => trivial
      exact (hvoid.review (fun _ => .same) rfl).imp (by simp) (fun _ => rfl)
        (by simp [Stmt.wellTyped_ret_none_iff, eq_comm]) (by simp [Stmt.parts])
    | some value =>
      refine ((value.check_judged table).review (fun _ => .same) rfl).imp ?_ id ?_ ?_
      · simp [Stmt.ids]
      · exact exists_eq_right.trans Stmt.wellTyped_ret_some_iff.symm
      · exact fun _ finding hfinding _ _ => .inl hfinding

mutual

/-- Nothing is wrong with a statement exactly if it can stand in the body. -/
theorem Stmt.check_reviewed (context : BodyContext) (stmt : Stmt) :
    Reviewed table.Sane (roomOf stmt.ids)
      ((stmt.clauses context.inLoop).map (·.check table context))
      (stmt.WellTyped table.lookup context.result context.inLoop)
      (NotedIn table.lookup stmt.parts) (stmt.check table context) := by
  cases stmt with
  | assign node target value => exact .whole (Stmt.IsPlain.assign.check_assessed table context)
  | call node c => exact .whole (Stmt.IsPlain.call.check_assessed table context)
  | exit node => exact .whole (Stmt.IsPlain.exit.check_assessed table context)
  | ret node value => exact .whole (Stmt.IsPlain.ret.check_assessed table context)
  | ite node branches otherwise =>
    rw [Stmt.check.eq_def]
    cases otherwise with
    | none =>
      refine ((checkBranches_reviewed context branches).seq .pure).imp ?_ ?_ ?_ ?_
      · simp [Stmt.ids]
      · exact List.append_nil _
      · simp [Stmt.wellTyped_ite_iff]
      · exact fun _ finding hfinding => .inl hfinding
    | some body =>
      refine ((checkBranches_reviewed context branches).seq
        (checkStmts_reviewed context body)).imp ?_ ?_ ?_ ?_
      · simp [Stmt.ids]
      · exact List.map_append.symm
      · simp [Stmt.wellTyped_ite_iff, and_assoc]
      · intro _ finding hfinding
        rwa [Stmt.parts, notedIn_append] at hfinding
  | loop node cond body =>
    rw [Stmt.check]
    refine ((Reviewed.whole (cond.checkGuard_assessed table)).seq
      (checkStmts_reviewed { context with inLoop := true } body)).imp ?_ rfl
        Stmt.wellTyped_loop_iff.symm ?_
    · simp [Stmt.ids]
    · intro _ finding hfinding
      rwa [Stmt.parts, notedIn_append] at hfinding

theorem checkBranches_reviewed (context : BodyContext)
    (branches : List (Branch Stmt)) :
    Reviewed table.Sane (roomOf (idsOfBranches branches))
      ((clausesOfBranches context.inLoop branches).map (·.check table context))
      ((∀ branch ∈ branches, HasType table.lookup branch.cond .boolean) ∧
        ∀ branch ∈ branches, ∀ stmt ∈ branch.body,
          stmt.WellTyped table.lookup context.result context.inLoop)
      (NotedIn table.lookup (partsOfBranches branches)) (checkBranches table context branches) := by
  match branches with
  | [] => exact Reviewed.pure.imp (by simp) rfl (by simp) (by simp [partsOfBranches])
  | ⟨node, cond, body⟩ :: rest =>
    rw [checkBranches]
    refine ((Reviewed.whole (cond.checkGuard_assessed table)).seq
      ((checkStmts_reviewed context body).seq
        (checkBranches_reviewed context rest))).imp ?_ ?_ ?_ ?_
    · intro key
      simp only [idsOfBranches_cons, Branch.ids, roomOf_append]
      omega
    · simp [clausesOfBranches, Clause.check]
    · simp only [List.forall_mem_cons]
      tauto
    · intro _ finding hfinding
      rwa [partsOfBranches, notedIn_append, notedIn_append, or_assoc] at hfinding

theorem checkStmts_reviewed (context : BodyContext) (stmts : List Stmt) :
    Reviewed table.Sane (roomOf (idsOfBody stmts))
      ((clausesOfBody context.inLoop stmts).map (·.check table context))
      (∀ stmt ∈ stmts, stmt.WellTyped table.lookup context.result context.inLoop)
      (NotedIn table.lookup (partsOfBody stmts)) (checkStmts table context stmts) := by
  match stmts with
  | [] => exact Reviewed.pure.imp (by simp) rfl (by simp) (by simp [partsOfBody])
  | stmt :: rest =>
    rw [checkStmts]
    refine ((stmt.check_reviewed context).seq (checkStmts_reviewed context rest)).imp
      ?_ List.map_append.symm (by simp) ?_
    · simp [idsOfBody]
    · intro _ finding hfinding
      rwa [partsOfBody, notedIn_append] at hfinding

end

/-- Statements are analysed each for itself. -/
theorem checkStmts_reviewed_each (context : BodyContext) (stmts : List Stmt) :
    Reviewed table.Sane (roomOf (idsOfBody stmts)) (stmts.map (·.check table context))
      (∀ stmt ∈ stmts, stmt.WellTyped table.lookup context.result context.inLoop) (fun _ => False)
      (checkStmts table context stmts) := by
  induction stmts with
  | nil => exact Reviewed.pure.imp (by simp) rfl (by simp) (by simp)
  | cons stmt rest ih =>
    rw [checkStmts]
    refine ((stmt.check_reviewed table context).joined.seq ih).imp ?_ rfl (by simp) (by simp)
    simp [idsOfBody]

mutual

theorem Stmt.clauses_plain (inLoop : Bool) (stmt : Stmt) :
    ∀ b inner, .plain b inner ∈ stmt.clauses inLoop → inner.IsPlain := by
  intro b inner hmem
  cases stmt with
  | assign node target value => cases List.mem_singleton.mp hmem; exact .assign
  | call node c => cases List.mem_singleton.mp hmem; exact .call
  | exit node => cases List.mem_singleton.mp hmem; exact .exit
  | ret node value => cases List.mem_singleton.mp hmem; exact .ret
  | ite node branches otherwise =>
    cases otherwise with
    | none => exact clausesOfBranches_plain inLoop branches b inner hmem
    | some body =>
      exact (List.mem_append.mp hmem).elim (clausesOfBranches_plain inLoop branches b inner)
        (clausesOfBody_plain inLoop body b inner)
  | loop node cond body =>
    exact clausesOfBody_plain true body b inner ((List.mem_cons.mp hmem).resolve_left nofun)

theorem clausesOfBranches_plain (inLoop : Bool) (branches : List (Branch Stmt)) :
    ∀ b inner, .plain b inner ∈ clausesOfBranches inLoop branches → inner.IsPlain := by
  intro b inner hmem
  match branches with
  | [] => cases hmem
  | ⟨node, cond, body⟩ :: rest =>
    rcases List.mem_append.mp hmem with hmem | hmem
    · exact clausesOfBody_plain inLoop body b inner ((List.mem_cons.mp hmem).resolve_left nofun)
    · exact clausesOfBranches_plain inLoop rest b inner hmem

theorem clausesOfBody_plain (inLoop : Bool) (stmts : List Stmt) :
    ∀ b inner, .plain b inner ∈ clausesOfBody inLoop stmts → inner.IsPlain := by
  intro b inner hmem
  match stmts with
  | [] => cases hmem
  | stmt :: rest =>
    exact (List.mem_append.mp hmem).elim (stmt.clauses_plain inLoop b inner)
      (clausesOfBody_plain inLoop rest b inner)

end

end Oberlet
