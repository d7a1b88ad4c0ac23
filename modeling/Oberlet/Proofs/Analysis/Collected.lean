import Oberlet.Proofs.Compilation

/-!
# Errors are local and collected

The analysis of a part of a body looks at the store of annotations only where it writes: at the
nodes of that part.
-/

namespace Oberlet

variable {α : Type} {S : Prop} {ids : List Nat} {stmts : List Stmt}

/-! ## Recorded diagnostics -/

namespace Checker

/-- The diagnostics that an analysis records, in a given state of things. -/
def recorded (c : Checker α) (notes : Notes) : Except Fault (List Diagnostic) :=
  (c notes).map fun r => r.2.errors.drop notes.errors.length

def recordedAll (cs : List (Checker Unit)) (notes : Notes) : Except Fault (List Diagnostic) :=
  (cs.mapM (recorded · notes)).map List.flatten

theorem recordedAll_cons (c : Checker Unit) (cs : List (Checker Unit)) (notes : Notes) :
    recordedAll (c :: cs) notes =
      (c.recorded notes).bind fun front => (recordedAll cs notes).map (front ++ ·) := by
  rw [recordedAll, List.mapM_cons, recordedAll]
  cases c.recorded notes with
  | error fault => rfl
  | ok front => cases cs.mapM (recorded · notes) <;> rfl

end Checker

open Checker

namespace Report

/-- A report is refused as a whole or gives all its diagnostics. -/
theorem recorded_perform (r : Report α) (notes : Notes) :
    r.perform.recorded notes = (notes.annotations.annotateAll r.findings).map
      fun _ => r.errors := by
  change Except.map _ (Except.map _ (notes.annotations.annotateAll r.findings)) = _
  cases notes.annotations.annotateAll r.findings <;> simp [Except.map]

/-- Reports about different nodes do not notice each other. -/
theorem recorded_all {rs : List (Report Unit)} (hkeys : ((all rs).findings.map Finding.key).Nodup)
    (notes : Notes) : (all rs).perform.recorded notes = recordedAll (rs.map perform) notes := by
  induction rs with
  | nil => rw [recorded_perform]; rfl
  | cons r rs ih =>
    have hall : (all (r :: rs)).findings = r.findings ++ (all rs).findings := rfl
    rw [hall, List.map_append] at hkeys
    rw [List.map_cons, recordedAll_cons, ← ih hkeys.of_append_right, recorded_perform,
      recorded_perform, recorded_perform, hall, Annotations.annotateAll_eq hkeys.of_append_left,
      Annotations.annotateAll_eq hkeys.of_append_right,
      Annotations.annotateAll_eq (List.map_append ▸ hkeys), List.findSome?_append]
    cases r.findings.findSome? notes.annotations.refusal with
    | some fault => rfl
    | none => cases (all rs).findings.findSome? notes.annotations.refusal <;> rfl

theorem of_perform_eq_ok {r : Report α} {a : α} {notes after : Notes}
    (h : r.perform notes = .ok (a, after)) : a = r.value ∧
      notes.annotations.annotateAll r.findings = .ok after.annotations ∧
      after.errors = notes.errors ++ r.errors := by
  change Except.map _ (notes.annotations.annotateAll r.findings) = _ at h
  cases hrun : notes.annotations.annotateAll r.findings with
  | error fault => rw [hrun] at h; cases h
  | ok a' =>
    rw [hrun] at h
    cases h
    exact ⟨rfl, rfl, rfl⟩

end Report

/-- The diagnostics of a body are those of its parts, each analysed alone. -/
theorem Checker.Reviewed.recorded_eq {cs : List (Checker Unit)} {good : Prop}
    {noted : Finding → Prop} {c : Checker Unit} (h : Reviewed S (roomOf ids) cs good noted c)
    (hids : ids.Nodup) (notes : Notes) :
    c.recorded notes = recordedAll cs notes := by
  obtain ⟨rs, rfl, rfl, hr⟩ := h
  exact Report.recorded_all (hr.fits.keys_nodup (roomOf_le_one hids)) notes

/-- A store that knows nothing about the nodes takes all findings. -/
theorem Fits.annotateAll_of_empty {findings : List Finding} (h : Fits S (roomOf ids) findings)
    (hS : S) (hids : ids.Nodup) {a : Annotations} (hempty : ∀ id ∈ ids, a.slot id = .empty) :
    a.annotateAll findings = .ok (a.enterAll findings) := by
  refine h.annotateAll hS (roomOf_le_one hids) fun key hkey => ?_
  obtain ⟨id, kind⟩ := key
  have hid : id ∈ ids := List.count_pos_iff.mp hkey
  cases kind <;> simp [Annotations.Blank, hempty id hid, Slot.empty]

/-! ## Lists of statements of a module -/

/-- The lists of statements of a module: its body, those of its definitions, and those in a
statement of such a list. -/
inductive Program.HasStmts (p : Program) : List Stmt → Prop
  | main : p.HasStmts p.body
  | definition {node : Node} {heading : Heading} {vars : List VarDecl} {body : List Stmt} :
      .definition node heading vars body ∈ p.subprograms → p.HasStmts body
  | branch {stmts : List Stmt} {node : Node} {branches : List (Branch Stmt)}
      {otherwise : Option (List Stmt)} {b : Branch Stmt} : p.HasStmts stmts →
      .ite node branches otherwise ∈ stmts → b ∈ branches → p.HasStmts b.body
  | otherwise {stmts body : List Stmt} {node : Node} {branches : List (Branch Stmt)} :
      p.HasStmts stmts → .ite node branches (some body) ∈ stmts → p.HasStmts body
  | loop {stmts body : List Stmt} {node : Node} {cond : Expr} : p.HasStmts stmts →
      .loop node cond body ∈ stmts → p.HasStmts body

theorem Stmt.ids_sublist {stmt : Stmt} (h : stmt ∈ stmts) :
    stmt.ids.Sublist (idsOfBody stmts) := by
  obtain ⟨front, back, rfl⟩ := List.append_of_mem h
  rw [idsOfBody_append, idsOfBody]
  exact (List.sublist_append_left _ _).trans (List.sublist_append_right _ _)

theorem Branch.ids_sublist {branches : List (Branch Stmt)} {b : Branch Stmt} (h : b ∈ branches) :
    b.ids.Sublist (idsOfBranches branches) := by
  induction branches with
  | nil => cases h
  | cons first rest ih =>
    rw [idsOfBranches_cons]
    rcases List.mem_cons.mp h with rfl | h
    · exact List.sublist_append_left _ _
    · exact (ih h).trans (List.sublist_append_right _ _)

theorem Program.HasStmts.ids_nodup {p : Program} (h : p.HasStmts stmts) (hp : p.ids.Nodup) :
    (idsOfBody stmts).Nodup := by
  have hlists := hp.of_append_left
  induction h with
  | main => exact hlists.of_append_right
  | @definition node heading vars body hmem =>
    obtain ⟨front, back, hsplit⟩ := List.append_of_mem hmem
    have hdecls := hlists.of_append_left.of_append_right
    rw [idsOfSubprograms, hsplit, List.flatMap_append, List.flatMap_cons] at hdecls
    exact hdecls.of_append_right.of_append_left.of_append_left.of_append_right
  | @branch stmts node branches otherwise b _ hmem hb ih =>
    have hbranches : (idsOfBranches branches).Nodup := by
      have hstmt := ih.sublist (Stmt.ids_sublist hmem)
      cases otherwise with
      | none => exact hstmt.of_append_left
      | some body => exact hstmt.of_append_left.of_append_left
    exact (hbranches.sublist (Branch.ids_sublist hb)).of_append_left.of_append_right
  | otherwise _ hmem ih =>
    exact (ih.sublist (Stmt.ids_sublist hmem)).of_append_left.of_append_right
  | loop _ hmem ih => exact (ih.sublist (Stmt.ids_sublist hmem)).of_append_left.of_append_right

/-- The analysis of a list of statements of a module that was read leaves the symbol table as it is.
Behind the diagnostics that there were, it records those that its statements record, each of them
analysed alone in the same state of things; and these are the diagnostics of the guards and of the
plain statements in them, each analysed alone. With symbols whose types are known and nodes that
have not been annotated, it does not fail. -/
theorem errors_local_and_collected {source : List Char} {p : Program} {stmts : List Stmt}
    (hparse : Program.parse source = .ok p) (hstmts : p.HasStmts stmts) (context : BodyContext)
    (analysis : Analysis) :
    (∀ after, Declaring.body (checkStmts · context stmts) analysis = .ok ((), after) →
      after.table = analysis.table ∧ ∃ errors,
        (checkStmts analysis.table context stmts).recorded analysis.notes = .ok errors ∧
        after.notes.errors = analysis.notes.errors ++ errors) ∧
    (checkStmts analysis.table context stmts).recorded analysis.notes =
      recordedAll (stmts.map (·.check analysis.table context)) analysis.notes ∧
    (checkStmts analysis.table context stmts).recorded analysis.notes =
      recordedAll ((clausesOfBody context.inLoop stmts).map (·.check analysis.table context))
        analysis.notes ∧
    (analysis.table.Sane →
      (∀ id ∈ idsOfBody stmts, analysis.notes.annotations.slot id = .empty) →
      ∃ errors, (checkStmts analysis.table context stmts).recorded analysis.notes =
        .ok errors) := by
  have hnodup := hstmts.ids_nodup (Program.regular_of_ofTokens hparse).ids_nodup
  have hclauses := checkStmts_reviewed analysis.table context stmts
  have hparts := checkStmts_reviewed_each analysis.table context stmts
  refine ⟨fun after hrun => ?_, hparts.recorded_eq hnodup _, hclauses.recorded_eq hnodup _,
    fun hsane hempty => ?_⟩
  all_goals obtain ⟨rs, -, hperform, hr⟩ := hclauses
  · change Except.bind (checkStmts analysis.table context stmts analysis.notes) _ = _ at hrun
    rw [hperform] at hrun ⊢
    obtain ⟨r, hcheck, ⟨⟩⟩ := bind_eq_ok.mp hrun
    obtain ⟨-, hannotated, herrors⟩ := Report.of_perform_eq_ok hcheck
    exact ⟨rfl, _, by rw [Report.recorded_perform, hannotated]; rfl, herrors⟩
  · exact ⟨_, by rw [hperform, Report.recorded_perform,
      hr.fits.annotateAll_of_empty hsane hnodup hempty]; rfl⟩

/-- A text with errors in all kinds of places: outside of any loop, in an assignment, in a guard,
and in a branch below that guard. -/
def scatteredText : List Char :=
  ("MODULE M; VAR x: INTEGER; BEGIN EXIT; x := TRUE; IF x THEN y := 1 END; " ++
    "WHILE x DO EXIT END; EXIT END M.").toList

def scatteredTable : SymbolTable := ⟨[("x", .var ⟨"x", none, .integer⟩)], []⟩

theorem scattered_errors_collected : ∃ p errors, Program.parse scatteredText = .ok p ∧
    (checkStmts scatteredTable ⟨"M", .void, false⟩ p.body).recorded ⟨.ofSize 0, []⟩ = .ok errors ∧
    recordedAll (p.body.map (·.check scatteredTable ⟨"M", .void, false⟩)) ⟨.ofSize 0, []⟩ =
      .ok errors ∧
    errors.map (·.cause) = [.exitOutsideLoop, .cannotAssign .boolean .integer,
      .badCondition .integer, .undefinedName "y", .badCondition .integer, .exitOutsideLoop] := by
  have hcauses : ((Program.parse scatteredText).toOption.bind fun p =>
      ((checkStmts scatteredTable ⟨"M", .void, false⟩ p.body).recorded
        ⟨.ofSize 0, []⟩).toOption).map
        (·.map (·.cause)) = some [.exitOutsideLoop, .cannotAssign .boolean .integer,
          .badCondition .integer, .undefinedName "y", .badCondition .integer,
            .exitOutsideLoop] := by
    decide +kernel
  obtain ⟨errors, herrors, hcauses⟩ := Option.map_eq_some_iff.mp hcauses
  obtain ⟨p, hp, herrors⟩ := Option.bind_eq_some_iff.mp herrors
  have hparse := eq_ok_of_toOption hp
  have hrecorded := eq_ok_of_toOption herrors
  obtain ⟨-, heq, -⟩ := errors_local_and_collected hparse .main ⟨"M", .void, false⟩
    ⟨scatteredTable, ⟨.ofSize 0, []⟩⟩
  exact ⟨p, errors, hparse, hrecorded, heq.symm.trans hrecorded, hcauses⟩

end Oberlet
