import Oberlet.Proofs.Analysis.Collected
import Oberlet.Proofs.Analysis.Ordered

/-!
# Every error is recorded once

A diagnostic that the analysis of an expression returns has just been recorded, and whatever
contains the expression gives up without recording anything again. Only what is wrong with an index
selector is not returned.
-/

namespace Oberlet

open Checker Typing

variable {α : Type} {a : Annotations} {findings : List Finding} {table : SymbolTable}
  {notes : Notes}

/-! ## Types of nodes -/

theorem Annotations.type_enterAll {id : Nat} (h : (id, true) ∉ findings.map Finding.key) :
    ((a.enterAll findings).slot id).type = (a.slot id).type := by
  induction findings generalizing a with
  | nil => rfl
  | cons finding rest ih =>
    rw [List.map_cons, List.mem_cons, not_or] at h
    refine (ih h.2).trans ?_
    rw [slot_enter]
    split
    · cases finding with
      | type i t => simp_all [Finding.key, Finding.id]
      | symbols i ss => rfl
    · rfl

theorem Annotations.eq_enterAll {a' : Annotations} (h : a.annotateAll findings = .ok a') :
    a' = a.enterAll findings := by
  induction findings generalizing a with
  | nil => cases h; rfl
  | cons finding rest ih =>
    change (a.annotate finding).bind (·.annotateAll rest) = _ at h
    rw [annotate_eq] at h
    cases hrefusal : a.refusal finding with
    | some fault => rw [hrefusal] at h; cases h
    | none => rw [hrefusal] at h; exact ih h

namespace Typing

/-- The analysis ends with the type of a node. If it gives up, the type of the node is as it was. -/
def Settles (id : Nat) (t : Typing DataType) : Prop :=
  ∀ notes r after, t notes = .ok (r, after) → (after.annotations.slot id).type =
    r.toOption.or (notes.annotations.slot id).type

namespace Settles

variable {id : Nat}

theorem conclude (id : Nat) (type : DataType) : Settles id (do
    Checker.annotateType id type
    return type) := by
  intro notes r after hrun
  change Except.bind (Except.bind (Except.bind (Except.bind (notes.annotations.annotateType id type)
    _) _) _) _ = _ at hrun
  rw [Annotations.annotateType_eq] at hrun
  cases hrefusal : (notes.annotations.slot id).typeRefusal id type with
  | some fault => rw [hrefusal] at hrun; cases hrun
  | none =>
    rw [hrefusal] at hrun
    cases hrun
    exact congrArg Slot.type
      ((notes.annotations.slot_enter (.type id type) id).trans (if_pos rfl))

theorem orRefuse {span : Span} {cause : Diagnostic.Cause} {b : Bool} {t : Unit → Typing DataType}
    (ht : b = false → Settles id (t ())) :
    Settles id (if b then Typing.refuse span cause >>= t else t ()) := by
  cases b with
  | true =>
    rintro notes _ _ ⟨⟩
    rfl
  | false => exact ht rfl

theorem bind {S : Prop} {room : Room} {cs : List (Checker Unit)} {sane good : α → Prop}
    {noted : Finding → Prop} {t : Typing α} {f : α → Typing DataType}
    (ht : Judged S room cs sane good noted t) (hroom : room (id, true) = 0)
    (hf : ∀ a, (S → sane a) → Settles id (f a)) : Settles id (t >>= f) := by
  intro notes r after hrun
  obtain ⟨report, heq, hr⟩ := ht
  change Except.bind (t.run notes) (fun p => ExceptT.bindCont f p.1 p.2) = _ at hrun
  rw [heq] at hrun
  obtain ⟨⟨r', middle⟩, hrun', hrun⟩ := bind_eq_ok.mp hrun
  obtain ⟨hvalue, hannotated, -⟩ := Report.of_perform_eq_ok hrun'
  have htype : (middle.annotations.slot id).type = (notes.annotations.slot id).type := by
    rw [Annotations.eq_enterAll hannotated]
    exact Annotations.type_enterAll (List.count_eq_zero.mp
      (Nat.le_zero.mp (hroom ▸ hr.fits.count_le (id, true))))
  rw [← htype]
  cases r' with
  | error d => cases hrun; rfl
  | ok a => exact hf a (fun hs => hr.sane hs a hvalue.symm) middle r after hrun

end Settles

end Typing

/-- An expression is annotated with the type that its analysis returns. -/
theorem Expr.check_settles (table : SymbolTable) (e : Expr) (h : e.ids.Nodup) :
    Settles e.id (e.check table) := by
  have hlast {ids : List Nat} {id : Nat} (h : (ids ++ [id]).Nodup) : roomOf ids (id, true) = 0 := by
    rw [← List.concat_eq_append, List.nodup_concat] at h
    exact List.count_eq_zero.mpr h.1
  cases e with
  | literal node value =>
    rw [Expr.check]
    exact .conclude node.id value.type
  | paren node inner =>
    rw [Expr.ids_paren] at h
    rw [Expr.check]
    exact .bind (inner.check_judged table) (hlast h) fun type _ => .conclude node.id type
  | not node operand =>
    rw [Expr.ids_not] at h
    rw [Expr.check]
    exact .bind (operand.check_judged table) (hlast h) fun _ _ =>
      .orRefuse fun _ => .conclude node.id .boolean
  | designator d =>
    obtain ⟨node, name, selectors⟩ := d
    rw [Expr.ids_designator] at h
    rw [Expr.check, Designator.check]
    exact .bind (resolveVar_judged table name) rfl fun v hv =>
      .bind (Judged.annotateSymbols (S := True)) (if_neg (by simp)) fun _ _ =>
        .bind (checkSelectors_judged table node.span selectors hv) (hlast h)
          fun type _ => .conclude node.id type
  | call c =>
    obtain ⟨node, callee, args⟩ := c
    rw [Expr.ids_call] at h
    rw [Expr.check, Call.check]
    exact .bind (resolveProc_judged table callee) rfl fun s _ =>
      .bind (Judged.annotateSymbols (S := True)) (if_neg (by simp)) fun _ _ =>
        .orRefuse fun hlength => .bind (checkArgs_judged table s.name 1 args s.params
          (by simpa using hlength)) (hlast h) fun _ _ => .orRefuse
            fun _ => .conclude node.id s.result
  | comparison node left op right =>
    rw [Expr.ids_comparison] at h
    obtain ⟨hl, hr⟩ := Nat.add_eq_zero_iff.mp ((roomOf_append _ _ _).symm.trans (hlast h))
    rw [Expr.check]
    exact .bind (left.check_judged table) hl fun _ _ => .bind (right.check_judged table) hr
      fun _ _ => .orRefuse fun _ => .orRefuse fun _ => .conclude node.id .boolean
  | sum node negate first rest =>
    rw [Expr.ids_sum] at h
    obtain ⟨hf, hr⟩ := Nat.add_eq_zero_iff.mp ((roomOf_append _ _ _).symm.trans (hlast h))
    rw [Expr.check]
    exact .bind (first.check_judged table) hf fun type _ => .orRefuse fun _ =>
      .bind (checkChain_judged table type first.span rest) hr fun _ _ => .conclude node.id type
  | product node first rest =>
    rw [Expr.ids_product] at h
    obtain ⟨hf, hr⟩ := Nat.add_eq_zero_iff.mp ((roomOf_append _ _ _).symm.trans (hlast h))
    rw [Expr.check]
    exact .bind (first.check_judged table) hf fun type _ =>
      .bind (checkChain_judged table type first.span rest) hr fun _ _ => .conclude node.id type

/-! ## Clauses -/

/-- A clause without index selectors has at most one diagnostic. -/
theorem Clause.length_recorded_le {context : BodyContext} {stmt : Stmt} {inLoop : Bool}
    {clause : Clause} (hclause : clause ∈ stmt.clauses inLoop) (hnone : clause.selectors = [])
    {errors : List Diagnostic}
    (hrecorded : (clause.check table context).recorded notes = .ok errors) : errors.length ≤ 1 := by
  have hsingle : ∃ r : Report Unit, clause.check table context = r.perform ∧
      r.errors.length ≤ 1 := by
    cases clause with
    | guard cond =>
      obtain ⟨r, hperform, -, hsingle⟩ := cond.checkGuard_assessed table
      exact ⟨r, hperform, hsingle (congrArg (checkIndexes table) hnone)⟩
    | plain b inner =>
      obtain ⟨r, hperform, -, hsingle⟩ := (stmt.clauses_plain inLoop b inner hclause).check_assessed
        table { context with inLoop := b }
      exact ⟨r, hperform, hsingle (congrArg (checkIndexes table) hnone)⟩
  obtain ⟨r, hperform, hlength⟩ := hsingle
  rw [hperform, Report.recorded_perform] at hrecorded
  cases hrun : notes.annotations.annotateAll r.findings with
  | error fault => rw [hrun] at hrecorded; cases hrecorded
  | ok a =>
    rw [hrun] at hrecorded
    cases hrecorded
    exact hlength

/-! ## Modules -/

mutual

theorem Stmt.ids_parts_sublist (stmt : Stmt) : (stmt.parts.map Expr.id).Sublist stmt.ids := by
  cases stmt with
  | assign node target value =>
    rw [Stmt.parts, List.map_append]
    exact List.sublist_append_left _ _
  | call node c => exact List.sublist_append_left _ _
  | ite node branches otherwise =>
    cases otherwise with
    | none => exact (ids_partsOfBranches_sublist branches).trans (List.sublist_append_left _ _)
    | some body =>
      rw [Stmt.parts, List.map_append]
      exact ((ids_partsOfBranches_sublist branches).append (ids_partsOfBody_sublist body)).trans
        (List.sublist_append_left _ _)
  | loop node cond body =>
    rw [Stmt.parts, List.map_append]
    exact ((List.Sublist.refl _).append (ids_partsOfBody_sublist body)).trans
      (List.sublist_append_left _ _)
  | exit node => exact List.nil_sublist _
  | ret node value =>
    cases value with
    | none => exact List.nil_sublist _
    | some value => exact List.sublist_append_left _ _

theorem ids_partsOfBranches_sublist (branches : List (Branch Stmt)) :
    ((partsOfBranches branches).map Expr.id).Sublist (idsOfBranches branches) := by
  cases branches with
  | nil => exact .slnil
  | cons branch rest =>
    obtain ⟨node, cond, body⟩ := branch
    rw [partsOfBranches, List.map_append, List.map_append]
    exact (((List.Sublist.refl _).append (ids_partsOfBody_sublist body)).trans
      (List.sublist_append_left _ _)).append (ids_partsOfBranches_sublist rest)

theorem ids_partsOfBody_sublist (stmts : List Stmt) :
    ((partsOfBody stmts).map Expr.id).Sublist (idsOfBody stmts) := by
  cases stmts with
  | nil => exact .slnil
  | cons stmt rest =>
    rw [partsOfBody, List.map_append]
    exact stmt.ids_parts_sublist.append (ids_partsOfBody_sublist rest)

end

/-- What the analysis of an expression leaves behind it. -/
structure Expr.Accounted (e : Expr) (table : SymbolTable) (notes after : Notes)
    (r : Except Diagnostic DataType) : Prop where
  /-- A diagnostic that is returned is the last that was recorded, and there is no type. -/
  failed : ∀ d, r = .error d →
    (∃ more, after.errors = notes.errors ++ (more ++ [d])) ∧ after.annotations.hasType e.id = false
  /-- A type that is returned is that of the node, and the diagnostics are those of the index
  selectors, each of them analysed alone. -/
  typed : ∀ type, r = .ok type → after.annotations.typeOf e.id = .ok type ∧
    ∃ more, recordedAll (checkIndexes table e.selectors) notes = .ok more ∧
      after.errors = notes.errors ++ more

/-- What the analysis of an expression leaves behind accounts for its answer. -/
theorem Expr.accounted_of_check {e : Expr} (h : e.ids.Nodup) {after : Notes}
    {r : Except Diagnostic DataType} (hempty : ∀ id ∈ e.ids, notes.annotations.slot id = .empty)
    (hrun : e.check table notes = .ok (r, after)) : e.Accounted table notes after r := by
  have htype := e.check_settles table h notes r after hrun
  rw [hempty e.id (List.mem_map_of_mem e.self_mem_parts)] at htype
  obtain ⟨report, hperform, hr⟩ := e.check_judged table
  have hkeys := hr.fits.keys_nodup (roomOf_le_one h)
  change (e.check table).run notes = _ at hrun
  rw [hperform] at hrun
  obtain ⟨hvalue, hannotated, herrors⟩ := Report.of_perform_eq_ok hrun
  constructor
  · rintro d rfl
    obtain ⟨before, hlast, -⟩ := hr.last d hvalue.symm
    exact ⟨⟨before, by rw [herrors, hlast]⟩, by rw [Annotations.hasType, htype]; rfl⟩
  · rintro type rfl
    refine ⟨by rw [Annotations.typeOf, htype]; rfl, ?_⟩
    obtain ⟨rs, hrs, hfindings, heq⟩ := hr.gathers type hvalue.symm
    have hkeys' := hkeys.sublist (hfindings.map Finding.key)
    -- none of the findings of the index selectors is refused, as none at all is
    have hrun' := (Annotations.annotateAll_eq_ok_iff hkeys').mpr ⟨fun finding hfinding =>
      ((Annotations.annotateAll_eq_ok_iff hkeys).mp hannotated).1 finding
        (hfindings.subset hfinding),
      rfl⟩
    refine ⟨_, ?_, herrors⟩
    rw [hrs, ← Report.recorded_all hkeys', Report.recorded_perform, hrun', heq]
    rfl

/-- Whatever the names of a table mean, the analysis of an expression of a module that was read, if
nothing is known about its nodes, accounts for its diagnostics; and with symbols whose types are
known it does not fail. The analysis of the module records no diagnostic twice. And a statement of
it records what its assignments, calls, return values and guards record, each of which without index
selectors records at most one. -/
theorem diagnostics_recorded_once {source : List Char} {p : Program}
    (hparse : Program.parse source = .ok p) :
    (∀ stmts, p.HasStmts stmts → ∀ e ∈ partsOfBody stmts, ∀ (table : SymbolTable) (notes : Notes),
      (∀ id ∈ e.ids, notes.annotations.slot id = .empty) →
        (table.Sane → ∃ r after, e.check table notes = .ok (r, after)) ∧
        ∀ r after, e.check table notes = .ok (r, after) → e.Accounted table notes after r) ∧
    (∃ analysis, p.analyze = .ok analysis ∧ analysis.notes.errors.Nodup) ∧
    ∀ stmts, p.HasStmts stmts → ∀ stmt ∈ stmts, ∀ (table : SymbolTable) (context : BodyContext)
        (notes : Notes),
      (stmt.check table context).recorded notes =
        recordedAll ((stmt.clauses context.inLoop).map (·.check table context)) notes ∧
      ∀ clause ∈ stmt.clauses context.inLoop, clause.selectors = [] → ∀ errors,
        (clause.check table context).recorded notes = .ok errors → errors.length ≤ 1 := by
  have hregular := Program.regular_of_ofTokens hparse
  refine ⟨fun stmts hstmts e he table notes hempty => ?_, ?_,
    fun stmts hstmts stmt hstmt table context notes => ?_⟩
  · have hnodup : e.ids.Nodup := (hstmts.ids_nodup hregular.ids_nodup).sublist
      (((parts_sublist_body stmts he).map Expr.id).trans (ids_partsOfBody_sublist stmts))
    refine ⟨fun hsane => ?_, fun r after hrun => Expr.accounted_of_check hnodup hempty hrun⟩
    obtain ⟨r, hperform, hr⟩ := e.check_judged table
    exact ⟨r.value, _, (congrFun hperform notes).trans
      (congrArg (Except.map _) (hr.fits.annotateAll_of_empty hsane hnodup hempty))⟩
  · obtain ⟨analysis, hanalyze, -⟩ := hregular.analyze
    obtain ⟨hi, hascending⟩ := Program.analyze_ascending hparse hanalyze
    refine ⟨analysis, hanalyze, hascending.pairs.imp fun hlt heq => ?_⟩
    exact absurd (heq ▸ hlt) (lt_irrefl _)
  · have hnodup := (hstmts.ids_nodup hregular.ids_nodup).sublist (Stmt.ids_sublist hstmt)
    exact ⟨(stmt.check_reviewed table context).recorded_eq hnodup notes,
      fun clause hclause hnone errors hrun => Clause.length_recorded_le hclause hnone hrun⟩

/-- A text with errors inside of index selectors, for their types, and for the target of an
assignment. -/
def misindexedText : List Char :=
  ("MODULE M; VAR a: ARRAY 2 OF INTEGER; BEGIN a[TRUE] := a[x]; a[1][y] := 0; a[0] := TRUE " ++
    "END M.").toList

def misindexedTable : SymbolTable := ⟨[("a", .var ⟨"a", none, .array 2 .integer⟩)], []⟩

theorem misindexed_recorded_once : ∃ p e after analysis, Program.parse misindexedText = .ok p ∧
    e ∈ partsOfBody p.body ∧ e.check misindexedTable ⟨.ofSize 0, []⟩ = .ok (.ok .integer, after) ∧
    recordedAll (checkIndexes misindexedTable e.selectors) ⟨.ofSize 0, []⟩ = .ok after.errors ∧
    after.errors.map (·.cause) = [.badIndex .boolean] ∧
    p.analyze = .ok analysis ∧ analysis.notes.errors.Nodup ∧
    analysis.notes.errors.map (·.cause) = [.badIndex .boolean, .undefinedName "x",
      .undefinedName "y", .notAnArray .integer, .cannotAssign .boolean .integer] := by
  have hfacts : ((Program.parse misindexedText).toOption.bind fun p =>
      (partsOfBody p.body)[1]?.bind fun e =>
        (e.check misindexedTable ⟨.ofSize 0, []⟩).toOption.bind fun r =>
          p.analyze.toOption.map fun analysis => (r.1.toOption, r.2.errors.map (·.cause),
            analysis.notes.errors.map (·.cause))) =
      some (some .integer, [.badIndex .boolean], [.badIndex .boolean, .undefinedName "x",
        .undefinedName "y", .notAnArray .integer, .cannotAssign .boolean .integer]) := by
    decide +kernel
  obtain ⟨p, hparse, hfacts⟩ := Option.bind_eq_some_iff.mp hfacts
  obtain ⟨e, he, hfacts⟩ := Option.bind_eq_some_iff.mp hfacts
  obtain ⟨⟨r, after⟩, hrun, hfacts⟩ := Option.bind_eq_some_iff.mp hfacts
  obtain ⟨analysis', hanalyze', hfacts⟩ := Option.map_eq_some_iff.mp hfacts
  obtain ⟨hr, herrors, hcauses⟩ := (Prod.mk.inj hfacts).imp_right Prod.mk.inj
  cases eq_ok_of_toOption hr
  have hparse := eq_ok_of_toOption hparse
  have hrun := eq_ok_of_toOption hrun
  have he := List.mem_of_getElem? he
  obtain ⟨haccount, ⟨analysis, hanalyze, hnodup⟩, -⟩ := diagnostics_recorded_once hparse
  cases hanalyze.symm.trans (eq_ok_of_toOption hanalyze')
  obtain ⟨-, more, hmore, herrors'⟩ := ((haccount p.body .main e he misindexedTable _
    (by simp)).2 _ after hrun).typed .integer rfl
  rw [List.nil_append] at herrors'
  exact ⟨p, e, after, analysis', hparse, he, hrun, herrors' ▸ hmore, herrors, hanalyze, hnodup,
    hcauses⟩

end Oberlet
