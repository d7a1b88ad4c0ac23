import Oberlet.Proofs.Analysis.Program

/-!
# The analysis decides the typing rules
-/

namespace Oberlet

variable {names : Names} {t : DataType}

/-- The rules give an expression of a body a type. The call that is a statement has the type of its
result, if only `void`. -/
def Expr.Carries (names : Names) (e : Expr) (t : DataType) : Prop :=
  HasType names e t ∨ ∃ c, e = .call c ∧ c.HasResult names t

theorem Expr.Carries.hasType {e : Expr} (h : e.Carries names t)
    (ht : t ≠ .void) : HasType names e t := by
  rcases h with h | ⟨c, rfl, h⟩
  · exact h
  · cases h with
    | intro hname hlength hargs => exact .call hname hlength hargs ht

theorem Expr.Carries.hasResult {c : Call Expr} (h : (Expr.call c).Carries names t) :
    c.HasResult names t := by
  rcases h with h | ⟨_, ⟨⟩, h⟩
  · exact (hasType_call_iff.mp h).1
  · exact h

theorem forall_mem_of_zip {α β : Type} {args : List α} {params : List β} {P : α → Prop}
    (hlength : args.length = params.length) (h : ∀ pair ∈ args.zip params, P pair.1) :
    ∀ arg ∈ args, P arg := by
  rw [← List.map_fst_zip (Nat.le_of_eq hlength)]
  exact List.forall_mem_map.mpr h

/-- Every part of a typed expression has a type. -/
theorem HasType.part {e : Expr} (h : HasType names e t) :
    ∀ part ∈ e.parts, ∃ u, HasType names part u := by
  induction h with
  | literal => exact List.forall_mem_singleton.mpr ⟨_, .literal⟩
  | paren h ih => exact (Expr.forall_parts rfl).mpr ⟨ih, _, .paren h⟩
  | not h ih => exact (Expr.forall_parts rfl).mpr ⟨ih, _, .not h⟩
  | designator hname hselectors helem ih =>
    exact (Expr.forall_parts rfl).mpr
      ⟨forall_partsOfAll.mpr ih, _, .designator hname hselectors helem⟩
  | call hname hlength hargs hvoid ih =>
    exact (Expr.forall_parts rfl).mpr ⟨forall_partsOfAll.mpr (forall_mem_of_zip hlength ih), _,
      .call hname hlength hargs hvoid⟩
  | comparison hleft hright hop ihl ihr =>
    exact (Expr.forall_parts rfl).mpr
      ⟨List.forall_mem_append.mpr ⟨ihl, ihr⟩, _, .comparison hleft hright hop⟩
  | sum hfirst hsign hops hoperands ih ihs =>
    exact (Expr.forall_parts rfl).mpr ⟨List.forall_mem_append.mpr ⟨ih, forall_partsOfChain.mpr ihs⟩,
      _, .sum hfirst hsign hops hoperands⟩
  | product hfirst hops hoperands ih ihs =>
    exact (Expr.forall_parts rfl).mpr ⟨List.forall_mem_append.mpr ⟨ih, forall_partsOfChain.mpr ihs⟩,
      _, .product hfirst hops hoperands⟩

theorem Call.HasResult.part {c : Call Expr} (h : c.HasResult names t) :
    ∀ part ∈ (Expr.call c).parts, ∃ u, part.Carries names u := by
  cases h with
  | intro hname hlength hargs =>
    refine (Expr.forall_parts rfl).mpr ⟨forall_partsOfAll.mpr (forall_mem_of_zip hlength ?_), _,
      .inr ⟨_, rfl, .intro hname hlength hargs⟩⟩
    exact fun pair hpair part hpart => ((hargs pair hpair).part part hpart).imp fun _ => .inl

/-- Every expression of a well-typed statement carries a type. -/
theorem Stmt.WellTyped.part {result : DataType} {inLoop : Bool} {stmt : Stmt}
    (h : stmt.WellTyped names result inLoop) : ∀ part ∈ stmt.parts, ∃ t, part.Carries names t := by
  have hexpr {e : Expr} {t : DataType} (he : HasType names e t) (part) (hpart : part ∈ e.parts) :
      ∃ u, part.Carries names u := (he.part part hpart).imp fun _ => .inl
  induction h with
  | assign htarget hvalue => exact List.forall_mem_append.mpr ⟨hexpr htarget, hexpr hvalue⟩
  | call hc => exact hc.part
  | @ite _ _ branches otherwise hconds _ _ ihs ih =>
    have hbranches : ∀ part ∈ partsOfBranches branches, ∃ t, part.Carries names t :=
      forall_partsOfBranches.mpr fun branch hbranch =>
        ⟨hexpr (hconds branch hbranch), forall_partsOfBody.mpr (ihs branch hbranch)⟩
    cases otherwise with
    | none => exact hbranches
    | some body =>
      exact List.forall_mem_append.mpr ⟨hbranches, forall_partsOfBody.mpr (ih body rfl)⟩
  | loop hcond _ ih => exact List.forall_mem_append.mpr ⟨hexpr hcond, forall_partsOfBody.mpr ih⟩
  | exit => simp [Stmt.parts]
  | ret => simp [Stmt.parts]
  | retValue hvalue => exact hexpr hvalue

/-- An expression of a module is annotated with exactly what the rules say about it: its type, and
what its name stands for. -/
structure Expr.AnnotatedBy (e : Expr) (p : Program) (names : Names) (a : Annotations) : Prop where
  typed : ∃ t, e.Carries names t
  type : ∀ t, a.typeOf e.id = .ok t ↔ e.Carries names t
  var : ∀ d, e = .designator d → ∃ v, names d.name.name = some (.var v) ∧
    a.symbolOf Symbol.var? d.node.id = .ok v
  proc : ∀ c, e = .call c → ∃ s, names c.callee.name = some (.proc s) ∧
    a.symbolOf Symbol.proc? c.node.id = .ok (p.finished s)

/-- In a well-formed module each part of a body is annotated by the rules. -/
theorem Program.Annotated.annotatedBy {p : Program} {a : Annotations} (ha : p.Annotated a)
    {body : Body} (hbody : body ∈ p.bodies) (hwell : body.WellTyped) {part : Expr}
    (hpart : part ∈ partsOfBody body.stmts) : part.AnnotatedBy p body.names a := by
  have hholds := ha.exprs body hbody part hpart
  have htyped : ∃ t, part.Carries body.names t :=
    forall_partsOfBody.mpr (fun stmt hstmt => (hwell stmt hstmt).part) part hpart
  have htype (t : DataType) (ht : part.Carries body.names t) : a.typeOf part.id = .ok t := by
    rcases ht with ht | ⟨c, rfl, ⟨hname, -⟩⟩
    · exact Annotations.typeOf_of_holds (hholds _ (.type ht))
    · exact Annotations.typeOf_of_holds (hholds _ (.result hname))
  refine ⟨htyped, fun t => ⟨fun ht => ?_, htype t⟩, ?_, ?_⟩
  · obtain ⟨u, hu⟩ := htyped
    rw [htype u hu] at ht
    cases ht
    exact hu
  · rintro d rfl
    obtain ⟨t, ht | ⟨c, ⟨⟩, -⟩⟩ := htyped
    cases ht with
    | designator hname =>
      exact ⟨_, hname, Annotations.symbolOf_of_holds (hholds _ (.var hname)) rfl⟩
  · rintro c rfl
    obtain ⟨s, hname⟩ : ∃ s, body.names c.callee.name = some (.proc s) := by
      obtain ⟨t, ht | ⟨_, ⟨⟩, ⟨hname, -⟩⟩⟩ := htyped
      · cases ht with
        | call hname => exact ⟨_, hname⟩
      · exact ⟨_, hname⟩
    exact ⟨s, hname, Annotations.symbolOf_of_holds (hholds _ (.proc hname)) rfl⟩

/-- The analysis of a module that was read never fails. It finds nothing wrong exactly if the module
is well formed, and then every expression is annotated with exactly what the rules say about it. -/
theorem analysis_decides_typing {stream : TokenStream} {p : Program}
    (h : Program.ofTokens stream = .ok p) :
    ∃ analysis, p.analyze = .ok analysis ∧ (analysis.notes.errors = [] ↔ p.WellFormed) ∧
      (analysis.notes.errors = [] → ∀ body ∈ p.bodies, ∀ part ∈ partsOfBody body.stmts,
        part.AnnotatedBy p body.names analysis.notes.annotations) := by
  obtain ⟨analysis, hanalyze, hiff, hannotated⟩ := (Program.regular_of_ofTokens h).analyze
  refine ⟨analysis, hanalyze, hiff, fun herrors body hbody part hpart => ?_⟩
  exact (hannotated herrors).annotatedBy hbody ((hiff.mp herrors).bodies body hbody) hpart

/-- The text of a module with a subprogram, an array and a loop. -/
def countingText : List Char :=
  ("MODULE M; VAR a: ARRAY 3 OF INTEGER; " ++
    "PROCEDURE f(n: INTEGER): INTEGER; BEGIN RETURN n + 1 END f; " ++
    "BEGIN WHILE a[0] < 3 DO a[0] := f(a[1]) END END M.").toList

theorem countingText_accepted : ∃ p analysis, Program.parse countingText = .ok p ∧
    p.analyze = .ok analysis ∧ analysis.notes.errors = [] := by
  have haccepted : ((Program.parse countingText).toOption.bind fun p =>
      p.analyze.toOption.map (·.notes.errors.isEmpty)) = some true := by decide +kernel
  obtain ⟨p, hparse, haccepted⟩ := Option.bind_eq_some_iff.mp haccepted
  obtain ⟨analysis, hanalyze, haccepted⟩ := Option.map_eq_some_iff.mp haccepted
  exact ⟨p, analysis, eq_ok_of_toOption hparse, eq_ok_of_toOption hanalyze,
    List.isEmpty_iff.mp haccepted⟩

/-- The module of the text is accepted, and so it is well formed. -/
theorem analysis_accepts_counting : ∃ p analysis, Program.parse countingText = .ok p ∧
    p.analyze = .ok analysis ∧ p.WellFormed ∧ ∀ body ∈ p.bodies, ∀ part ∈ partsOfBody body.stmts,
      part.AnnotatedBy p body.names analysis.notes.annotations := by
  obtain ⟨p, analysis, hparse, hanalyze, haccepted⟩ := countingText_accepted
  obtain ⟨_, hanalyze', hiff, hannotated⟩ := analysis_decides_typing hparse
  cases hanalyze.symm.trans hanalyze'
  exact ⟨p, analysis, hparse, hanalyze, hiff.mp haccepted, hannotated haccepted⟩

end Oberlet
