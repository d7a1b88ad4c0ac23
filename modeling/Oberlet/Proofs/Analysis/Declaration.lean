import Oberlet.Proofs.Analysis.Effect
import Oberlet.Proofs.Tree.Parsed

/-!
# The analysis of declarations follows the rules

Each declaration has an effect on the names of its frame.
-/

namespace Oberlet

open Declaring

/-! ## Variables -/

variable {outer : List Frame} {t : DataType} {table : SymbolTable} {symbol : Symbol} {frame : Names}
  {heading : Heading} {params : List VarDecl}

theorem defineAll_follows (symbols : List Symbol) (h : ∀ symbol ∈ symbols, symbol.Known) :
    Declaring.Follows outer (fun _ => 0) ⟨fun _ => (), fun names => symbols.foldl Names.bind names,
      fun names => (symbols.map (·.name)).Nodup ∧ ∀ symbol ∈ symbols, names symbol.name = none,
      fun _ _ => False⟩ (defineAll symbols) := by
  induction symbols with
  | nil =>
    refine (Declaring.Follows.pure ()).imp (fun _ => Nat.le_refl _) fun names _ => ?_
    exact ⟨by simp [Effect.pure], fun _ => rfl, fun _ => rfl, fun _ _ h => h⟩
  | cons symbol rest ih =>
    have hrest := ih fun other hother => h other (List.mem_cons_of_mem _ hother)
    refine ((Declaring.Follows.define (h symbol (by simp))).bind fun _ => hrest).imp
      (by simp) fun names _ => ⟨?_, fun _ => rfl, fun _ => rfl, fun _ _ h => h.elim⟩
    simp only [Effect.bind, Effect.define, Names.bind_eq_none, List.map_cons, List.nodup_cons,
      List.mem_map, not_exists, not_and, List.forall_mem_cons]
    constructor
    · rintro ⟨hname, hnodup, hnew⟩
      exact ⟨⟨fun other hother => (hnew other hother).1, hnodup⟩, hname,
        fun other hother => (hnew other hother).2⟩
    · rintro ⟨⟨hne, hnodup⟩, hname, hnew⟩
      exact ⟨hname, hnodup, fun other hother => ⟨hne other hother, hnew other hother⟩⟩

/-- Variables are bound, each declaration knowing its own. -/
def Effect.vars (decls : List VarDecl) : Effect Unit :=
  ⟨fun _ => (), fun names => ((variablesOf decls).map Symbol.var).foldl Names.bind names,
    fun names => ((variablesOf decls).map (·.name)).Nodup ∧
      ∀ v ∈ variablesOf decls, names v.name = none,
    fun _ finding => ∃ decl ∈ decls, finding = .symbols decl.node.id (decl.variables.map .var)⟩

theorem declareVars_follows (decls : List VarDecl) (hknown : ∀ decl ∈ decls, decl.type.Known) :
    Declaring.Follows outer (roomOf (idsOfVars decls)) (.vars decls) (declareVars decls) := by
  induction decls with
  | nil =>
    refine (Declaring.Follows.pure ()).imp (by simp) fun names _ => ?_
    exact ⟨by simp [Effect.pure, Effect.vars, variablesOf], fun _ => rfl, fun _ => rfl,
      by simp [Effect.vars]⟩
  | cons decl rest ih =>
    have hsymbols : ∀ symbol ∈ decl.variables.map Symbol.var, symbol.Known := by
      intro symbol hsymbol
      obtain ⟨v, hv, rfl⟩ := List.mem_map.mp hsymbol
      obtain ⟨name, -, rfl⟩ := List.mem_map.mp hv
      exact hknown decl (by simp)
    have hrest := ih fun other hother => hknown other (List.mem_cons_of_mem _ hother)
    refine (((defineAll_follows _ hsymbols).bind fun _ => .annotate decl.node _).bind
      fun _ => hrest).imp ?_ fun names _ => ⟨?_, fun _ => rfl, fun _ => ?_, ?_⟩
    · intro key
      have hids : idsOfVars (decl :: rest) = [decl.node.id] ++ idsOfVars rest := rfl
      rw [hids, roomOf_append]
      simp
    · have hvar : (fun v => (Symbol.var v).name) = Variable.name := rfl
      simp only [Effect.bind, Effect.annotate, Effect.vars, variablesOf, List.flatMap_cons,
        Names.foldl_bind_eq_none, List.map_append, List.nodup_append, List.forall_mem_append,
        List.forall_mem_map, List.map_map, Function.comp_def, hvar, and_true]
      constructor
      · rintro ⟨⟨hnames, hnew⟩, hnames', hnew'⟩
        refine ⟨⟨hnames, hnames', ?_⟩, hnew, fun v hv => (hnew' v hv).2⟩
        exact fun v hv w hw heq => (hnew' w hw).1 v hv heq.symm
      · rintro ⟨⟨hnames, hnames', hne⟩, hnew, hnew'⟩
        refine ⟨⟨hnames, hnew⟩, hnames', fun v hv => ⟨fun w hw heq => ?_, hnew' v hv⟩⟩
        exact hne w hw v hv heq.symm
    · simp [Effect.bind, Effect.annotate, Effect.vars, variablesOf]
    · rintro - finding ⟨other, hother, rfl⟩
      rcases List.mem_cons.mp hother with rfl | hother
      · exact .inl (.inr rfl)
      · exact .inr ⟨other, hother, rfl⟩

/-! ## Headings -/

theorem DataType.isArray_iff : t.isArray = true ↔ ¬ ∀ size elem, t ≠ .array size elem := by
  cases t <;> simp [isArray, elem?]

theorem Heading.checkResult_follows (heading : Heading) :
    Declaring.Follows outer (fun _ => 0) (.demand (∀ size elem, heading.result ≠ .array size elem))
      heading.checkResult :=
  .demand DataType.isArray_iff _

/-- A new subprogram is declared. -/
def Effect.forward (node : Node) (heading : Heading) : Effect Unit :=
  ⟨fun _ => (), fun names => names.bind (.proc heading.subprogram),
    fun names => names heading.name.name = none ∧ ∀ size elem, heading.result ≠ .array size elem,
    fun _ finding => finding = .symbols node.id [.proc heading.subprogram]⟩

theorem declareForward_eq (node : Node) (heading : Heading) (table : SymbolTable) (notes : Notes) :
    declareForward node heading ⟨table, notes⟩ =
      ((match table.lookupLocal heading.name.name with
        | some (.proc _) => pure ()
        | _ => heading.checkResult : Declaring Unit) >>= fun _ => do
          define (.proc heading.subprogram)
          annotate node [.proc heading.subprogram]) ⟨table, notes⟩ := by
  change (match table.lookupLocal heading.name.name with
    | some (.proc _) => do
      define (.proc heading.subprogram)
      annotate node [.proc heading.subprogram]
    | _ => do
      heading.checkResult
      define (.proc heading.subprogram)
      annotate node [.proc heading.subprogram] : Declaring Unit) ⟨table, notes⟩ = _
  cases table.lookupLocal heading.name.name with
  | none => rfl
  | some symbol => cases symbol <;> rfl

/-- A forward declaration binds its name, which must be free. -/
theorem declareForward_follows (node : Node) (heading : Heading) (hknown : heading.result.Known) :
    Declaring.Follows outer (only (node.id, false)) (.forward node heading)
      (declareForward node heading) := by
  intro table hsane houter
  have hsymbol : (Symbol.proc heading.subprogram).Known := hknown
  -- what is demanded first matters only if the name is new
  obtain ⟨p, hp, hfirst⟩ : ∃ p : Prop,
      (table.lookupLocal heading.name.name = none →
        (p ↔ ∀ size elem, heading.result ≠ .array size elem)) ∧
      Declaring.Follows outer (fun _ => 0) (.demand p)
        (match table.lookupLocal heading.name.name with
        | some (.proc _) => Pure.pure ()
        | _ => heading.checkResult) := by
    split
    · rename_i hname
      exact ⟨True, by simp [hname], Declaring.Follows.pure ()⟩
    · exact ⟨_, fun _ => Iff.rfl, heading.checkResult_follows⟩
  obtain ⟨table', r, h⟩ := (hfirst.bind fun _ => (Declaring.Follows.define hsymbol).bind
    fun _ => .annotate node [.proc heading.subprogram]) table hsane houter
  refine ⟨table', r, h.imp (fun notes => declareForward_eq node heading table notes) (by simp)
    ⟨⟨?_, ?_⟩, fun _ => rfl, fun _ => rfl, ?_⟩⟩
  · exact fun hgood => ⟨hgood.2.1, (hp hgood.2.1).mp hgood.1⟩
  · exact fun hgood => ⟨(hp hgood.1).mpr hgood.2, hgood.1, trivial⟩
  · exact fun _ finding hfinding => .inr (.inr hfinding)

/-- A definition can give a body to a subprogram: a new one, or the one that was declared. -/
inductive Heading.Completes (heading : Heading) (frame : Names) : Prop
  | define : frame heading.name.name = none →
      (∀ size elem, heading.result ≠ .array size elem) → Completes heading frame
  | complete {s : Subprogram} : frame heading.name.name = some (.proc s) → s.defined = false →
      s.params.map (·.type) = (variablesOf heading.params).map (·.type) →
      s.result = heading.result → Completes heading frame

/-- A subprogram is given a body. -/
def Effect.complete (heading : Heading) : Effect Subprogram :=
  ⟨heading.completed, fun names => names.bind (.proc (heading.completed names)),
    heading.Completes, fun _ _ => False⟩

theorem Effect.Refines.of_bad {α : Type} {e e' : Effect α} {names : Names} (h : ¬ e.good names)
    (h' : ¬ e'.good names) : e.Refines e' names :=
  ⟨iff_of_false h h', fun hgood => (h hgood).elim, fun hgood => (h hgood).elim,
    fun hgood => (h hgood).elim⟩

theorem declareDefinition_eq (heading : Heading) (table : SymbolTable) (notes : Notes) :
    declareDefinition heading ⟨table, notes⟩ =
      (match table.lookupLocal heading.name.name with
        | some (.proc declared) =>
          if declared.defined then do
            record ⟨.alreadyDefined heading.name.name, some heading.name.span, declared.span⟩
            return declared
          else do
            modify fun a => { a with
              table := a.table.rebind heading.name.name (.proc { declared with defined := true }) }
            if !declared.sameSignature heading.subprogram then
              report heading.name.span (.signatureMismatch heading.name.name)
            return { declared with defined := true }
        | some _ => do
          heading.checkResult
          define (.proc heading.subprogram)
          return heading.subprogram
        | none => do
          heading.checkResult
          define (.proc { heading.subprogram with defined := true })
          return { heading.subprogram with defined := true } : Declaring Subprogram)
      ⟨table, notes⟩ := by
  unfold declareDefinition
  change (match table.lookupLocal heading.name.name with
    | some (.proc declared) => _
    | some _ => _
    | none => _ : Declaring Subprogram) _ = _
  cases table.lookupLocal heading.name.name with
  | none => rfl
  | some symbol =>
    cases symbol with
    | proc declared =>
      by_cases hdefined : declared.defined = true
      · simp only [if_pos hdefined]
      · simp only [if_neg hdefined, Subprogram.define]
        rfl
    | mod _ _ => rfl
    | var _ => rfl

theorem declareDefinition_new (hsane : table.Sane) (hknown : heading.result.Known)
    (hname : table.current.names heading.name.name = none) :
    ∃ table' r, Declaring.Outcome (fun _ => 0) (.complete heading) (declareDefinition heading)
      table table' r := by
  have hsymbol : (Symbol.proc { heading.subprogram with defined := true }).Known := hknown
  obtain ⟨table', r, h⟩ := (heading.checkResult_follows.bind fun _ =>
    (Declaring.Follows.define hsymbol).bind
      fun _ => .pure { heading.subprogram with defined := true }) table hsane rfl
  have hcompleted : heading.completed table.current.names =
      { heading.subprogram with defined := true } := by rw [Heading.completed, hname]
  refine ⟨table', r, h.imp (fun notes => ?_) (by simp)
    ⟨⟨?_, ?_⟩, fun _ => hcompleted.symm, fun _ => ?_, fun _ _ h => h.elim⟩⟩
  · have hlocal : table.lookupLocal heading.name.name = none := hname
    rw [declareDefinition_eq, hlocal]
  · exact fun hgood => .define hname hgood.1
  · rintro (⟨-, hresult⟩ | ⟨hsome, -⟩)
    · exact ⟨hresult, hname, trivial⟩
    · rw [hname] at hsome
      cases hsome
  · simp [Effect.bind, Effect.pure, Effect.complete, Effect.define, Effect.demand, hcompleted]

theorem rebind_outcome {name : String} (hsane : table.Sane)
    (hbound : (table.current.names name).isSome) (hname : symbol.name = name)
    (hsymbol : symbol.Known) :
    Declaring.Outcome (fun _ => 0) ⟨fun _ => (), fun names => names.bind symbol, fun _ => True,
        fun _ _ => False⟩
      (modify fun a => { a with table := a.table.rebind name symbol } : Declaring Unit) table
      ⟨SymbolTable.rebindIn name symbol table.current, table.outer⟩ ⟨(), [], []⟩ := by
  refine ⟨?_, ?_, rfl, .nil, by simp, fun _ => rfl, ?_, fun _ _ h => h.elim⟩
  · intro notes
    rw [Report.perform_nil, ← SymbolTable.rebind_eq hbound]
    rfl
  · intro frame hframe
    rcases List.mem_cons.mp hframe with rfl | hframe
    · exact (hsane table.current (by simp)).rebindIn hname hsymbol
    · exact hsane frame (List.mem_cons_of_mem _ hframe)
  · exact fun _ => Frame.names_rebindIn hname hbound

theorem declareDefinition_declared {s : Subprogram} (hsane : table.Sane)
    (hname : table.current.names heading.name.name = some (.proc s))
    (hdefined : s.defined = false) :
    ∃ table' r, Declaring.Outcome (fun _ => 0) (.complete heading) (declareDefinition heading)
      table table' r := by
  obtain ⟨hkey, hs⟩ := hsane table.current (by simp) _ _ (mem_of_lookup_eq_some hname)
  have hkey' : (Symbol.proc { s with defined := true }).name = heading.name.name := hkey
  have hrebind := rebind_outcome hsane (by rw [hname]; rfl) hkey' hs
  have hsame : (!s.sameSignature heading.subprogram) = true ↔
      ¬ (s.params.map (·.type) = (variablesOf heading.params).map (·.type) ∧
        s.result = heading.result) := by
    rw [Bool.not_eq_true', ← Bool.not_eq_true, Subprogram.sameSignature_iff]
    rfl
  obtain ⟨table', r, h⟩ := ((Declaring.Follows.demand hsame
    (.on heading.name.span (.signatureMismatch heading.name.name))).bind
    fun _ => .pure { s with defined := true }) _ hrebind.sane rfl
  have hcompleted : heading.completed table.current.names = { s with defined := true } := by
    rw [Heading.completed, hname]
  refine ⟨table', _, (hrebind.bind (f := fun _ => _) (k := fun _ => _) h).imp
    (fun notes => ?_) (by simp) ⟨⟨?_, ?_⟩, fun _ => hcompleted.symm, fun _ => ?_,
    fun _ _ h => h.elim⟩⟩
  · have hlocal : table.lookupLocal heading.name.name = some (.proc s) := hname
    rw [declareDefinition_eq, hlocal]
    simp only [hdefined, Bool.false_eq_true, if_false]
    by_cases hsame : (!s.sameSignature heading.subprogram) = true
    · simp only [if_pos hsame]
      rfl
    · simp only [if_neg hsame]
      rfl
  · exact fun hgood => .complete hname hdefined hgood.2.1.1 hgood.2.1.2
  · rintro (⟨hnone, -⟩ | ⟨hsome, -, hparams, hresult⟩)
    · rw [hname] at hnone
      cases hnone
    · rw [hname] at hsome
      cases hsome
      exact ⟨trivial, ⟨hparams, hresult⟩, trivial⟩
  · simp [Effect.bind, Effect.pure, Effect.complete, Effect.demand, hcompleted]

theorem declareDefinition_taken (hsane : table.Sane) (hknown : heading.result.Known)
    (hname : table.current.names heading.name.name = some symbol)
    (hsymbol : ∀ s, symbol = .proc s → s.defined = true) :
    ∃ table' r, Declaring.Outcome (fun _ => 0) (.complete heading) (declareDefinition heading)
      table table' r := by
  have hbad : ¬ (Effect.complete heading).good table.current.names := by
    rintro (⟨hnone, -⟩ | ⟨hproc, hfree, -⟩)
    · rw [hname] at hnone
      cases hnone
    · rw [hname] at hproc
      cases hproc
      rw [hsymbol _ rfl] at hfree
      cases hfree
  have hlocal : table.lookupLocal heading.name.name = some symbol := hname
  have hnew : (Symbol.proc heading.subprogram).Known := hknown
  obtain ⟨table', r, h⟩ := (heading.checkResult_follows.bind fun _ =>
    (Declaring.Follows.define hnew).bind fun _ => .pure heading.subprogram) table hsane rfl
  have hbad' : ¬ ((Effect.demand (∀ size elem, heading.result ≠ .array size elem)).bind fun _ =>
      (Effect.define (.proc heading.subprogram)).bind fun _ => .pure heading.subprogram).good
      table.current.names := by
    rintro ⟨-, hnone, -⟩
    have hnone : table.current.names heading.name.name = none := hnone
    rw [hname] at hnone
    cases hnone
  cases symbol with
  | proc s =>
    obtain ⟨table', r, h⟩ := ((Declaring.Follows.record ⟨.alreadyDefined heading.name.name,
      some heading.name.span, s.span⟩).bind fun _ => .pure s) table hsane rfl
    refine ⟨table', r, h.imp (fun notes => ?_) (by simp) (.of_bad (fun h => h.1) hbad)⟩
    rw [declareDefinition_eq, hlocal]
    simp only [if_pos (hsymbol s rfl)]
  | mod name span =>
    refine ⟨table', r, h.imp (fun notes => ?_) (by simp) (.of_bad hbad' hbad)⟩
    rw [declareDefinition_eq, hlocal]
  | var v =>
    refine ⟨table', r, h.imp (fun notes => ?_) (by simp) (.of_bad hbad' hbad)⟩
    rw [declareDefinition_eq, hlocal]

/-- A definition completes what its name is bound to, or binds it. -/
theorem declareDefinition_follows (heading : Heading) (hknown : heading.result.Known) :
    Declaring.Follows outer (fun _ => 0) (.complete heading) (declareDefinition heading) := by
  intro table hsane _
  cases hname : table.current.names heading.name.name with
  | none => exact declareDefinition_new hsane hknown hname
  | some symbol =>
    by_cases hdeclared : ∃ s, symbol = .proc s ∧ s.defined = false
    · obtain ⟨s, rfl, hdefined⟩ := hdeclared
      exact declareDefinition_declared hsane hname hdefined
    · refine declareDefinition_taken hsane hknown hname fun s hs => ?_
      by_contra hdefined
      exact hdeclared ⟨s, hs, by simpa using hdefined⟩

/-! ## Subprograms -/

/-- The declarations of variables in a definition. -/
def SubprogramDecl.groups : SubprogramDecl → List VarDecl
  | .forward _ _ => []
  | .definition _ heading vars _ => heading.params ++ vars

/-- What the rules say about the nodes of a subprogram that is declared up to the names of `frame`.
-/
inductive SubprogramDecl.Noted (outer frame : Names) (decl : SubprogramDecl) : Finding → Prop
  | symbol {s : Subprogram} : frame decl.heading.name.name = some (.proc s) →
      Noted outer frame decl (.symbols decl.node.id [.proc s])
  | vars {group : VarDecl} : group ∈ decl.groups →
      Noted outer frame decl (.symbols group.node.id (group.variables.map .var))
  | body {body : Body} {finding : Finding} : body ∈ decl.bodies outer frame →
      NotedIn body.names (partsOfBody body.stmts) finding → Noted outer frame decl finding

/-- A subprogram is declared, and its body is analysed if it has one. -/
def Effect.subprogram (outer : Names) (decl : SubprogramDecl) : Effect Unit :=
  ⟨fun _ => (), fun names => names.declare decl,
    fun names => decl.Allowed names ∧
      ∀ body ∈ decl.bodies outer (names.declare decl), body.WellTyped,
    fun names => decl.Noted outer (names.declare decl)⟩

theorem DataType.Proper.known (h : t.Proper) : t.Known := by
  induction t with
  | array size elem ih => exact ih h.2
  | unknown => exact h
  | _ => trivial

theorem DataType.ProperResult.known (h : t.ProperResult) : t.Known := by
  rcases h with rfl | h
  · trivial
  · exact h.known

theorem SubprogramDecl.allowed_definition_iff {node : Node} {vars : List VarDecl}
    {body : List Stmt} : (SubprogramDecl.definition node heading vars body).Allowed frame ↔
      heading.Completes frame ∧ ((variablesOf (heading.params ++ vars)).map (·.name)).Nodup := by
  constructor
  · rintro (_ | ⟨hname, hresult, hnodup⟩ | ⟨hname, hdefined, hparams, hresult, hnodup⟩)
    · exact ⟨.define hname hresult, hnodup⟩
    · exact ⟨.complete hname hdefined hparams hresult, hnodup⟩
  · rintro ⟨⟨hname, hresult⟩ | ⟨hname, hdefined, hparams, hresult⟩, hnodup⟩
    · exact .define hname hresult hnodup
    · exact .complete hname hdefined hparams hresult hnodup

theorem Heading.Completes.result {heading : Heading} (h : heading.Completes frame) :
    (heading.completed frame).result = heading.result := by
  rcases h with ⟨hname, -⟩ | ⟨hname, -, -, hresult⟩
  · rw [completed, hname]
    rfl
  · rw [completed, hname]
    exact hresult

/-- The statements of a body are analysed. -/
def Effect.stmts (around : Names) (result : DataType) (body : List Stmt) : Effect Unit :=
  ⟨fun _ => (), fun names => names,
    fun names => ∀ stmt ∈ body, stmt.WellTyped (names.within around) result false,
    fun names => NotedIn (names.within around) (partsOfBody body)⟩

theorem body_follows (name : String) (result : DataType) (body : List Stmt) :
    Declaring.Follows outer (roomOf (idsOfBody body)) (.stmts (namesOf outer) result body)
      (Declaring.body fun table => checkStmts table ⟨name, result, false⟩ body) := by
  refine Declaring.Follows.body fun table hsane houter => ?_
  obtain ⟨rs, -, hperform, hr⟩ := checkStmts_reviewed table ⟨name, result, false⟩ body
  rw [SymbolTable.lookup_eq, houter] at hr
  exact ⟨_, hperform, hr.fits.sure hsane, hr.good, hr.entered⟩

theorem Effect.vars_good_empty {vars : List VarDecl} :
    (Effect.vars params).good .empty ∧ (Effect.vars vars).good ((Effect.vars params).next .empty) ↔
      ((variablesOf (params ++ vars)).map (·.name)).Nodup := by
  have hvar (v : Variable) : (Symbol.var v).name = v.name := rfl
  simp only [Effect.vars, variablesOf, List.flatMap_append, List.map_append, List.nodup_append,
    Names.foldl_bind_eq_none, Names.empty, List.forall_mem_map, hvar]
  constructor
  · rintro ⟨⟨hparams, -⟩, hvars, hnew⟩
    exact ⟨hparams, hvars, fun v hv w hw heq => (hnew w hw).1 v hv heq.symm⟩
  · rintro ⟨hparams, hvars, hne⟩
    refine ⟨⟨hparams, fun _ _ => trivial⟩, hvars, fun v hv => ⟨fun w hw heq => ?_, trivial⟩⟩
    exact hne w hw v hv heq.symm

theorem Effect.vars_next_empty {vars : List VarDecl} :
    (Effect.vars vars).next ((Effect.vars params).next .empty) = .ofVars (params ++ vars) := by
  simp [Effect.vars, Names.ofVars, Names.ofSymbols, variablesOf]

/-- Of the analysis of a body in its frame nothing is left but what was found. -/
theorem inside_follows (heading : Heading) (vars : List VarDecl) (body : List Stmt) (name : String)
    (result : DataType) (hknown : ∀ decl ∈ heading.params ++ vars, decl.type.Known) :
    Declaring.Follows outer
      (roomOf (idsOfVars heading.params ++ (idsOfVars vars ++ idsOfBody body)))
      ⟨fun _ => (), fun names => names,
        fun names => ((variablesOf (heading.params ++ vars)).map (·.name)).Nodup ∧
          ∀ stmt ∈ body, stmt.WellTyped
            ((Names.ofVars (heading.params ++ vars)).within (names.within (namesOf outer)))
              result false,
        fun names finding => (∃ group ∈ heading.params ++ vars,
            finding = .symbols group.node.id (group.variables.map .var)) ∨
          NotedIn ((Names.ofVars (heading.params ++ vars)).within (names.within (namesOf outer)))
            (partsOfBody body) finding⟩
      (inFrame do
        declareVars heading.params
        declareVars vars
        Declaring.body fun table => checkStmts table ⟨name, result, false⟩ body) := by
  have hframe (frame : Frame) : Declaring.Follows (frame :: outer)
      (fun key => roomOf (idsOfVars heading.params) key +
        (roomOf (idsOfVars vars) key + roomOf (idsOfBody body) key))
      ((Effect.vars heading.params).bind fun _ => (Effect.vars vars).bind fun _ =>
        .stmts (frame.names.within (namesOf outer)) result body) (do
        declareVars heading.params
        declareVars vars
        Declaring.body fun table => checkStmts table ⟨name, result, false⟩ body) := by
    rw [← namesOf_cons]
    exact (declareVars_follows _ fun decl h => hknown decl (List.mem_append_left _ h)).bind
      fun _ => (declareVars_follows _ fun decl h => hknown decl (List.mem_append_right _ h)).bind
        fun _ => body_follows name result body
  refine (Declaring.Follows.inFrame (e := fun names => (Effect.vars heading.params).bind fun _ =>
    (Effect.vars vars).bind fun _ => .stmts (names.within (namesOf outer)) result body)
    hframe).imp (by simp) fun names _ => ⟨?_, fun _ => rfl, fun _ => rfl, ?_⟩
  · simp only [Effect.bind, ← Effect.vars_next_empty, ← Effect.vars_good_empty, and_assoc]
    rfl
  · rintro - finding (⟨group, hgroup, rfl⟩ | hfinding)
    · rcases List.mem_append.mp hgroup with hgroup | hgroup
      · exact .inl ⟨group, hgroup, rfl⟩
      · exact .inr (.inl ⟨group, hgroup, rfl⟩)
    · refine .inr (.inr ?_)
      rw [← Effect.vars_next_empty] at hfinding
      exact hfinding

/-- The analysis of a subprogram has the effect of its declaration. -/
theorem SubprogramDecl.declare_follows (decl : SubprogramDecl) (hproper : decl.Proper) :
    Declaring.Follows outer (roomOf decl.ids) (.subprogram (namesOf outer) decl) decl.declare := by
  cases decl with
  | forward node heading =>
    refine (declareForward_follows node heading hproper.result.known).imp ?_
      fun names hkeyed => ⟨?_, fun _ => rfl, fun _ => rfl, ?_⟩
    · intro key
      have := only_le_roomOf node.id false key
      simp only [SubprogramDecl.ids, roomOf_append]
      omega
    · constructor
      · rintro ⟨hname, hresult⟩
        exact ⟨.forward hname hresult, by simp [SubprogramDecl.bodies]⟩
      · rintro ⟨⟨hname, hresult⟩, -⟩
        exact ⟨hname, hresult⟩
    · rintro ⟨hname, hresult⟩ finding (hs | hgroup | ⟨hbody, -⟩)
      · rw [Names.declare_name (.forward hname hresult) hkeyed] at hs
        cases hs
        rfl
      · simp [SubprogramDecl.groups] at hgroup
      · simp [SubprogramDecl.bodies] at hbody
  | definition node heading vars body =>
    obtain ⟨hheading, hvars, -⟩ := hproper
    have hknown : ∀ decl ∈ heading.params ++ vars, decl.type.Known := by
      intro decl hdecl
      rcases List.mem_append.mp hdecl with hdecl | hdecl
      · exact (hheading.params decl hdecl).known
      · exact (hvars decl hdecl).known
    refine ((declareDefinition_follows heading hheading.result.known).bind fun s =>
      (Declaring.Follows.annotate node [.proc s]).bind
        fun _ => inside_follows heading vars body s.name
        s.result hknown).imp ?_ fun names hkeyed => ⟨?_, fun _ => rfl, fun _ => rfl, ?_⟩
    · intro key
      have := only_le_roomOf node.id false key
      simp only [SubprogramDecl.ids, Heading.ids, roomOf_append]
      omega
    · simp only [Effect.subprogram, SubprogramDecl.allowed_definition_iff, Effect.bind,
        Effect.complete, Effect.annotate, true_and, and_assoc]
      refine and_congr_right fun hcompletes => and_congr_right fun _ => ?_
      simp [SubprogramDecl.bodies, Body.WellTyped, hcompletes.result, Names.declare,
        SubprogramDecl.subprogram]
    · rintro ⟨hcompletes, -, hnodup, -⟩ finding (hs | hgroup | ⟨hbody, hnoted⟩)
      · have hallowed : (SubprogramDecl.definition node heading vars body).Allowed names :=
          SubprogramDecl.allowed_definition_iff.mpr ⟨hcompletes, hnodup⟩
        rw [Names.declare_name hallowed hkeyed] at hs
        cases hs
        exact .inr (.inl rfl)
      · exact .inr (.inr (.inl ⟨_, hgroup, rfl⟩))
      · simp only [SubprogramDecl.bodies, List.mem_singleton] at hbody
        subst hbody
        exact .inr (.inr (.inr hnoted))

/-- What the rules say about the nodes of subprograms that are declared behind the names of
`frame`. -/
def NotedInSubprograms (outer frame : Names) : List SubprogramDecl → Finding → Prop
  | [], _ => False
  | decl :: rest, finding => decl.Noted outer (frame.declare decl) finding ∨
      NotedInSubprograms outer (frame.declare decl) rest finding

def Effect.subprograms (outer : Names) (decls : List SubprogramDecl) : Effect Unit :=
  ⟨fun _ => (), fun names => decls.foldl Names.declare names,
    fun names => Declarable names decls ∧ ∀ body ∈ bodiesOf outer names decls, body.WellTyped,
    fun names => NotedInSubprograms outer names decls⟩

/-- Subprograms are analysed one after the other. -/
theorem declareSubprograms_follows (decls : List SubprogramDecl)
    (hproper : ∀ decl ∈ decls, decl.Proper) :
    Declaring.Follows outer (roomOf (idsOfSubprograms decls)) (.subprograms (namesOf outer) decls)
      (declareSubprograms decls) := by
  induction decls with
  | nil =>
    refine (Declaring.Follows.pure ()).imp (by simp)
      fun names _ => ⟨?_, fun _ => rfl, fun _ => rfl, ?_⟩
    · exact ⟨fun _ => ⟨.nil, by simp [bodiesOf]⟩, fun _ => trivial⟩
    · exact fun _ _ h => h
  | cons decl rest ih =>
    refine ((decl.declare_follows (hproper decl (by simp))).bind fun _ =>
      ih fun other h => hproper other (List.mem_cons_of_mem _ h)).imp ?_
      fun names _ => ⟨?_, fun _ => rfl, fun _ => rfl, fun _ _ h => h⟩
    · exact fun key => Nat.le_of_eq (roomOf_append decl.ids (idsOfSubprograms rest) key).symm
    · simp only [Effect.bind, Effect.subprogram, Effect.subprograms, bodiesOf,
        List.forall_mem_append]
      constructor
      · rintro ⟨⟨hallowed, hbody⟩, hrest, hbodies⟩
        exact ⟨.cons hallowed hrest, hbody, hbodies⟩
      · rintro ⟨⟨⟩ | ⟨hallowed, hrest⟩, hbody, hbodies⟩
        exact ⟨⟨hallowed, hbody⟩, hrest, hbodies⟩

theorem Program.of_analyze_eq_ok {p : Program} {a : Analysis} (h : p.analyze = .ok a) :
    p.declare ⟨.initial, ⟨.ofSize p.nodeCount, []⟩⟩ = .ok ((), a) := by
  change Except.bind (p.declare ⟨.initial, ⟨.ofSize p.nodeCount, []⟩⟩) (fun r => .ok r.2) = _ at h
  obtain ⟨r, hrun, ⟨⟩⟩ := bind_eq_ok.mp h
  exact hrun

end Oberlet
