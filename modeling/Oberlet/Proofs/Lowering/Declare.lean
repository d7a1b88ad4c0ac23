import Oberlet.Proofs.Lowering.Stmt

/-!
# Declaring what a module consists of
-/

namespace Oberlet

open Llvm Lowering Lower

/-- A subprogram is bound to a function with its name and types. -/
def Callable (moduleName : String) (scope : Scope) (tables : Tables) (sp : Subprogram) : Prop :=
  ∃ index callee, List.lookup sp.name scope = some (.function index) ∧
    tables.signatures[index]? = some callee ∧ callee.name = functionName moduleName sp.name ∧
    sp.result.target = .ok callee.result ∧ TargetTypes sp.params callee.params ∧
    callee.variadic = false

theorem Callable.mono {moduleName : String} {scope : Scope} {tables tables' : Tables}
    {sp : Subprogram} (h : Callable moduleName scope tables sp) (hle : tables.Le tables') :
    Callable moduleName scope tables' sp := by
  obtain ⟨index, callee, hlookup, hcallee, htypes⟩ := h
  exact ⟨index, callee, hlookup, hle.getElem?_signatures hcallee, htypes⟩

/-- What a function without blocks is there for: it is one of the host, or it stands for a
subprogram of the module, with the parameter names of the first heading of that. -/
inductive Program.Outlines (p : Program) (f : Function) : Prop
  | host (r : Runtime) : f = r.function → p.Outlines f
  | subprogram {name : String} {sp : Subprogram} : p.frameNames name = some (.proc sp) →
      f.name = functionName p.name.name name → f.params.map (·.name) = sp.params.map (·.name) →
      p.Outlines f

/-- A scope holds the variables of a module, and of its subprograms those in `front`, each with a
function of its own. No function has blocks yet or takes more arguments than it has parameters, and
each stands for a subprogram. The globals are those of the variables. -/
structure Declares (p : Program) (front : List SubprogramDecl) (scope : Scope) (s : State) :
    Prop where
  vars : ∀ v ∈ variablesOf p.vars, ∃ b, List.lookup v.name scope = some b ∧ GlobalAt p.name.name v b
  procs : ∀ decl ∈ front, ∀ sp, p.frameNames decl.heading.name.name = some (.proc sp) →
    Callable p.name.name scope s.tables sp
  only : ∀ name b, List.lookup name scope = some b →
    (∃ v ∈ variablesOf p.vars, v.name = name) ∨ ∃ decl ∈ front, decl.heading.name.name = name
  bound : ∀ name index, List.lookup name scope = some (.function index) → index < s.functions.length
  injective : ∀ name name' index, List.lookup name scope = some (.function index) →
    List.lookup name' scope = some (.function index) → name = name'
  blank : ∀ f ∈ s.functions, f.blocks = [] ∧ f.variadic = false
  outlined : ∀ f ∈ s.functions, p.Outlines f
  named : s.Named
  globals : ∃ values, ZeroValues (variablesOf p.vars) values ∧
    s.globals = globalsFor p.name.name (variablesOf p.vars) values
  edits : s.edits = []

section

variable {p : Program} {annotations : Annotations} {scope : Scope} {s : State}

/-- The variables of a module become globals. -/
theorem declareGlobals_declares (hwell : p.WellFormed) (hregular : p.Regular)
    (hann : p.Annotated annotations) :
    ∃ scope s, p.vars.foldlM (declareGlobals annotations p.name.name) [] .initial = .ok (scope, s) ∧
      Declares p [] scope s := by
  have hvars (decl : VarDecl) (hdecl : decl ∈ p.vars) :
      annotations.symbolsOf Symbol.var? decl.node.id = .ok decl.variables :=
    Annotations.symbolsOf_of_holds (hann.vars decl hdecl) (by simp [Symbol.var?])
  obtain ⟨scope, values, hrun, hvalues, hbinds⟩ := declareAllGlobals_run (s := .initial) p.name.name
    p.vars hregular.vars hvars .nil
  have hfunction {name : String} {index : Nat} {q : Prop}
      (hlookup : List.lookup name scope = some (.function index)) : q := by
    obtain ⟨_, v, -, -, hglobal⟩ := hbinds.of_lookup hlookup
    cases hglobal
  refine ⟨scope, _, hrun, fun v hv => ?_, by simp, ?_, ?_, ?_, by simp [State.initial],
    by simp [State.initial], ?_, ⟨values, hvalues, rfl⟩, rfl⟩
  · obtain ⟨k, hk⟩ := List.mem_iff_getElem?.mp hv
    exact hbinds.lookup hwell.vars hk
  · intro name b hlookup
    obtain ⟨k, v, hv, hname, -⟩ := hbinds.of_lookup hlookup
    exact .inl ⟨v, List.mem_of_getElem? hv, hname⟩
  · exact fun name index hlookup => hfunction hlookup
  · exact fun name name' index hlookup => hfunction hlookup
  · intro index text
    simp [State.initial, globalsFor]

theorem mapM_params_run {vars : List Variable} (h : ∀ v ∈ vars, v.type.Proper) (s : State) :
    ∃ params, (vars.mapM fun v => do
        let ty ← v.type.target
        return (⟨v.name, ty⟩ : Param) : Lower (List Param)) s = .ok (params, s) ∧
      TargetTypes vars (params.map (·.ty)) ∧ params.map (·.name) = vars.map (·.name) := by
  induction vars with
  | nil => exact ⟨[], rfl, .nil, rfl⟩
  | cons v rest ih =>
    rw [List.forall_mem_cons] at h
    obtain ⟨ty, hty⟩ := h.1.target
    obtain ⟨params, hrun, htypes, hnames⟩ := ih h.2
    refine ⟨⟨v.name, ty⟩ :: params, ?_, .cons hty htypes, congrArg (v.name :: ·) hnames⟩
    rw [List.mapM_cons, hty]
    change (List.mapM _ rest >>= fun params =>
      Pure.pure ((⟨v.name, ty⟩ : Param) :: params) : Lower (List Param)) s = _
    rw [run_bind hrun]
    rfl

theorem DataType.ProperResult.target {t : DataType} (h : t.ProperResult) :
    ∃ ty, t.target = .ok ty := by
  rcases h with rfl | h
  · exact ⟨_, rfl⟩
  · exact h.target

theorem SubprogramDecl.Proper.heading {decl : SubprogramDecl} (h : decl.Proper) :
    decl.heading.Proper := by
  cases decl with
  | forward node heading => exact h
  | definition node heading vars body => exact h.1

theorem type_proper_of_mem {decls : List VarDecl} (h : ∀ decl ∈ decls, decl.type.Proper)
    {v : Variable} (hv : v ∈ variablesOf decls) : v.type.Proper := by
  obtain ⟨decl, hdecl, hv⟩ := List.mem_flatMap.mp hv
  obtain ⟨name, -, rfl⟩ := List.mem_map.mp hv
  exact h decl hdecl

theorem Program.WellFormed.proc_proper (hwell : p.WellFormed) (hregular : p.Regular) {name : String}
    {sp : Subprogram} (hname : p.frameNames name = some (.proc sp)) :
    sp.builtin = false ∧ sp.result.ProperResult ∧ ∀ v ∈ sp.params, v.type.Proper := by
  obtain ⟨first, hfirst, -, rfl⟩ := hwell.frameNames_declared.proc _ sp hname
  have hproper := (hregular.subprograms first hfirst).heading
  exact ⟨rfl, hproper.result, fun v hv => type_proper_of_mem hproper.params hv⟩

section

variable {front : List SubprogramDecl} {decl : SubprogramDecl} {sp : Subprogram}

theorem Declares.only_concat (h : Declares p front scope s) {name : String} {b : Binding}
    (hb : List.lookup name scope = some b) : (∃ v ∈ variablesOf p.vars, v.name = name) ∨
      ∃ other ∈ front ++ [decl], other.heading.name.name = name :=
  (h.only name b hb).imp_right fun ⟨other, hother, hsame⟩ =>
    ⟨other, List.mem_append_left _ hother, hsame⟩

/-- Declarations and definitions of one subprogram share a function. -/
theorem Declares.again (hwell : p.WellFormed) (h : Declares p front scope s)
    (hframe : p.frameNames decl.heading.name.name = some (.proc sp))
    {b : Binding} (hlookup : List.lookup decl.heading.name.name scope = some b) :
    Declares p (front ++ [decl]) scope s := by
  refine { h with procs := ?_, only := fun _ _ => h.only_concat }
  refine List.forall_mem_append.mpr ⟨h.procs, List.forall_mem_singleton.mpr fun sp' hframe' => ?_⟩
  -- the name was declared before, and not as a variable
  rcases h.only _ _ hlookup with ⟨v, hv, hvname⟩ | ⟨earlier, hearlier, hsame⟩
  · exact (hwell.name_ne_of_proc hframe hv hvname).elim
  · exact h.procs earlier hearlier sp' (hsame ▸ hframe')

/-- A new subprogram gets a function without blocks. -/
theorem Declares.add (h : Declares p front scope s)
    (hframe : p.frameNames decl.heading.name.name = some (.proc sp))
    (hname : sp.name = decl.heading.name.name) (hlookup : List.lookup sp.name scope = none)
    {ty : Ty} {params : List Param} (hty : sp.result.target = .ok ty)
    (htypes : TargetTypes sp.params (params.map (·.ty)))
    (hnames : params.map (·.name) = sp.params.map (·.name)) :
    Declares p (front ++ [decl]) ((sp.name, .function s.functions.length) :: scope)
      { s with functions := s.functions ++
          [⟨functionName p.name.name sp.name, ty, params, false, []⟩] } := by
  have hself : List.lookup sp.name ((sp.name, .function s.functions.length) :: scope) =
      some (.function s.functions.length) := List.lookup_cons_self
  have hother {name : String} {b : Binding} (hb : List.lookup name scope = some b) :
      List.lookup name ((sp.name, .function s.functions.length) :: scope) = some b := by
    refine lookup_cons_eq_some_iff.mpr (.inr ⟨fun hne => ?_, hb⟩)
    rw [hne, hlookup] at hb
    cases hb
  have hnew {name : String} (hlast : List.lookup name scope = some (.function s.functions.length)) :
      False := Nat.lt_irrefl _ (h.bound name _ hlast)
  refine ⟨fun v hv => ?_, ?_, ?_, ?_, ?_, ?_, ?_, h.named, h.globals, h.edits⟩
  · exact (h.vars v hv).imp fun b hb => ⟨hother hb.1, hb.2⟩
  · refine List.forall_mem_append.mpr ⟨fun decl hmem sp' hframe' => ?_,
      List.forall_mem_singleton.mpr fun sp' hframe' => ?_⟩
    · obtain ⟨index, callee, hindex, hcallee, htypes⟩ := h.procs decl hmem sp' hframe'
      refine ⟨index, callee, hother hindex, Tables.Le.getElem?_signatures ?_ hcallee, htypes⟩
      exact ⟨List.prefix_rfl, (List.prefix_append _ _).map _⟩
    · cases hframe.symm.trans hframe'
      exact ⟨_, _, hself, by simp [State.tables]; rfl, rfl, hty, htypes, rfl⟩
  · intro name b hb
    rcases lookup_cons_eq_some_iff.mp hb with ⟨hsame, -⟩ | ⟨-, hb⟩
    · exact .inr ⟨decl, by simp, (hsame.trans hname).symm⟩
    · exact h.only_concat hb
  · intro name index hindex
    rw [List.length_append, List.length_singleton]
    rcases lookup_cons_eq_some_iff.mp hindex with ⟨-, hlast⟩ | ⟨-, hindex⟩
    · cases hlast
      exact Nat.lt_succ_self _
    · exact Nat.lt_succ_of_lt (h.bound name index hindex)
  · intro name name' index hindex hindex'
    rcases lookup_cons_eq_some_iff.mp hindex with ⟨rfl, hlast⟩ | ⟨-, hindex⟩
    · cases hlast
      rcases lookup_cons_eq_some_iff.mp hindex' with ⟨rfl, -⟩ | ⟨-, hindex'⟩
      · rfl
      · exact (hnew hindex').elim
    · rcases lookup_cons_eq_some_iff.mp hindex' with ⟨-, hlast⟩ | ⟨-, hindex'⟩
      · cases hlast
        exact (hnew hindex).elim
      · exact h.injective name name' index hindex hindex'
  · exact List.forall_mem_append.mpr ⟨h.blank, List.forall_mem_singleton.mpr ⟨rfl, rfl⟩⟩
  · refine List.forall_mem_append.mpr ⟨h.outlined, List.forall_mem_singleton.mpr ?_⟩
    exact .subprogram hframe (congrArg (functionName p.name.name) hname) hnames

theorem declareFunction_declares (hwell : p.WellFormed) (hregular : p.Regular)
    (hann : p.Annotated annotations) (hdecl : decl ∈ p.subprograms) (h : Declares p front scope s) :
    ∃ scope' s', declareFunction annotations p.name.name scope decl s = .ok (scope', s') ∧
      Declares p (front ++ [decl]) scope' s' := by
  obtain ⟨sp, hframe, hholds⟩ := hann.subprograms decl hdecl
  have hsymbol : annotations.symbolOf Symbol.proc? decl.node.id = .ok sp :=
    Annotations.symbolOf_of_holds hholds rfl
  have hname : sp.name = decl.heading.name.name := hwell.frameNames_declared.keyed _ _ hframe
  rw [declareFunction, run_bind (Emits.lift hsymbol s).runs]
  cases hlookup : List.lookup sp.name scope with
  | some b => exact ⟨scope, s, rfl, h.again hwell hframe (hname ▸ hlookup)⟩
  | none =>
    obtain ⟨-, hresult, hparams⟩ := hwell.proc_proper hregular hframe
    obtain ⟨ty, hty⟩ := hresult.target
    obtain ⟨params, hrun, htypes, hnames⟩ := mapM_params_run hparams s
    refine ⟨_, _, ?_, h.add hframe hname hlookup hty htypes hnames⟩
    change (List.mapM _ sp.params >>= fun params => do
      let result ← sp.result.target
      let index ← Lower.addFunction ⟨functionName p.name.name sp.name, result, params, false, []⟩
      return (sp.name, .function index) :: scope : Lower Scope) s = _
    rw [run_bind hrun, run_bind (Emits.lift hty s).runs]
    rfl

end

/-- All that a module consists of is declared before any body is generated. -/
theorem declare_declares (hwell : p.WellFormed) (hregular : p.Regular)
    (hann : p.Annotated annotations) (front back : List SubprogramDecl)
    (hsplit : p.subprograms = front ++ back) (h : Declares p front scope s) :
    ∃ globals s', back.foldlM (declareFunction annotations p.name.name) scope s =
      .ok (globals, s') ∧ Declares p p.subprograms globals s' := by
  induction back generalizing front scope s with
  | nil =>
    rw [List.append_nil] at hsplit
    exact ⟨scope, s, rfl, hsplit ▸ h⟩
  | cons decl rest ih =>
    have hdecl : decl ∈ p.subprograms := by simp [hsplit]
    obtain ⟨scope₁, s₁, hrun, h₁⟩ := declareFunction_declares hwell hregular hann hdecl h
    obtain ⟨globals, s', hrest, h'⟩ := ih (front ++ [decl]) (by simp [hsplit]) h₁
    refine ⟨globals, s', ?_, h'⟩
    rw [List.foldlM_cons, run_bind hrun]
    exact hrest

end

end Oberlet
