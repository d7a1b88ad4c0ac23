import Oberlet.Proofs.Lowering.Function

/-!
# Code generation for modules

Every body of a module becomes the body of a function of its own.
-/

namespace Oberlet

open Llvm Lowering Lower

/-- Everything that a module consists of has been declared, and blocks have ids below the next one.
-/
structure Prepared (p : Program) (globals : Scope) (s : State) : Prop where
  linked : Linked p globals s.tables
  named : s.Named
  ordinary : s.tables.Ordinary
  vars : GlobalsOf p.name.name (variablesOf p.vars) (varsOf s.globals)
  edits : ∀ edit ∈ s.edits, edit.1 < s.nextBlock

variable {globals : Scope} {index : Nat} {p : Program} {s : State} {f : Function}
  {annotations : Annotations} {vars : List VarDecl}

theorem Prepared.mono {s' : State} (h : Prepared p globals s) (hkeeps : Keeps index s s') :
    Prepared p globals s' where
  linked := h.linked.mono hkeeps.tables
  named := hkeeps.named h.named
  ordinary := hkeeps.ordinary h.ordinary
  vars := hkeeps.vars ▸ h.vars
  edits edit hedit := by
    obtain ⟨more, hmore, hids⟩ := hkeeps.edits
    rw [hmore] at hedit
    rcases List.mem_append.mp hedit with hedit | hedit
    · exact Nat.lt_of_lt_of_le (h.edits edit hedit) hkeeps.nextBlock
    · exact (hids edit hedit).2

/-! ## The parameters of a function -/

theorem map_ty_rename (names : List Variable) (params : List Param) (k : Nat) :
    ((params.zipIdx k).map fun (param, i) => match names[i]? with
      | some v => { param with name := v.name }
      | none => param).map (·.ty) = params.map (·.ty) := by
  induction params generalizing k with
  | nil => rfl
  | cons param rest ih =>
    rw [List.zipIdx_cons, List.map_cons, List.map_cons, ih]
    dsimp only
    cases names[k]? <;> rfl

theorem map_name_rename (names : List Variable) (params : List Param) (k : Nat)
    (hlength : names.length = k + params.length) :
    ((params.zipIdx k).map fun (param, i) => match names[i]? with
      | some v => { param with name := v.name }
      | none => param).map (·.name) = (names.drop k).map (·.name) := by
  induction params generalizing k with
  | nil =>
    rw [List.drop_of_length_le (l := names) (i := k) hlength.le]
    rfl
  | cons param rest ih =>
    rw [List.length_cons] at hlength
    have hk : k < names.length := by omega
    rw [List.zipIdx_cons, List.map_cons, List.map_cons, ih (k + 1) (by omega),
      List.drop_eq_getElem_cons hk]
    dsimp only
    rw [List.getElem?_eq_getElem hk, List.map_cons]

theorem renameParams_run {names : List Variable} (hf : s.functions[index]? = some f)
    (hlength : names.length = f.params.length) :
    ∃ s' f', renameParams index names s = .ok ((), s') ∧ Keeps index s s' ∧
      s'.functions[index]? = some f' ∧ f'.signature = f.signature ∧ f'.blocks = f.blocks ∧
      f'.params.map (·.name) = names.map (·.name) := by
  let rename (f : Function) : Function :=
    { f with
      params := f.params.zipIdx.map fun (param, i) => match names[i]? with
        | some v => { param with name := v.name }
        | none => param }
  have hrename (f : Function) : (rename f).signature = f.signature := by
    simp only [Function.signature, rename, map_ty_rename]
  have htables : State.tables { s with functions := s.functions.modify index rename } = s.tables :=
    congrArg (Tables.mk s.strings) (map_signature_modify s.functions index hrename)
  refine ⟨{ s with functions := s.functions.modify index rename }, rename f, ?_,
    ⟨htables ▸ .refl _, id, htables ▸ id, rfl, ?_, ?_, Nat.le_refl _, [],
      (List.append_nil _).symm, by simp⟩, ?_,
    hrename f, rfl, map_name_rename names f.params 0 (hlength.trans (Nat.zero_add _).symm)⟩
  · have hcount : ¬ (s.functions[index]?.map (·.params.length)).getD 0 < names.length := by
      rw [hf]
      exact Nat.not_lt.mpr hlength.le
    unfold renameParams
    change (if _ then _ else _ : Lower Unit) s = _
    rw [if_neg hcount]
    rfl
  · exact fun i g hi hg => (List.getElem?_modify_ne _ _ (Ne.symm hi)).trans hg
  · exact fun i g hi hg => .inl ((List.getElem?_modify_ne _ _ (Ne.symm hi)).symm.trans hg)
  · rw [List.getElem?_modify_eq, hf]
    rfl

theorem mapM_symbolsOf_run (groups : List VarDecl) (s : State)
    (h : ∀ group ∈ groups, annotations.symbolsOf Symbol.var? group.node.id = .ok group.variables) :
    (groups.mapM fun group => annotations.symbolsOf Symbol.var? group.node.id :
      Lower (List (List Variable))) s = .ok (groups.map (·.variables), s) := by
  induction groups with
  | nil => rfl
  | cons group rest ih =>
    rw [List.forall_mem_cons] at h
    rw [List.mapM_cons, run_bind (Emits.lift h.1 s).runs, run_bind (ih h.2)]
    rfl

theorem TargetTypes.congr {vars vars' : List Variable} {tys : List Ty} (h : TargetTypes vars tys)
    (heq : vars.map (·.type) = vars'.map (·.type)) : TargetTypes vars' tys := by
  have h : List.Forall₂ (fun t ty => t.target = .ok ty) (vars.map (·.type)) tys :=
    List.forall₂_map_left_iff.mpr h
  rw [heq] at h
  exact List.forall₂_map_left_iff.mp h

theorem lowerVariables_run {params : List VarDecl} (hf : s.functions[index]? = some f)
    (hdone : s.done = []) (htypes : TargetTypes (variablesOf params) (f.params.map (·.ty)))
    (hproper : ∀ decl ∈ vars, decl.type.Proper)
    (hann : ∀ decl ∈ vars, annotations.symbolsOf Symbol.var? decl.node.id = .ok decl.variables) :
    ∃ scope₁ s₁ scope s' values, ((variablesOf params).zipIdx.foldlM
        (fun scope (v, i) => lowerParam index scope i v) [] : Lower Scope) s = .ok (scope₁, s₁) ∧
      vars.foldlM (lowerLocals annotations) scope₁ s₁ = .ok (scope, s') ∧
      ZeroValues (variablesOf vars) values ∧
      Emitted s (slotCode s.nextReg (paramValues 0 (f.params.map (·.ty)) ++ values)) s' ∧
      Binds (SlotAt s.nextReg) (variablesOf (params ++ vars)) scope := by
  obtain ⟨code₁, scope₁, s₁, hemits₁, h₁⟩ := lowerParams_code (n := s.nextReg) (i := 0)
    htypes hf rfl hdone .nil rfl
  obtain ⟨rfl, hbinds₁⟩ := h₁ s₁.tables (.refl _)
  have hlength : (paramValues 0 (f.params.map (·.ty))).length = (variablesOf params).length := by
    rw [length_paramValues, htypes.length_eq]
  have hnext₁ : s₁.nextReg = s.nextReg + 2 * ([] ++ variablesOf params).length := by
    rw [hemits₁.emitted.nextReg, length_slotCode, hlength]
    rfl
  obtain ⟨code₂, scope, s', hemits, h⟩ := lowerAllLocals_code vars hproper hann hbinds₁ hnext₁
  obtain ⟨values, hvalues, rfl, hbinds⟩ := h s'.tables (.refl _)
  refine ⟨scope₁, s₁, scope, s', values, hemits₁.runs, hemits.runs, hvalues, ?_, ?_⟩
  · have := hemits₁.emitted.trans hemits.emitted
    rwa [hemits₁.emitted.nextReg, length_slotCode, ← slotCode_append] at this
  · rw [variablesOf_append]
    exact hbinds

/-! ## The end of a body -/

theorem endFunction_run {value : Option Operand} (last : Lower Unit)
    (h : s.block.term = none → last s = .ok ((), s.ended (.ret value))) :
    (do
      if !(← terminated) then last
      endFunction : Lower Unit) s = .ok ((), (s.closed (.ret value)).finished) := by
  have hterminated : terminated s = .ok (s.block.term.isSome, s) := rfl
  rw [run_bind hterminated]
  cases hterm : s.block.term with
  | some =>
    rw [State.closed_of_some hterm]
    rfl
  | none =>
    rw [State.closed_of_none hterm]
    exact run_bind (h hterm)

theorem endDefinition_run {result : DataType} (h : result.ProperResult) (s : State) {ty : Ty}
    (hty : result.target = .ok ty) :
    ∃ value, (do
        if !(← terminated) then
          if result == .void then terminate (.ret none)
          else terminate (.ret (some (← result.zeroValue)))
        endFunction : Lower Unit) s = .ok ((), (s.closed (.ret value)).finished) ∧
      ty.Defaults value := by
  rcases h with rfl | h
  · exact ⟨none, endFunction_run (terminate (.ret none)) fun _ => rfl, (Except.ok.inj hty).symm⟩
  · obtain ⟨value, hvalue⟩ := h.zeroValue
    have hvoid : (result == .void) = false := by
      cases result <;> first | rfl | exact h.elim
    have hvalueTy : value.ty = ty :=
      Except.ok.inj ((DataType.target_of_zeroValue hvalue).symm.trans hty)
    refine ⟨some value, ?_, hvalueTy, h.ne_void hty, DataType.constant_of_zeroValue hvalue⟩
    rw [hvoid, hvalue]
    exact endFunction_run (terminate (.ret (some value))) fun _ => rfl

/-! ## Definitions -/

/-- A definition generates the function of its body. -/
theorem lowerDefinition_generates (hwell : p.WellFormed) (hregular : p.Regular)
    (hann : p.Annotated annotations) {front back : List SubprogramDecl} {node : Node}
    {heading : Heading} {stmts : List Stmt}
    (hsplit : p.subprograms = front ++ .definition node heading vars stmts :: back)
    (hs : Prepared p globals s)
    (hblank : ∀ index f, List.lookup heading.name.name globals = some (.function index) →
      s.functions[index]? = some f → f.blocks = []) :
    ∃ index f s', List.lookup heading.name.name globals = some (.function index) ∧
      lowerDefinition annotations globals node heading vars stmts s = .ok ((), s') ∧
      Keeps index s s' ∧ s'.functions[index]? = some f ∧
      f.name = functionName p.name.name heading.name.name ∧
      Generated p annotations globals (p.definitionBody front node heading vars stmts) false
        s' f := by
  have hdecl : .definition node heading vars stmts ∈ p.subprograms := by simp [hsplit]
  obtain ⟨hnodup, -, sp, hframe, hname, hspResult, hspParams⟩ := hwell.definition hsplit
  obtain ⟨sp', hframe', hholds⟩ := hann.subprograms _ hdecl
  cases hframe.symm.trans hframe'
  have hsymbol : annotations.symbolOf Symbol.proc? node.id = .ok sp :=
    Annotations.symbolOf_of_holds hholds rfl
  obtain ⟨index, callee, hindex, hcallee, hcalled, hty, hparams, -⟩ := hs.linked.procs _ _ hframe
  obtain ⟨f, hf, hsignature⟩ : ∃ f, s.functions[index]? = some f ∧ f.signature = callee := by
    simpa [State.tables] using hcallee
  subst hsignature
  -- the parameters have the types that the function was declared with
  have htypes : TargetTypes (variablesOf heading.params)
    (f.params.map (·.ty)) := hparams.congr hspParams
  have hlength : (variablesOf heading.params).length = f.params.length := by
    simpa using htypes.length_eq
  obtain ⟨s₁, f₁, hrename, hkeeps₁, hf₁, hsignature₁, hblocks₁, hnames₁⟩ :=
    renameParams_run hf hlength
  have hs₁ := hs.mono hkeeps₁
  have htypes₁ : TargetTypes (variablesOf heading.params) (f₁.params.map (·.ty)) := by
    have : f₁.params.map (·.ty) = f.params.map (·.ty) := congrArg Signature.params hsignature₁
    rw [this]
    exact htypes
  have hbegin := run_beginFunction hf₁ (hblocks₁.trans (hblank index f (hname ▸ hindex) hf))
  have hproper := hregular.subprograms _ hdecl
  have hgroups (group : VarDecl) (hgroup : group ∈ heading.params ++ vars) :
      annotations.symbolsOf Symbol.var? group.node.id = .ok group.variables :=
    Annotations.symbolsOf_of_holds (hann.groups _ hdecl group hgroup) (by simp [Symbol.var?])
  obtain ⟨scope₁, s₂, scope, s₃, values, hparamsRun, hlocalsRun, hvalues, hemitted, hbinds⟩ :=
    lowerVariables_run (show (s₁.begun index).functions[index]? = some f₁ from hf₁) rfl htypes₁
      hproper.2.1 fun decl hdecl => hgroups decl (List.mem_append_right _ hdecl)
  let env : Env := ⟨annotations, [scope, globals], [], false⟩
  have hbody := (Program.HasBody.definition hsplit).mem
  have hresolves : Resolves p globals (variablesOf heading.params ++ variablesOf vars) s₁.nextReg
      (p.definitionBody front node heading vars stmts).names env s₃.tables := by
    rw [← variablesOf_append]
    refine (hs₁.linked.mono hemitted.tables).resolves hwell hregular hbody rfl ?_ hnodup hbinds ?_
    · intro decl hdecl
      rcases List.mem_append.mp hdecl with hdecl | hdecl
      · exact hproper.1.params decl hdecl
      · exact hproper.2.1 decl hdecl
    · intro name
      cases hscope : List.lookup name scope <;> simp [env, hscope]
  have htyped := hwell.bodies _ hbody
  obtain ⟨s₄, hcompiles⟩ : ∃ s', Compiles _ env heading.result _ (lowerStmts env stmts) s₃ s' :=
    lowerStmts_compiles stmts hproper.2.2 htyped
      (fun part hpart => hann.annotatedBy hbody htyped hpart) ⟨by simp, by simp [env]⟩ s₃
      hresolves.hosts.ready hemitted.block.2.1
  have hresult : heading.result.target = .ok f₁.result := by
    have : f₁.result = f.result := congrArg Signature.result hsignature₁
    rw [this, ← hspResult]
    exact hty
  obtain ⟨value, hend, hvalue⟩ := endDefinition_run hproper.1.result s₄ hresult
  obtain ⟨hkeeps, f', hf', hname', hgenerated⟩ := Compiles.generated hf₁ hs₁.edits hs₁.vars
    (.definition hsplit) hnames₁ htypes₁ hvalues hemitted hresolves rfl (by simp [env])
    (fun _ => hresult) hvalue
    hcompiles
  refine ⟨index, f', _, hname ▸ hindex, ?_, hkeeps₁.trans hkeeps, hf', ?_, hgenerated⟩
  · have hlookup : Env.lookup ⟨annotations, [globals], [], false⟩ sp.name = .ok (.function index) :=
      Env.lookup_of_findSome? (by simp [hindex])
    have hflatten : (heading.params.map (·.variables)).flatten = variablesOf heading.params := rfl
    rw [lowerDefinition, run_bind (Emits.lift hsymbol s).runs,
      run_bind (Emits.lift hlookup s).runs]
    dsimp only
    rw [run_bind (mapM_symbolsOf_run heading.params s fun group hgroup =>
        hgroups group (List.mem_append_left _ hgroup)), hflatten, run_bind hrename,
      run_bind hbegin, run_bind hparamsRun, run_bind hlocalsRun,
      run_bind hcompiles.runs, hspResult]
    exact hend
  · rw [hname', ← hname, ← hcalled]
    exact congrArg Signature.name hsignature₁

/-! ## Modules -/

theorem lowerMain_generates (hwell : p.WellFormed) (hregular : p.Regular)
    (hann : p.Annotated annotations) (hs : Prepared p globals s) :
    ∃ f s', lowerMain annotations globals p.body s = .ok ((), s') ∧
      Keeps s.functions.length s s' ∧ s'.functions[s.functions.length]? = some f ∧ f.name = "main" ∧
      Generated p annotations globals p.mainBody true s' f := by
  let main : Function := ⟨"main", .i32, [], false, []⟩
  let s₁ : State := { s with functions := s.functions ++ [main] }
  have hadd : addFunction main s = .ok (s.functions.length, s₁) := rfl
  have hkeeps₁ : Keeps s.functions.length s s₁ := by
    refine ⟨⟨List.prefix_rfl, (List.prefix_append _ _).map _⟩, id, fun hordinary => ?_, rfl,
      fun i f _ hf => ?_, fun i f hi hf => ?_, Nat.le_refl _, [], (List.append_nil _).symm, by simp⟩
    · intro callee hcallee hvariadic
      rw [State.tables, List.map_append] at hcallee
      rcases List.mem_append.mp hcallee with hcallee | hcallee
      · exact hordinary callee hcallee hvariadic
      · rw [List.mem_singleton.mp hcallee] at hvariadic
        cases hvariadic
    · exact (List.getElem?_append_left (List.getElem?_eq_some_iff.mp hf).1).trans hf
    · have hlt := (List.getElem?_eq_some_iff.mp hf).1
      have hlength : s₁.functions.length = s.functions.length + 1 := by simp [s₁]
      exact .inl ((List.getElem?_append_left (by omega)).symm.trans hf)
  have hs₁ := hs.mono hkeeps₁
  have hf : s₁.functions[s.functions.length]? = some main := by simp [s₁]
  let env : Env := ⟨annotations, [globals], [], true⟩
  have hbody : p.mainBody ∈ p.bodies := Program.HasBody.main.mem
  have hresolves : Resolves p globals (variablesOf []) s.nextReg p.mainBody.names env
      (s₁.begun s.functions.length).tables :=
    hs₁.linked.resolves hwell hregular hbody (Names.ofVars_nil_within _).symm
      (by simp) .nil .nil fun name => by cases h : List.lookup name globals <;> simp [env, h]
  have htyped := hwell.bodies _ hbody
  obtain ⟨s₂, hcompiles⟩ : ∃ s', Compiles _ env p.mainBody.result _ (lowerStmts env p.body) _ s' :=
    lowerStmts_compiles p.body hregular.body htyped
      (fun part hpart => hann.annotatedBy hbody htyped hpart) ⟨by simp, fun _ => rfl⟩ _
      hresolves.hosts.ready rfl
  obtain ⟨hkeeps, f, hf', hname, hgenerated⟩ := Compiles.generated hf hs₁.edits hs₁.vars .main
    rfl .nil .nil
    (.refl _) hresolves rfl (fun _ => rfl) (by simp [env])
    (show main.result.Defaults (some (.int 0)) from ⟨rfl, by simp [main], fun _ => trivial⟩)
    hcompiles
  refine ⟨f, _, ?_, hkeeps₁.trans hkeeps, hf', hname, hgenerated⟩
  rw [lowerMain, run_bind hadd, run_bind (run_beginFunction hf rfl),
    run_bind hcompiles.runs]
  exact endFunction_run (terminate (.ret (some (.int 0)))) fun _ => rfl

/-- Of the bodies of a module, those of `front` have been generated. Nothing else has blocks, and
what has none is of the host or stands for a subprogram. -/
structure Progress (p : Program) (annotations : Annotations) (globals : Scope)
    (front : List SubprogramDecl) (s : State) : Prop extends Prepared p globals s where
  blank : ∀ name index, List.lookup name globals = some (.function index) →
    Program.defines front name = false → ∃ f, s.functions[index]? = some f ∧ f.blocks = []
  generated : ∀ before node heading vars stmts after,
    front = before ++ .definition node heading vars stmts :: after →
    ∃ index f, List.lookup heading.name.name globals = some (.function index) ∧
      s.functions[index]? = some f ∧ f.name = functionName p.name.name heading.name.name ∧
      Generated p annotations globals (p.definitionBody before node heading vars stmts) false s f
  only : ∀ f ∈ s.functions, f.blocks ≠ [] →
    ∃ isMain body, p.HasBody f.name isMain body ∧ Generated p annotations globals body isMain s f
  outlined : ∀ f ∈ s.functions, f.blocks = [] → p.Outlines f

theorem concat_eq_append_cons {α : Type} {front before after : List α} {last a : α}
    (h : front ++ [last] = before ++ a :: after) :
    front = before ∧ last = a ∧ after = [] ∨
      ∃ rest, front = before ++ a :: rest ∧ after = rest ++ [last] := by
  rcases List.eq_nil_or_concat' after with rfl | ⟨rest, b, rfl⟩
  · obtain ⟨hfront, hlast⟩ := List.append_inj' h rfl
    exact .inl ⟨hfront, (List.cons.inj hlast).1, rfl⟩
  · have h : front ++ [last] = (before ++ a :: rest) ++ [b] := by simpa using h
    obtain ⟨hfront, hlast⟩ := List.append_inj' h rfl
    cases hlast
    exact .inr ⟨rest, hfront, rfl⟩

section

variable {front : List SubprogramDecl}

theorem Progress.forward (h : Progress p annotations globals front s) (node : Node)
    (heading : Heading) : Progress p annotations globals (front ++ [.forward node heading]) s where
  toPrepared := h.toPrepared
  blank name index hindex hdefines := by
    rw [Program.defines_append, Bool.or_eq_false_iff] at hdefines
    exact h.blank name index hindex hdefines.1
  generated before node heading vars stmts after hsplit := by
    rcases concat_eq_append_cons hsplit with ⟨-, hdecl, -⟩ | ⟨rest, hfront, -⟩
    · cases hdecl
    · exact h.generated before node heading vars stmts rest hfront
  only := h.only
  outlined := h.outlined

theorem Runtime.blocks_function (r : Runtime) : r.function.blocks = [] := by
  cases r <;> rfl

variable {body : Body} {isMain : Bool} {s' : State}

theorem Progress.only_step (h : Progress p annotations globals front s) (hkeeps : Keeps index s s')
    (hf : s'.functions[index]? = some f) (hbody : p.HasBody f.name isMain body)
    (hgenerated : Generated p annotations globals body isMain s' f) (g : Function)
    (hg : g ∈ s'.functions) (hblocks : g.blocks ≠ []) :
    ∃ isMain body, p.HasBody g.name isMain body ∧
      Generated p annotations globals body isMain s' g := by
  obtain ⟨i, hg⟩ := List.mem_iff_getElem?.mp hg
  by_cases hi : i = index
  · subst hi
    cases hf.symm.trans hg
    exact ⟨isMain, body, hbody, hgenerated⟩
  · rcases hkeeps.only i g hi hg with hg | ⟨r, rfl⟩
    · obtain ⟨isMain, body, hbody, hgenerated⟩ := h.only g (List.mem_of_getElem? hg) hblocks
      exact ⟨isMain, body, hbody, hgenerated.mono hkeeps⟩
    · exact (hblocks r.blocks_function).elim

theorem Progress.outlined_step (h : Progress p annotations globals front s)
    (hkeeps : Keeps index s s') (hf : s'.functions[index]? = some f)
    (hgenerated : Generated p annotations globals body isMain s' f) (g : Function)
    (hg : g ∈ s'.functions) (hblocks : g.blocks = []) : p.Outlines g := by
  obtain ⟨i, hg⟩ := List.mem_iff_getElem?.mp hg
  by_cases hi : i = index
  · subst hi
    cases hf.symm.trans hg
    exact (hgenerated.blocks_ne_nil hblocks).elim
  · rcases hkeeps.only i g hi hg with hg | ⟨r, rfl⟩
    · exact h.outlined g (List.mem_of_getElem? hg) hblocks
    · exact .host r rfl

/-- What has been generated for one body is kept while the others follow. -/
theorem Progress.definition (h : Progress p annotations globals front s)
    (hinjective : ∀ name name' index, List.lookup name globals = some (.function index) →
      List.lookup name' globals = some (.function index) → name = name')
    {node : Node} {heading : Heading} {vars : List VarDecl} {stmts : List Stmt}
    {back : List SubprogramDecl}
    (hsplit : p.subprograms = front ++ .definition node heading vars stmts :: back)
    (hfirst : Program.defines front heading.name.name = false)
    (hindex : List.lookup heading.name.name globals = some (.function index))
    (hkeeps : Keeps index s s') (hf : s'.functions[index]? = some f)
    (hname : f.name = functionName p.name.name heading.name.name)
    (hgenerated : Generated p annotations globals (p.definitionBody front node heading vars stmts)
      false s' f) :
    Progress p annotations globals (front ++ [.definition node heading vars stmts]) s' := by
  -- other names have other functions
  have hother {name : String} {i : Nat} (hne : name ≠ heading.name.name)
      (hi : List.lookup name globals = some (.function i)) : i ≠ index := by
    rintro rfl
    exact hne (hinjective _ _ _ hi hindex)
  refine ⟨h.toPrepared.mono hkeeps, ?_, ?_, h.only_step hkeeps hf
    (hname ▸ .definition hsplit) hgenerated, h.outlined_step hkeeps hf hgenerated⟩
  · intro name i hi hdefines
    rw [Program.defines_append, Bool.or_eq_false_iff, Program.defines_definition] at hdefines
    have hne : name ≠ heading.name.name := fun heq => by simp [heq] at hdefines
    obtain ⟨g, hg, hblocks⟩ := h.blank name i hi hdefines.1
    exact ⟨g, hkeeps.others i g (hother hne hi) hg, hblocks⟩
  · intro before node' heading' vars' stmts' after hsplit'
    rcases concat_eq_append_cons hsplit' with ⟨hfront, hdecl, -⟩ | ⟨rest, hfront, -⟩
    · cases hdecl
      subst hfront
      exact ⟨index, f, hindex, hf, hname, hgenerated⟩
    · obtain ⟨i, g, hi, hg, hgname, hggenerated⟩ := h.generated _ _ _ _ _ rest hfront
      have hne : heading'.name.name ≠ heading.name.name := by
        intro heq
        rw [hfront, ← heq] at hfirst
        simp [Program.defines] at hfirst
      exact ⟨i, g, hi, hkeeps.others i g (hother hne hi) hg, hgname, hggenerated.mono hkeeps⟩

theorem Progress.all (hwell : p.WellFormed) (hregular : p.Regular) (hann : p.Annotated annotations)
    (hinjective : ∀ name name' index, List.lookup name globals = some (.function index) →
      List.lookup name' globals = some (.function index) → name = name')
    (front back : List SubprogramDecl) (hsplit : p.subprograms = front ++ back)
    (h : Progress p annotations globals front s) : ∃ s', (back.forM fun
        | .forward _ _ => pure ()
        | .definition node heading vars body =>
          lowerDefinition annotations globals node heading vars body : Lower Unit) s =
            .ok ((), s') ∧
      Progress p annotations globals p.subprograms s' := by
  induction back generalizing front s with
  | nil =>
    rw [List.append_nil] at hsplit
    exact ⟨s, rfl, hsplit ▸ h⟩
  | cons decl rest ih =>
    have hsplit' : p.subprograms = (front ++ [decl]) ++ rest := by
      rw [hsplit, List.append_assoc]; rfl
    cases decl with
    | forward node heading => exact ih _ hsplit' (h.forward node heading)
    | definition node heading vars stmts =>
      have hfirst := (hwell.definition hsplit).2.1
      obtain ⟨index, f, s₁, hindex, hrun, hkeeps, hf, hname, hgenerated⟩ :=
        lowerDefinition_generates hwell hregular hann hsplit h.toPrepared
          fun index f hindex hf => by
          obtain ⟨g, hg, hblocks⟩ := h.blank _ index hindex hfirst
          cases hf.symm.trans hg
          exact hblocks
      obtain ⟨s', hrest, h'⟩ :=
        ih _ hsplit' (h.definition hinjective hsplit hfirst hindex hkeeps hf hname hgenerated)
      refine ⟨s', ?_, h'⟩
      exact (run_bind hrun).trans hrest

/-- All bodies of a module have been generated. No two of its subprograms have one function. -/
structure Translated (p : Program) (annotations : Annotations) (globals : Scope) (s : State) : Prop
    extends Progress p annotations globals p.subprograms s where
  main : ∃ f ∈ s.functions, f.name = "main" ∧ Generated p annotations globals p.mainBody true s f
  injective : ∀ name name' index, List.lookup name globals = some (.function index) →
    List.lookup name' globals = some (.function index) → name = name'

theorem Translated.hasBody (h : Translated p annotations globals s) {name : String}
    (hbody : p.HasBody name isMain body) :
    ∃ f ∈ s.functions, f.name = name ∧ Generated p annotations globals body isMain s f := by
  cases hbody with
  | main => exact h.main
  | definition hsplit =>
    obtain ⟨_, f, -, hf, hname, hgenerated⟩ := h.generated _ _ _ _ _ _ hsplit
    exact ⟨f, List.mem_of_getElem? hf, hname, hgenerated⟩

/-- Code generation finds all it asks for. -/
theorem Program.lower_translates (hwell : p.WellFormed) (hregular : p.Regular)
    (hann : p.Annotated annotations) :
    ∃ globals s, (lowerProgram annotations p).run .initial = .ok ((), s) ∧
      p.lower annotations = .ok ⟨p.name.name, s.globals, s.functions⟩ ∧
      Translated p annotations globals s := by
  obtain ⟨scope, s₁, hglobals, hdeclares₁⟩ := declareGlobals_declares hwell hregular hann
  obtain ⟨globals, s₂, hfunctions, hdeclares⟩ :=
    declare_declares hwell hregular hann [] p.subprograms rfl hdeclares₁
  have hprepared : Prepared p globals s₂ := by
    obtain ⟨values, hvalues, hvars⟩ := hdeclares.globals
    refine ⟨hdeclares.linked hwell, hdeclares.named, fun callee hcallee hvariadic => ?_, ?_,
      by simp [hdeclares.edits]⟩
    · obtain ⟨f, hf, rfl⟩ := List.mem_map.mp hcallee
      cases hvariadic.symm.trans (hdeclares.blank f hf).2
    · rw [hvars]
      exact hvalues.globalsOf p.name.name
  have hstart : Progress p annotations globals [] s₂ := by
    refine ⟨hprepared, fun name index hindex _ => ?_, by simp, fun f hf hblocks => ?_,
      fun f hf _ => hdeclares.outlined f hf⟩
    · have hf := List.getElem?_eq_getElem (hdeclares.bound name index hindex)
      exact ⟨_, hf, (hdeclares.blank _ (List.mem_of_getElem? hf)).1⟩
    · exact (hblocks (hdeclares.blank f hf).1).elim
  obtain ⟨s₃, hdefinitions, hprogress⟩ :=
    Progress.all hwell hregular hann hdeclares.injective [] p.subprograms rfl hstart
  obtain ⟨main, s₄, hmain, hkeeps, hf, hname, hgenerated⟩ :=
    lowerMain_generates hwell hregular hann hprogress.toPrepared
  have hrun : (lowerProgram annotations p).run .initial = .ok ((), s₄) := by
    change lowerProgram annotations p .initial = _
    rw [lowerProgram, run_bind hglobals, run_bind hfunctions]
    exact (run_bind hdefinitions).trans hmain
  -- the entry point is none of the functions that were there before
  have hother {i : Nat} {g : Function} (hg : s₃.functions[i]? = some g) :
      s₄.functions[i]? = some g :=
    hkeeps.others i g (List.getElem?_eq_some_iff.mp hg).1.ne hg
  refine ⟨globals, s₄, hrun, ?_, ⟨hprogress.toPrepared.mono hkeeps, ?_, ?_,
    hprogress.only_step hkeeps hf (hname ▸ .main) hgenerated,
    hprogress.outlined_step hkeeps hf hgenerated⟩,
    ⟨main, List.mem_of_getElem? hf, hname, hgenerated⟩, hdeclares.injective⟩
  · rw [Program.lower, hrun]
    rfl
  · intro name index hindex hdefines
    obtain ⟨g, hg, hblocks⟩ := hprogress.blank name index hindex hdefines
    exact ⟨g, hother hg, hblocks⟩
  · intro before node heading vars stmts after hsplit
    obtain ⟨index, g, hindex, hg, hgname, hggenerated⟩ := hprogress.generated _ _ _ _ _ _ hsplit
    exact ⟨index, g, hindex, hother hg, hgname, hggenerated.mono hkeeps⟩

/-- What the code of a module refers to by number. -/
structure Llvm.Module.HasTables (m : Module) (tables : Tables) : Prop where
  strings : ∀ index text, Global.str index text ∈ m.globals ↔ tables.strings[index]? = some text
  signatures : m.functions.map (·.signature) = tables.signatures

/-- Code generation of a well-formed module finds all it asks for, and every body has a function
that was generated for it. -/
theorem Program.lower_realizes (hwell : p.WellFormed) (hregular : p.Regular)
    (hann : p.Annotated annotations) :
    ∃ m tables, p.lower annotations = .ok m ∧ m.HasTables tables ∧
      ∀ name isMain body, p.HasBody name isMain body →
        ∃ f ∈ m.functions, f.name = name ∧ Realizes p annotations body isMain tables f := by
  obtain ⟨globals, s, -, hlower, htranslated⟩ := Program.lower_translates hwell hregular hann
  refine ⟨_, s.tables, hlower, ⟨htranslated.named, rfl⟩, fun name isMain body hbody => ?_⟩
  obtain ⟨f, hf, hname, hgenerated⟩ := htranslated.hasBody hbody
  exact ⟨f, hf, hname, hgenerated.realizes _ (.refl _)⟩

end

end Oberlet
