import Oberlet.Proofs.Compilation

/-!
# Names mean the same

Names are resolved twice: by the analysis, which annotates designators and calls with what they
stand for, and again while code is generated, in scopes that hold all subprograms from the start.
-/

namespace Oberlet

open Llvm Lowering

/-- The storage that was made for a variable. For one of the body this is a stack slot of the first
block of its function, in the order of the variables, which is filled right away, with what is
passed for a parameter or with the initial value. For one of the module that no variable of the body
hides, this is its global. -/
inductive StorageFor (p : Program) (m : Module) (f : Function) (params locals : List Variable)
    (v : Variable) : Operand → Ty → Prop
  | slot {k reg : Nat} {entry : Block} {init : Operand} : (params ++ locals)[k]? = some v →
      f.blocks.head? = some entry → entry.lines[2 * k]? = some ⟨reg, .alloca init.ty⟩ →
      entry.lines[2 * k + 1]? = some ⟨reg + 1, .store init (.reg reg (.ptr init.ty))⟩ →
      v.type.target = .ok init.ty → (k < params.length → init = .param k init.ty) →
      (params.length ≤ k → v.type.zeroValue = .ok init) →
      StorageFor p m f params locals v (.reg reg (.ptr init.ty)) init.ty
  | global {init : Operand} : v ∈ variablesOf p.vars → (∀ w ∈ params ++ locals, w.name ≠ v.name) →
      Global.var (p.name.name ++ "." ++ v.name) init ∈ m.globals → v.type.zeroValue = .ok init →
      StorageFor p m f params locals v (.global (p.name.name ++ "." ++ v.name) init.ty) init.ty

/-- The function that was made for a subprogram, by its number. It is what the scope of the module
holds for its name, was declared with its types, and has the code of its definition. -/
structure FunctionFor (p : Program) (annotations : Annotations) (globals : Scope) (m : Module)
    (tables : Tables) (sp : Subprogram) (index : Nat) : Prop where
  declared : ∃ decl ∈ p.subprograms, annotations.symbolOf Symbol.proc? decl.node.id = .ok sp
  bound : List.lookup sp.name globals = some (.function index)
  function : ∃ g, m.functions[index]? = some g ∧ g.name = functionName p.name.name sp.name ∧
    sp.result.target = .ok g.result ∧ TargetTypes sp.params (g.params.map (·.ty)) ∧
    ∀ front node heading vars stmts back,
      p.subprograms = front ++ .definition node heading vars stmts :: back →
      heading.name.name = sp.name →
      Realizes p annotations (p.definitionBody front node heading vars stmts) false tables g

section

variable {p : Program} {annotations : Annotations} {globals : Scope} {s : State} {f : Function}
  {content : Ty} {locals params : List Variable} {m : Module} {n : Nat} {v : Variable} {env : Env}
  {name : String} {names : Names} {tables : Tables} {sp : Subprogram} {index : Nat}

theorem Llvm.Function.HasSlots.storageFor {k : Nat} (h : f.HasSlots n params locals)
    (hv : (params ++ locals)[k]? = some v) (hcontent : v.type.target = .ok content) :
    StorageFor p m f params locals v (.reg (n + 2 * k) (.ptr content)) content := by
  obtain ⟨values, entry, htypes, hvalues, hentry, hprefix⟩ := h
  have hlength : params.length = (paramValues 0 (f.params.map (·.ty))).length := by
    rw [length_paramValues, htypes.length_eq]
  -- the value that the slot is filled with
  obtain ⟨init, hinit, hty, hparam, hlocal⟩ : ∃ init,
      (paramValues 0 (f.params.map (·.ty)) ++ values)[k]? = some init ∧ init.ty = content ∧
      (k < params.length → init = .param k init.ty) ∧
      (params.length ≤ k → v.type.zeroValue = .ok init) := by
    rcases Nat.lt_or_ge k params.length with hlt | hge
    · rw [List.getElem?_append_left hlt] at hv
      obtain ⟨ty, hty, htarget⟩ := exists_getElem?_of_forall₂ htypes hv
      refine ⟨.param k ty, ?_, Except.ok.inj (htarget.symm.trans hcontent), fun _ => rfl, by omega⟩
      rw [List.getElem?_append_left (hlength ▸ hlt), getElem?_paramValues, hty, Nat.zero_add]
      rfl
    · rw [List.getElem?_append_right hge] at hv
      obtain ⟨init, hinit, hzero⟩ := exists_getElem?_of_forall₂ hvalues hv
      refine ⟨init, ?_, ?_, by omega, fun _ => hzero⟩
      · rw [List.getElem?_append_right (hlength ▸ hge), ← hlength]
        exact hinit
      · exact Except.ok.inj ((DataType.target_of_zeroValue hzero).symm.trans hcontent)
  subst hty
  obtain ⟨more, hmore⟩ := hprefix
  have hline {i : Nat} {line : Line}
      (hi : (number n (slotCode n (paramValues 0 (f.params.map (·.ty)) ++ values)))[i]? =
        some line) :
      entry.lines[i]? = some line := by
    rw [← hmore, List.getElem?_append_left (List.getElem?_eq_some_iff.mp hi).1, hi]
  obtain ⟨hslot, hstore⟩ := getElem?_slotCode (n := n) hinit
  exact .slot hv hentry (hline hslot) (hline hstore) hcontent hparam hlocal

theorem Resolves.storageFor {params : List Variable}
    (h : Resolves p globals (params ++ locals) n names env tables)
    (hslots : f.HasSlots n params locals)
    (hvars : GlobalsOf p.name.name (variablesOf p.vars) (varsOf m.globals))
    (hname : names name = some (.var v)) :
    ∃ address content, env.lookup v.name = .ok (.storage address content) ∧
      StorageFor p m f params locals v address content := by
  obtain ⟨-, b, hb, ⟨k, hk, hslot⟩ | ⟨hv, hhidden, hglobal⟩⟩ := h.var name v hname
  · cases hslot with
    | intro hcontent => exact ⟨_, _, hb, hslots.storageFor hk hcontent⟩
  · obtain ⟨init, hinit, hzero⟩ := hvars.mem hv
    cases hglobal with
    | intro hcontent =>
      cases (DataType.target_of_zeroValue hzero).symm.trans hcontent
      exact ⟨_, _, hb, .global hv hhidden (mem_varsOf.mp hinit) hzero⟩

theorem Resolves.functionFor (hwell : p.WellFormed) (hann : p.Annotated annotations)
    (htranslated : Translated p annotations globals s)
    (h : Resolves p globals locals n names env s.tables) (hname : names name = some (.proc sp))
    (hbuiltin : sp.builtin = false) : ∃ index, env.lookup sp.name = .ok (.function index) ∧
      FunctionFor p annotations globals ⟨p.name.name, s.globals, s.functions⟩ s.tables
        (p.finished sp) index := by
  obtain ⟨hframe, -, index, callee, hindex, hglobal, hcallee, hcalled, hresult, hparams, -⟩ :=
    h.proc name sp hname hbuiltin
  obtain ⟨g, hg, rfl⟩ : ∃ g, s.functions[index]? = some g ∧ g.signature = callee := by
    simpa [State.tables] using hcallee
  refine ⟨index, hindex, ?_, hglobal, g, hg, hcalled, hresult, hparams, ?_⟩
  · obtain ⟨decl, hdecl, hdeclName, -⟩ := hwell.frameNames_declared.proc _ _ hframe
    obtain ⟨sp', hframe', hholds⟩ := hann.subprograms decl hdecl
    cases (hdeclName ▸ hframe).symm.trans hframe'
    exact ⟨decl, hdecl, Annotations.symbolOf_of_holds hholds rfl⟩
  · intro front node heading vars stmts back hsplit hdefinition
    obtain ⟨index', f, hindex', hf, -, hgenerated⟩ := htranslated.generated _ _ _ _ _ _ hsplit
    cases (hdefinition ▸ hindex').symm.trans hglobal
    cases hf.symm.trans hg
    exact hgenerated.realizes _ (.refl _)

/-- No two variables have the same storage. -/
theorem StorageFor.injective (hvars : ((variablesOf p.vars).map (·.name)).Nodup)
    (hregs : (f.blocks.flatMap fun b => b.lines.map (·.reg)).Nodup) {w : Variable}
    {address address' : Operand} {content' : Ty}
    (h : StorageFor p m f params locals v address content)
    (h' : StorageFor p m f params locals w address' content') (heq : address = address') :
    v = w := by
  cases h with
  | @slot k reg entry _ hv hentry hline =>
    cases h' with
    | @slot k' reg' entry' _ hw hentry' hline' =>
      obtain ⟨hreg, -⟩ := Operand.reg.inj heq
      cases hentry.symm.trans hentry'
      obtain ⟨rest, hblocks⟩ := List.head?_eq_some_iff.mp hentry
      rw [hblocks, List.flatMap_cons] at hregs
      -- no register is that of two lines
      have hsame : (entry.lines.map (·.reg))[2 * k]? = (entry.lines.map (·.reg))[2 * k']? := by
        simp [hline, hline', hreg]
      have hlt : 2 * k < (entry.lines.map (·.reg)).length := by
        simpa using (List.getElem?_eq_some_iff.mp hline).1
      have hplace := (List.getElem?_inj hlt hregs.of_append_left).mp hsame
      obtain rfl : k = k' := by omega
      exact Option.some.inj (hv.symm.trans hw)
    | global => cases heq
  | global hv =>
    cases h' with
    | slot => cases heq
    | global hw =>
      have hname : v.name = w.name := (String.append_right_inj _).mp (Operand.global.inj heq).1
      exact List.inj_on_of_nodup_map hvars hv hw hname

theorem FunctionFor.frameNames (hwell : p.WellFormed) (hann : p.Annotated annotations)
    (h : FunctionFor p annotations globals m tables sp index) :
    p.frameNames sp.name = some (.proc sp) := by
  obtain ⟨decl, hdecl, hsymbol⟩ := h.declared
  obtain ⟨sp', hframe, hholds⟩ := hann.subprograms decl hdecl
  cases hsymbol.symm.trans (Annotations.symbolOf_of_holds hholds rfl)
  have hname : sp.name = decl.heading.name.name := hwell.frameNames_declared.keyed _ _ hframe
  rw [hname, hframe]

/-- No two subprograms have the same function. -/
theorem FunctionFor.injective (hwell : p.WellFormed) (hann : p.Annotated annotations)
    (htranslated : Translated p annotations globals s) {sp' : Subprogram}
    (h : FunctionFor p annotations globals m tables sp index)
    (h' : FunctionFor p annotations globals m tables sp' index) : sp = sp' := by
  have hname := htranslated.injective _ _ _ h.bound h'.bound
  have hframe := h.frameNames hwell hann
  rw [hname, h'.frameNames hwell hann] at hframe
  cases hframe
  rfl

end

/-- In a module that is accepted, what is looked up for a designator while code is generated is the
storage of exactly the variable that the analysis annotated it with, and what is looked up for a
call is the function of exactly the subprogram. No two variables that a body sees have one storage,
and no two subprograms have one function. -/
theorem names_resolved_alike {p : Program} {source : List Char} {analysis : Analysis}
    (hparse : Program.parse source = .ok p) (hanalyze : p.analyze = .ok analysis)
    (haccepted : analysis.notes.errors = []) :
    ∃ m globals tables, p.lower analysis.notes.annotations = .ok m ∧ m.HasTables tables ∧
      (∀ sp sp' index, FunctionFor p analysis.notes.annotations globals m tables sp index →
        FunctionFor p analysis.notes.annotations globals m tables sp' index → sp = sp') ∧
      ∀ name isMain body, p.HasBody name isMain body → ∃ f ∈ m.functions, f.name = name ∧
        ∃ env s s' value params locals, env.annotations = analysis.notes.annotations ∧
          lowerStmts env body.stmts s = .ok ((), s') ∧
          f.blocks = s'.done ++ [s'.block.closed (.ret value)] ∧
            p.HasVariables isMain body params locals ∧
          (∀ v w address content content', StorageFor p m f params locals v address content →
            StorageFor p m f params locals w address content' → v = w) ∧
          (∀ d, .designator d ∈ partsOfBody body.stmts → ∃ v address content,
            analysis.notes.annotations.symbolOf Symbol.var? d.node.id = .ok v ∧
            env.lookup v.name = .ok (.storage address content) ∧
            StorageFor p m f params locals v address content) ∧
          ∀ c, .call c ∈ partsOfBody body.stmts → ∃ sp,
            analysis.notes.annotations.symbolOf Symbol.proc? c.node.id = .ok sp ∧
            (sp.builtin = false → ∃ index, env.lookup sp.name = .ok (.function index) ∧
              FunctionFor p analysis.notes.annotations globals m tables sp index) := by
  obtain ⟨hwell, hregular, hann⟩ := Program.accepted hparse hanalyze haccepted
  obtain ⟨globals, s, -, hlower, htranslated⟩ := Program.lower_translates hwell hregular hann
  refine ⟨_, globals, s.tables, hlower, ⟨htranslated.named, rfl⟩,
    fun sp sp' index h h' => h.injective hwell hann htranslated h',
      fun name isMain body hbody => ?_⟩
  obtain ⟨f, hf, hname, hgenerated⟩ := htranslated.hasBody hbody
  have hvars : GlobalsOf p.name.name (variablesOf p.vars)
      (varsOf (Llvm.Module.mk p.name.name s.globals s.functions).globals) := htranslated.vars
  obtain ⟨env, s₁, s₂, value, params, locals, n, henv, hrun, hblocks, hvariables, hresolves,
    hslots⟩ :=
    hgenerated.bound _ (.refl _)
  have hannotated {part : Expr} (hpart : part ∈ partsOfBody body.stmts) :=
    hann.annotatedBy hbody.mem (hwell.bodies _ hbody.mem) hpart
  refine ⟨f, hf, hname, env, s₁, s₂, value, params, locals, henv, hrun, hblocks,
    hvariables, ?_, ?_, ?_⟩
  · exact fun v w address content content' h h' =>
      h.injective hwell.vars (hgenerated.complete _ (.refl _)).regs h' rfl
  · intro d hd
    obtain ⟨v, hv, hsymbol⟩ := (hannotated hd).var d rfl
    obtain ⟨address, content, hlookup, hstorage⟩ := hresolves.storageFor hslots hvars hv
    exact ⟨v, address, content, hsymbol, hlookup, hstorage⟩
  · intro c hc
    obtain ⟨sp, hsp, hsymbol⟩ := (hannotated hc).proc c rfl
    refine ⟨p.finished sp, hsymbol, fun hbuiltin => ?_⟩
    obtain ⟨index, hindex, hfunction⟩ := hresolves.functionFor hwell hann htranslated hsp hbuiltin
    exact ⟨index, hindex, hfunction⟩

/-- The body of the module of a text has no variables of its own, so what its designators stand for
is a global. -/
theorem counting_names_resolved : ∃ p analysis m, Program.parse countingText = .ok p ∧
    p.analyze = .ok analysis ∧ p.lower analysis.notes.annotations = .ok m ∧
    ∃ f ∈ m.functions, f.name = "main" ∧ ∃ env s s' value,
      lowerStmts env p.body s = .ok ((), s') ∧
      f.blocks = s'.done ++ [s'.block.closed (.ret value)] ∧
      ∀ d, .designator d ∈ partsOfBody p.body → ∃ v init,
        analysis.notes.annotations.symbolOf Symbol.var? d.node.id = .ok v ∧
        env.lookup v.name = .ok (.storage
          (.global (p.name.name ++ "." ++ v.name) init.ty) init.ty) ∧
        v ∈ variablesOf p.vars ∧ Global.var (p.name.name ++ "." ++ v.name) init ∈ m.globals := by
  obtain ⟨p, analysis, hparse, hanalyze, haccepted⟩ := countingText_accepted
  obtain ⟨m, globals, tables, hlower, -, -, hbodies⟩ := names_resolved_alike hparse hanalyze
    haccepted
  obtain ⟨f, hf, hname, env, s, s', value, params, locals, -, hrun, hblocks, hvariables, -,
    hstorage, -⟩ :=
    hbodies _ _ _ .main
  cases hvariables
  refine ⟨p, analysis, m, hparse, hanalyze, hlower, f, hf, hname, env, s, s', value, hrun,
    hblocks, ?_⟩
  intro d hd
  obtain ⟨v, address, content, hsymbol, hlookup, hfor⟩ := hstorage d hd
  cases hfor with
  | slot hv => cases hv
  | @global init hv _ hinit => exact ⟨v, init, hsymbol, hlookup, hv, hinit⟩

end Oberlet
