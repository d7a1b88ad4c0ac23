import Oberlet.Proofs.Lowering.Declare

/-!
# Code generation for bodies

The first block of a function begins with code that fills the stack slots of its parameters and
local variables.
-/

namespace Oberlet

open Llvm Lowering Lower

/-- A block that is ended with `term` unless it has ended. -/
def Llvm.Block.closed (b : Block) (term : Terminator) : Block :=
  { b with term := some (b.term.getD term) }

/-- Blocks do what a body does: following them from the first one on, one meets the code that fills
the stack slots, and then the code of the events of the body. -/
structure Implements (k : CodeSetting) (isMain : Bool) (stmts : List Stmt) (prologue : List Line)
    (blocks : List Block) : Prop where
  ids : (blocks.map (·.id)).Nodup
  stores : ∀ line ∈ prologue, ∃ v address, line.instr = .store v address
  follows : ∃ entry, blocks.head?.map (·.id) = some entry ∧
    ∀ answers events outcome, BodyRuns k.names.halts stmts answers events outcome →
      ∃ items, Renders k isMain events items ∧
        Follows blocks (.start entry) answers (prologue.map .line ++ items) outcome

theorem Extends.self (s : State) : Extends (s.done ++ [s.block]) s where
  done b hb := ⟨b, List.mem_append_left _ hb, rfl, rfl, rfl⟩
  block := ⟨.point [] s.block.term, .intro (by simp) rfl (by simp)⟩
  ended _ := ⟨s.block, by simp, rfl, rfl, rfl⟩

variable {n : Nat} {env : Env} {limit : Nat} {moduleName : String} {names : Names}
  {tables tables' : Tables} {globals : Scope} {p : Program} {locals : List Variable}

theorem store_of_mem_workOf {code : List Instr} (h : Setup code) {line : Line}
    (hline : line ∈ workOf (number n code)) : ∃ v address, line.instr = .store v address := by
  induction code generalizing n with
  | nil => cases hline
  | cons instr rest ih =>
    rw [Setup, List.forall_mem_cons] at h
    rw [number, workOf, List.filter_cons] at hline
    split at hline
    · rcases List.mem_cons.mp hline with rfl | hline
      · rename_i hwork
        refine h.1.resolve_left ?_
        simpa using hwork
      · exact ih h.2 hline
    · exact ih h.2 hline

section

variable {result : DataType} {s s₁ s₂ : State} {code : List Instr} {entry : Nat} {stem : String}

theorem Compiles.ids {behavior : Behavior} {m : Lower Unit} (hdone : s.done = [])
    (hblock : s.block = .empty entry stem) (hentry : s.nextBlock = entry + 1)
    (hemitted : Emitted s code s₁) (h : Compiles names env result behavior m s₁ s₂) :
    ∃ new, s₂.ids = entry :: new ∧ Fresh (entry + 1) s₂.nextBlock new := by
  obtain ⟨new, hcontinues, hfresh⟩ := h.continues
  rw [hemitted.nextBlock, hentry] at hfresh
  refine ⟨new, ?_, hfresh⟩
  have hopen : s.block.term = none := by rw [hblock]; rfl
  rw [hcontinues.ids, (hemitted.continues hopen).ids, State.ids, State.blocks, hdone, hblock]
  rfl

/-- From there on the blocks do what the statements of the body do. -/
theorem Compiles.implements {stmts : List Stmt} (hdone : s.done = [])
    (hblock : s.block = .empty entry stem) (hentry : s.nextBlock = entry + 1)
    (hemitted : Emitted s code s₁) (hsetup : Setup code)
    (h : Compiles names env result (runStmts names.halts stmts) (lowerStmts env stmts) s₁ s₂)
    {tables : Tables} (hle : s₂.tables.Le tables) :
    Implements (env.setting names tables) env.isMain stmts (workOf (number s.nextReg code))
      (s₂.done ++ [s₂.block]) := by
  obtain ⟨new, hids, hfresh⟩ := h.ids hdone hblock hentry hemitted
  have hnodup : s₂.ids.Nodup := hids ▸ ((Fresh.single entry).append hfresh).nodup
  refine ⟨hnodup, fun line hline => store_of_mem_workOf hsetup hline, entry, ?_, ?_⟩
  · rw [← List.head?_map]
    exact congrArg List.head? hids
  · intro answers events outcome hruns
    have hextends := Extends.self s₂
    -- the last block is open exactly if the body can run off its end
    obtain ⟨next, hgoes, hnext⟩ : ∃ next, Goes (s₂.done ++ [s₂.block]) s₂ next ∧
        ∀ place, next = some place → place = .point [] none := by
      cases hterm : s₂.block.term with
      | none =>
        refine ⟨some (.point [] none), ⟨hterm, ?_⟩, fun _ heq => (Option.some.inj heq).symm⟩
        rw [← hterm]
        exact .intro (by simp) rfl (by simp)
      | some term => exact ⟨none, by simp [Goes, hterm], by simp⟩
    obtain ⟨_, hplace, hsim⟩ := h.simulates tables hle _ hextends next hgoes
    cases hplace with
    | @intro b lines hb hid hlines =>
    have hat := hemitted.at (.intro hb hid hlines)
    rw [hblock] at hat
    have hstart := (hat.leads answers).trans (.lines _ lines b.term answers)
    cases hruns with
    | fellOff hrun =>
      obtain ⟨items, hrenders, place, rfl, hleads⟩ := hsim _ _ _ hrun
      cases hnext place rfl
      have hend := hleads [] .fellOff .fellOff
      rw [List.append_nil] at hend
      exact ⟨items, hrenders, hstart _ _ hend⟩
    | stop hrun =>
      obtain ⟨items, hrenders, hfollows⟩ := hsim _ _ _ hrun
      exact ⟨items, hrenders, hstart _ _ hfollows⟩

end

/-! ## Bindings -/

/-- Code can be generated for a body: the variables that it sees have storage, made before the
register `limit`, and its subprograms have functions. -/
structure Hosts (moduleName : String) (names : Names) (env : Env) (limit : Nat) (tables : Tables) :
    Prop where
  var : ∀ name v, names name = some (.var v) → v.type.Proper ∧
    ∃ b, env.lookup v.name = .ok b ∧ Stores limit v b
  proc : ∀ name sp, names name = some (.proc sp) → sp.builtin = false → sp.result.ProperResult ∧
    ∃ index callee, env.lookup sp.name = .ok (.function index) ∧
      tables.signatures[index]? = some callee ∧ callee.name = functionName moduleName sp.name ∧
      sp.result.target = .ok callee.result
  builtin : ∀ name sp, names name = some (.proc sp) → sp.builtin = true →
    sp ∈ Subprogram.builtins

theorem Hosts.ready (h : Hosts moduleName names env limit tables) : Ready names env tables where
  var name v hname := by
    obtain ⟨hproper, b, hb, hstores⟩ := h.var name v hname
    obtain ⟨address, content, rfl, hty, haddress⟩ := hstores.storage
    exact ⟨hproper, address, content, hb, hty, haddress⟩
  proc name sp hname hbuiltin := by
    obtain ⟨hresult, index, callee, hindex, hcallee, -, hty⟩ := h.proc name sp hname hbuiltin
    exact ⟨hresult, index, callee, hindex, hcallee, hty⟩
  builtin := h.builtin

theorem Hosts.mono {limit' : Nat} (h : Hosts moduleName names env limit tables)
    (hlimit : limit ≤ limit') (hle : tables.Le tables') :
    Hosts moduleName names env limit' tables' where
  var name v hname := by
    obtain ⟨hproper, b, hb, hstores⟩ := h.var name v hname
    exact ⟨hproper, b, hb, hstores.mono hlimit⟩
  proc name sp hname hbuiltin := by
    obtain ⟨hresult, index, callee, hindex, hcallee, hcalled⟩ := h.proc name sp hname hbuiltin
    exact ⟨hresult, index, callee, hindex, hle.getElem?_signatures hcallee, hcalled⟩
  builtin := h.builtin

/-- The variables and subprograms of a module are bound in its scope. -/
structure Linked (p : Program) (globals : Scope) (tables : Tables) : Prop where
  vars : ∀ v ∈ variablesOf p.vars, ∃ b, List.lookup v.name globals = some b ∧
    GlobalAt p.name.name v b
  procs : ∀ name sp, p.frameNames name = some (.proc sp) → Callable p.name.name globals tables sp

theorem Linked.mono (h : Linked p globals tables) (hle : tables.Le tables') :
    Linked p globals tables' :=
  ⟨h.vars, fun name sp hname => (h.procs name sp hname).mono hle⟩

theorem Declares.linked {s : State} (hwell : p.WellFormed)
    (h : Declares p p.subprograms globals s) : Linked p globals s.tables := by
  refine ⟨h.vars, fun name sp hname => ?_⟩
  obtain ⟨decl, hdecl, rfl, -⟩ := hwell.frameNames_declared.proc name sp hname
  exact h.procs decl hdecl sp hname

theorem Lowering.Env.lookup_of_findSome? {name : String} {b : Binding}
    (h : env.scopes.findSome? (List.lookup name) = some b) : env.lookup name = .ok b := by
  rw [Env.lookup, h]
  rfl

/-- The names of a body are bound to what was made for exactly what they stand for: stack slots from
the register `n` on for the variables of the body, globals for those of the module that these do not
hide, and functions. -/
structure Resolves (p : Program) (globals : Scope) (locals : List Variable) (n : Nat)
    (names : Names) (env : Env) (tables : Tables) : Prop where
  var : ∀ name v, names name = some (.var v) → v.type.Proper ∧ ∃ b, env.lookup v.name = .ok b ∧
    ((∃ k, locals[k]? = some v ∧ SlotAt n k v b) ∨
      v ∈ variablesOf p.vars ∧ (∀ w ∈ locals, w.name ≠ v.name) ∧ GlobalAt p.name.name v b)
  proc : ∀ name sp, names name = some (.proc sp) → sp.builtin = false →
    p.frameNames sp.name = some (.proc (p.finished sp)) ∧ sp.result.ProperResult ∧
    ∃ index callee, env.lookup sp.name = .ok (.function index) ∧
      List.lookup sp.name globals = some (.function index) ∧
      tables.signatures[index]? = some callee ∧ callee.name = functionName p.name.name sp.name ∧
      sp.result.target = .ok callee.result ∧ TargetTypes sp.params callee.params ∧
      callee.variadic = false
  builtin : ∀ name sp, names name = some (.proc sp) → sp.builtin = true →
    sp ∈ Subprogram.builtins

theorem Resolves.mono (h : Resolves p globals locals n names env tables) (hle : tables.Le tables') :
    Resolves p globals locals n names env tables' where
  var := h.var
  proc name sp hname hbuiltin := by
    obtain ⟨hframe, hresult, index, callee, hindex, hglobal, hcallee, hcalled⟩ :=
      h.proc name sp hname hbuiltin
    exact ⟨hframe, hresult, index, callee, hindex, hglobal, hle.getElem?_signatures hcallee,
      hcalled⟩
  builtin := h.builtin

theorem Resolves.hosts (h : Resolves p globals locals n names env tables) :
    Hosts p.name.name names env (n + 2 * locals.length) tables where
  var name v hname := by
    obtain ⟨hproper, b, hb, ⟨k, hk, hslot⟩ | ⟨-, -, hglobal⟩⟩ := h.var name v hname
    · have hlt := (List.getElem?_eq_some_iff.mp hk).1
      exact ⟨hproper, b, hb, hslot.stores (by omega)⟩
    · exact ⟨hproper, b, hb, hglobal.stores _⟩
  proc name sp hname hbuiltin := by
    obtain ⟨-, hresult, index, callee, hindex, -, hcallee, hcalled, hty, -⟩ :=
      h.proc name sp hname hbuiltin
    exact ⟨hresult, index, callee, hindex, hcallee, hcalled, hty⟩
  builtin := h.builtin

/-- The scopes of a body resolve its names. -/
theorem Linked.resolves (hwell : p.WellFormed) (hregular : p.Regular) {body : Body}
    (hbody : body ∈ p.bodies) {locals : List VarDecl} {front : List SubprogramDecl}
    (hnames : body.names = (Names.ofVars locals).within ((p.frameBehind front).within p.outerNames))
    (hlocals : ∀ decl ∈ locals, decl.type.Proper)
    (hnodup : ((variablesOf locals).map (·.name)).Nodup) {scope : Scope}
    (hlinked : Linked p globals tables) (hbinds : Binds (SlotAt n) (variablesOf locals) scope)
    (henv : ∀ name, env.scopes.findSome? (List.lookup name) =
      (List.lookup name scope).or (List.lookup name globals)) :
    Resolves p globals (variablesOf locals) n body.names env tables := by
  -- a name that the body does not declare is looked up in the module
  have houter {name : String} (hnone : Names.ofVars locals name = none) {b : Binding}
      (hb : List.lookup name globals = some b) : env.lookup name = .ok b := by
    have hscope : List.lookup name scope = none := by
      refine hbinds.lookup_eq_none fun hmem => ?_
      obtain ⟨v, hv, rfl⟩ := List.mem_map.mp hmem
      exact (Names.foldl_bind_eq_none.mp hnone).1 (.var v) (List.mem_map_of_mem hv) rfl
    refine Env.lookup_of_findSome? ?_
    rw [henv, hscope]
    exact hb
  refine ⟨fun name v hname => ?_, fun name sp hname hbuiltin => ?_,
    fun name sp hname hbuiltin => ?_⟩
  · rw [hnames] at hname
    rcases Names.within_eq_some.mp hname with hlocal | ⟨hnone, hframe⟩
    · obtain ⟨w, hw, heq, -⟩ := Names.mem_of_ofVars hlocal
      cases heq
      obtain ⟨k, hk⟩ := List.mem_iff_getElem?.mp hw
      obtain ⟨b, hb, hslot⟩ := hbinds.lookup hnodup hk
      refine ⟨type_proper_of_mem hlocals hw, b, Env.lookup_of_findSome? ?_, .inl ⟨k, hk, hslot⟩⟩
      rw [henv, hb]
      rfl
    · obtain ⟨hv, rfl⟩ := Program.var_of_frame hframe
      obtain ⟨b, hb, hglobal⟩ := hlinked.vars v hv
      refine ⟨type_proper_of_mem hregular.vars hv, b, houter hnone hb,
        .inr ⟨hv, fun w hw heq => ?_, hglobal⟩⟩
      exact (Names.foldl_bind_eq_none.mp hnone).1 (.var w) (List.mem_map_of_mem hw) heq.symm
  · rcases hwell.proc_of_body hbody hname with ⟨hmem, -⟩ | ⟨-, -, rfl, hframe⟩
    · rw [(Subprogram.flags_of_mem_builtins hmem).1] at hbuiltin
      cases hbuiltin
    · obtain ⟨-, hresult, -⟩ := hwell.proc_proper hregular hframe
      obtain ⟨index, callee, hindex, hcallee, hcalled⟩ := hlinked.procs _ _ hframe
      have hfinished :
          p.finished sp = { sp with defined := Program.defines p.subprograms sp.name } := by
        simp [Program.finished, hbuiltin]
      refine ⟨hfinished ▸ hframe, hresult, index, callee, houter ?_ hindex, hindex, hcallee,
        hcalled⟩
      rw [hnames] at hname
      rcases Names.within_eq_some.mp hname with hlocal | ⟨hnone, -⟩
      · obtain ⟨_, -, heq, -⟩ := Names.mem_of_ofVars hlocal
        cases heq
      · exact hnone
  · rcases hwell.proc_of_body hbody hname with ⟨hmem, -⟩ | ⟨hfalse, -⟩
    · exact hmem
    · rw [hfalse] at hbuiltin
      cases hbuiltin

end Oberlet
