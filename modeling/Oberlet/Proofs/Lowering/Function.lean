import Oberlet.Proofs.Lowering.Body
import Oberlet.Proofs.Lowering.History

/-!
# The function of a body

A function is begun with an empty block. The statements of a body are generated behind the code that
fills the stack slots, and in the end the last block returns unless it has ended.
-/

namespace Oberlet

open Llvm Lowering Lower

/-! ## States -/

namespace Lowering.State

def begun (s : State) (index : Nat) : State :=
  { s with
    nextBlock := s.nextBlock + 1
    function := index
    done := []
    block := .empty s.nextBlock "entry"
    edits := s.edits ++ [(s.nextBlock, .start)] }

def closed (s : State) (term : Terminator) : State :=
  match s.block.term with
  | some _ => s
  | none => s.ended term

def finished (s : State) : State :=
  { s with
    functions := s.functions.modify s.function fun f => { f with blocks := s.done ++ [s.block] } }

end Lowering.State

variable {s : State} {f : Function} {index : Nat} {s' : State} {env : Env} {globals : Scope}
  {locals : List Variable} {p : Program} {values : List Operand} {Γ : FunctionSetting}
  {value : Option Operand} {body : Body} {isMain : Bool} {annotations : Annotations}
  {vars : List Variable}

theorem Lowering.State.closed_of_some {last : Terminator} (h : s.block.term = some last)
    (term : Terminator) : s.closed term = s := by
  rw [closed, h]

theorem Lowering.State.closed_of_none (h : s.block.term = none) (term : Terminator) :
    s.closed term = s.ended term := by
  rw [closed, h]

theorem Lowering.State.closed_eq (s : State) (term : Terminator) :
    ∃ edits, s.closed term = { s with block := s.block.closed term, edits := edits } := by
  cases hterm : s.block.term with
  | some last =>
    have hblock : s.block.closed term = s.block := by
      rw [Block.closed, hterm, Option.getD_some, ← hterm]
    exact ⟨s.edits, by rw [closed_of_some hterm, hblock]⟩
  | none =>
    refine ⟨s.edits ++ [(s.block.id, .finish term)], ?_⟩
    rw [closed_of_none hterm, Block.closed, hterm]
    rfl

theorem map_signature_modify (functions : List Function) (index : Nat) {g : Function → Function}
    (hg : ∀ f, (g f).signature = f.signature) :
    (functions.modify index g).map (·.signature) = functions.map (·.signature) := by
  refine List.ext_getElem? fun i => ?_
  simp only [List.getElem?_map, List.getElem?_modify]
  cases functions[i]? with
  | none => rfl
  | some f => by_cases h : index = i <;> simp [h, hg]

theorem Lowering.State.tables_finished (s : State) : s.finished.tables = s.tables :=
  congrArg (Tables.mk s.strings) (map_signature_modify _ _ fun _ => rfl)

theorem Lower.run_beginFunction (hf : s.functions[index]? = some f) (hblank : f.blocks = []) :
    Lower.beginFunction index s = .ok ((), s.begun index) := by
  have hblocks : (s.functions[index]?.map (·.blocks)).getD [] = [] := by rw [hf]; exact hblank
  have hrun : Lower.beginFunction index s = .ok ((), { s with
      nextBlock := s.nextBlock + 1
      function := index
      done := (s.functions[index]?.map (·.blocks)).getD []
      block := .empty s.nextBlock "entry"
      edits := s.edits ++ [(s.nextBlock, .start)] }) := rfl
  rw [hrun, hblocks]
  rfl

/-- All functions but one stay what they are, and those that are added are of the host. Only blocks
with new ids are worked on. -/
structure Keeps (index : Nat) (s s' : State) : Prop where
  tables : s.tables.Le s'.tables
  named : s.Named → s'.Named
  ordinary : s.tables.Ordinary → s'.tables.Ordinary
  vars : varsOf s'.globals = varsOf s.globals
  others : ∀ i f, i ≠ index → s.functions[i]? = some f → s'.functions[i]? = some f
  only : ∀ i f, i ≠ index → s'.functions[i]? = some f →
    s.functions[i]? = some f ∨ ∃ r : Runtime, f = r.function
  nextBlock : s.nextBlock ≤ s'.nextBlock
  edits : ∃ more, s'.edits = s.edits ++ more ∧
    ∀ edit ∈ more, s.nextBlock ≤ edit.1 ∧ edit.1 < s'.nextBlock

theorem Keeps.trans {s'' : State} (h : Keeps index s s') (h' : Keeps index s' s'') :
    Keeps index s s'' where
  tables := h.tables.trans h'.tables
  named hnamed := h'.named (h.named hnamed)
  ordinary hordinary := h'.ordinary (h.ordinary hordinary)
  vars := h'.vars.trans h.vars
  others i f hi hf := h'.others i f hi (h.others i f hi hf)
  only i f hi hf := (h'.only i f hi hf).elim (fun hf => h.only i f hi hf) .inr
  nextBlock := Nat.le_trans h.nextBlock h'.nextBlock
  edits := by
    obtain ⟨more, hmore, hids⟩ := h.edits
    obtain ⟨more', hmore', hids'⟩ := h'.edits
    refine ⟨more ++ more', by rw [hmore', hmore, List.append_assoc], fun edit hedit => ?_⟩
    have hle := h.nextBlock
    have hle' := h'.nextBlock
    rcases List.mem_append.mp hedit with hedit | hedit
    · have := hids edit hedit
      omega
    · have := hids' edit hedit
      omega

theorem Continues.keeps {new : List Nat} (h : Continues (s.begun index) new s') (term : Terminator)
    (hedits : ∃ more, (s'.closed term).edits = s.edits ++ more ∧
      ∀ edit ∈ more, s.nextBlock ≤ edit.1 ∧ edit.1 < s'.nextBlock) :
    Keeps index s (s'.closed term).finished ∧ ∀ f, s.functions[index]? = some f →
      (s'.closed term).finished.functions[index]? =
        some { f with blocks := (s'.closed term).blocks } := by
  have hlast {i : Nat} {g : Function} (hg : s.functions[i]? = some g) : s'.functions[i]? = some g :=
    h.getElem?_functions hg
  have hfunction : s'.function = index := h.function
  have htables := (s'.closed term).tables_finished
  obtain ⟨edits, hclosed⟩ := s'.closed_eq term
  rw [hclosed] at htables hedits ⊢
  refine ⟨⟨?_, h.named, ?_, h.vars, fun i g hi hg => ?_, fun i g hi hg => ?_, ?_, hedits⟩,
    fun f hf => ?_⟩
  · rw [htables]
    exact h.tables
  · rw [htables]
    exact h.ordinary
  · have hi : s'.function ≠ i := hfunction ▸ Ne.symm hi
    exact (List.getElem?_modify_ne _ _ hi).trans (hlast hg)
  · have hi : s'.function ≠ i := hfunction ▸ Ne.symm hi
    have hg : s'.functions[i]? = some g := (List.getElem?_modify_ne _ _ hi).symm.trans hg
    rcases Nat.lt_or_ge i s.functions.length with hlt | hge
    · have hold := List.getElem?_eq_getElem hlt
      exact .inl (hold.trans ((hlast hold).symm.trans hg))
    · exact .inr (h.declared i g hge hg)
  · exact Nat.le_trans (Nat.le_succ _) h.nextBlock
  · subst hfunction
    refine (List.getElem?_modify_eq ..).trans ?_
    change _ <$> s'.functions[s'.function]? = _
    rw [hlast hf]
    rfl

/-! ## Storage -/

theorem Resolves.suits {n : Nat} {names : Names} {tables : Tables}
    (h : Resolves p globals locals n names env tables) (hle : tables.Le Γ.tables)
    (hglobals : GlobalsOf p.name.name (variablesOf p.vars) Γ.vars)
    (hvalues : TargetTypes locals (values.map (·.ty))) {result : DataType}
    (hreturns : Γ.Returns env result) :
    Suits Γ (slotsOf (number n (slotCode n values))) names env result := by
  refine ⟨hreturns, h.hosts.ready.mono hle, fun v hv => .inl hv.known, ?_, ?_⟩
  · intro name v address content hname haddress
    obtain ⟨-, b, hb, hstorage⟩ := h.var name v hname
    cases haddress.symm.trans hb
    rcases hstorage with ⟨k, hk, hslot⟩ | ⟨hv, -, hglobal⟩
    · cases hslot with
      | intro hcontent =>
        obtain ⟨ty, hty, htarget⟩ := exists_getElem?_of_forall₂ hvalues hk
        rw [List.getElem?_map] at hty
        obtain ⟨value, hvalue, rfl⟩ := Option.map_eq_some_iff.mp hty
        cases htarget.symm.trans hcontent
        have hslot := (getElem?_slotCode (n := n) hvalue).1
        exact .inr ⟨_, List.mem_filter.mpr ⟨List.mem_of_getElem? hslot, rfl⟩, rfl⟩
    · cases hglobal with
      | intro hcontent =>
        obtain ⟨init, hinit, hzero⟩ := hglobals.mem hv
        refine .inl ⟨init, hinit, ?_⟩
        exact Except.ok.inj ((DataType.target_of_zeroValue hzero).symm.trans hcontent)
  · intro name sp index callee hname hbuiltin hindex hcallee
    obtain ⟨-, -, index', callee', hindex', -, hcallee', hcalled, -, hparams, hvariadic⟩ :=
      h.proc name sp hname hbuiltin
    cases hindex.symm.trans hindex'
    cases hcallee.symm.trans (hle.getElem?_signatures hcallee')
    refine ⟨hparams, hvariadic, fun r heq => ?_⟩
    exact functionName_ne_reserved r.name_mem (hcalled.symm.trans heq)

/-! ## Complete functions -/

/-- The blocks of a function are complete: they have different ids and registers, each of them was
ended once, and branches lead to blocks other than the first. All that they use is there. -/
structure Complete (Γ : FunctionSetting) (edits : List (Nat × Edit)) (blocks : List Block) :
    Prop where
  ids : (blocks.map (·.id)).Nodup
  regs : (blocks.flatMap fun b => b.lines.map (·.reg)).Nodup
  ended : ∀ b ∈ blocks, b.term.isSome
  told : Told edits blocks
  leads : LeadTo (· ∈ blocks.tail.map (·.id)) blocks
  valid : BlocksValid Γ blocks
  guards : ∀ b ∈ blocks, Guards Γ.tables.strings b.lines

/-- What a function returns where its body runs off the end: a constant of its type, or nothing. -/
def Llvm.Ty.Defaults (result : Ty) : Option Operand → Prop
  | none => result = .void
  | some value => value.ty = result ∧ result ≠ .void ∧ ∀ strings, value.Constant strings

theorem Llvm.Ty.Defaults.wellTyped {result : Ty} (h : result.Defaults value) :
    (Terminator.ret value).WellTyped result := by
  cases value with
  | none => exact h
  | some value => exact ⟨h.1, h.2.1⟩

theorem Llvm.Ty.Defaults.known (h : Γ.result.Defaults value) :
    ∀ v ∈ (Terminator.ret value).operands, v.Known Γ := by
  cases value with
  | none => simp [Terminator.operands]
  | some value => exact List.forall_mem_singleton.mpr (h.2.2 _).known

theorem Lowering.State.ids_closed (s : State) (term : Terminator) :
    (s.closed term).ids = s.ids := by
  obtain ⟨edits, hclosed⟩ := s.closed_eq term
  rw [hclosed, State.ids, State.ids, State.blocks, State.blocks, List.map_append, List.map_append]
  rfl

section

variable {names : Names} {result : DataType} {behavior : Behavior} {m : Lower Unit} {s₁ s₂ : State}

theorem Lowering.Emitted.entry_begun {code : List Instr} (h : Emitted (s.begun index) code s₁) :
    s₁.entry.lines = number s.nextReg code := by
  cases h.added with
  | first _ hdone hblock =>
    rw [State.entry, hdone, hblock]
    rfl
  | later hdone => cases hdone

theorem guards_slotCode (strings : List String) (n : Nat) (values : List Operand) :
    Guards strings (number n (slotCode n values)) := by
  induction values generalizing n with
  | nil => exact .nil
  | cons value rest ih =>
    change Guards strings (number n [.alloca value.ty] ++ (number (n + 1) [.store value
      (.reg n (.ptr value.ty))] ++ number (n + 2) (slotCode (n + 2) rest)))
    exact .append (.single trivial) (.append (.single trivial) (ih _))

/-- A function is generated in steps from its empty block. -/
theorem Compiles.function_steps
    (hemitted : Emitted (s.begun index) (slotCode s.nextReg values) s₁)
    (h : Compiles names env result behavior m s₁ s₂) (hle : s₂.tables.Le Γ.tables)
    (hvalues : ∀ v ∈ values, v.Known Γ)
    (hsuits : Suits Γ (slotsOf (number s.nextReg (slotCode s.nextReg values))) names env result)
    (hvalue : Γ.result.Defaults value) :
    Steps Γ (Target env s₁ s₂) (s.begun index) s₁ ∧
      Steps Γ (Target env s₁ s₂) s₁ (s₂.closed (.ret value)) := by
  obtain ⟨new, hcontinues, -⟩ := h.continues
  have hbegin : Steps Γ (Target env s₁ s₂) (s.begun index) s₁ :=
    .single (.code rfl hemitted (hcontinues.tables.trans hle)
      (closed_slotCode fun v hv => .inl (hvalues v hv)) (guards_slotCode _ _ _))
  have hslots : s₁.slots = slotsOf (number s.nextReg (slotCode s.nextReg values)) := by
    rw [State.slots, hemitted.entry_begun]
  have hbody := h.steps Γ _ hsuits (hslots ▸ List.Subset.refl _) hle
  refine ⟨hbegin, ?_⟩
  cases hterm : s₂.block.term with
  | some last =>
    rw [State.closed_of_some hterm]
    exact hbody
  | none =>
    rw [State.closed_of_none hterm]
    refine hbody.tail (.finish hterm hvalue.wellTyped (fun v hv => .inl (hvalue.known v hv)) ?_)
    simp [Terminator.targets]

/-- In the end the function is complete. -/
theorem Compiles.complete (hedits : ∀ edit ∈ s.edits, edit.1 < s.nextBlock)
    (hemitted : Emitted (s.begun index) (slotCode s.nextReg values) s₁)
    (h : Compiles names env result behavior m s₁ s₂) (hexits : env.loopExits = [])
    (hsteps : Steps Γ (Target env s₁ s₂) (s.begun index) (s₂.closed (.ret value))) :
    Complete Γ (s₂.closed (.ret value)).edits (s₂.closed (.ret value)).blocks := by
  obtain ⟨new, hids, hfresh⟩ := h.ids rfl rfl rfl hemitted
  have hids' : (s₂.closed (.ret value)).ids = s.nextBlock :: new := (s₂.ids_closed _).trans hids
  have hall : Fresh s.nextBlock s₂.nextBlock (s₂.closed (.ret value)).ids :=
    hids' ▸ (Fresh.single s.nextBlock).append hfresh
  have hchronicled : Chronicled s.nextBlock (s.begun index) := by
    refine ⟨fun edit hedit => ?_, by simp [State.begun], ⟨[], by simp, ?_⟩, by simp⟩
    · rcases List.mem_append.mp hedit with hedit | hedit
      · exact .inr (hedits edit hedit)
      · rw [List.mem_singleton.mp hedit]
        exact .inl List.mem_cons_self
    · have hnone : editsOf s.edits s.nextBlock = [] :=
        editsOf_eq_nil fun edit hedit => (hedits edit hedit).ne
      have hstart : editsOf (s.begun index).edits s.nextBlock = [.start] := by
        rw [State.begun, editsOf_append, hnone, editsOf_single]
        rfl
      change (Block.empty s.nextBlock "entry").Made [] (editsOf (s.begun index).edits s.nextBlock)
      rw [hstart]
      exact .still rfl rfl
  have hend := Steps.chronicled hsteps hchronicled hall.nodup fun id hid => (hall.range id hid).1
  have hlast : (s₂.closed (.ret value)).block.term.isSome := by
    obtain ⟨edits, hclosed⟩ := s₂.closed_eq (.ret value)
    rw [hclosed]
    rfl
  refine ⟨hall.nodup, ?_, ?_, hend.told, ?_, ?_, ?_⟩
  · exact (Steps.numbered hsteps ⟨.nil, by simp [State.regs, State.begun, Block.empty]⟩).nodup
  · intro b hb
    rcases List.mem_append.mp hb with hb | hb
    · exact hend.ended b hb
    · rw [List.mem_singleton.mp hb]
      exact hlast
  · have hleads := Steps.leadTo hsteps (List.forall_mem_singleton.mpr
      (by simp [State.begun, Block.empty]))
    intro b hb term hterm target htarget
    -- outside of loops, only blocks are targets that were started since
    rcases hleads b hb term hterm target htarget with hexit | ⟨hge, hmem⟩
    · rw [hexits] at hexit
      cases hexit
    · have hnext : s₁.nextBlock = s.nextBlock + 1 := hemitted.nextBlock
      rw [List.map_tail]
      change target ∈ (s₂.closed (.ret value)).ids.tail
      rw [hids']
      rw [hids] at hmem
      exact (List.mem_cons.mp hmem).resolve_left (by omega)
  · exact Steps.blocksValid hsteps ⟨⟨trivial, by simp [State.begun, Block.empty]⟩, by simp⟩
  · exact Steps.guards hsteps (List.forall_mem_singleton.mpr .nil)

end

/-! ## Bodies -/

def Program.definitionBody (p : Program) (front : List SubprogramDecl) (node : Node)
    (heading : Heading) (vars : List VarDecl) (stmts : List Stmt) : Body where
  names := (Names.ofVars (heading.params ++ vars)).within
    ((p.frameBehind (front ++ [.definition node heading vars stmts])).within p.outerNames)
  result := heading.result
  stmts := stmts

/-- The bodies of a module, by the names of their functions. One is that of the module itself. -/
inductive Program.HasBody (p : Program) : String → Bool → Body → Prop
  | main : HasBody p "main" true p.mainBody
  | definition {front back : List SubprogramDecl} {node : Node} {heading : Heading}
      {vars : List VarDecl} {stmts : List Stmt} :
      p.subprograms = front ++ .definition node heading vars stmts :: back →
      HasBody p (functionName p.name.name heading.name.name) false
        (p.definitionBody front node heading vars stmts)

theorem bodiesOf_append (outer frame : Names) (front back : List SubprogramDecl) :
    bodiesOf outer frame (front ++ back) =
      bodiesOf outer frame front ++ bodiesOf outer (front.foldl Names.declare frame) back := by
  induction front generalizing frame with
  | nil => rfl
  | cons decl rest ih =>
    simp only [List.cons_append, bodiesOf, ih, List.foldl_cons, List.append_assoc]

theorem Program.HasBody.mem {name : String} (h : p.HasBody name isMain body) : body ∈ p.bodies := by
  cases h with
  | main => exact List.mem_append_right _ (List.mem_singleton_self _)
  | definition hsplit =>
    refine List.mem_append_left _ ?_
    rw [hsplit, bodiesOf_append]
    refine List.mem_append_right _ (List.mem_append_left _ ?_)
    rw [Program.definitionBody, Program.frameBehind, List.foldl_append]
    exact List.mem_singleton_self _

/-- The parameters and the local variables of a body. The body of the module has neither. -/
inductive Program.HasVariables (p : Program) : Bool → Body → List Variable → List Variable → Prop
  | main : HasVariables p true p.mainBody [] []
  | definition {front back : List SubprogramDecl} {node : Node} {heading : Heading}
      {vars : List VarDecl} {stmts : List Stmt} :
      p.subprograms = front ++ .definition node heading vars stmts :: back →
      HasVariables p false (p.definitionBody front node heading vars stmts)
        (variablesOf heading.params)
        (variablesOf vars)

/-- The first block of a function begins with the stack slots of its variables, from the register
`n` on. Parameters get what is passed, and local variables their initial values. -/
def Llvm.Function.HasSlots (f : Function) (n : Nat) (params locals : List Variable) : Prop :=
  ∃ values entry, TargetTypes params (f.params.map (·.ty)) ∧ ZeroValues locals values ∧
    f.blocks.head? = some entry ∧
    number n (slotCode n (paramValues 0 (f.params.map (·.ty)) ++ values)) <+: entry.lines

/-- A function is what was generated for a body: all names of the body were bound, its statements
were generated, outside of any loop, and the blocks do what the statements do. -/
inductive Realizes (p : Program) (annotations : Annotations) (body : Body) (isMain : Bool)
    (tables : Tables) (f : Function) : Prop
  | intro (env : Env) (s s' : State) (value : Option Operand) (prologue : List Line) :
      env.annotations = annotations → env.isMain = isMain →
      Hosts p.name.name body.names env s.nextReg s.tables →
      lowerStmts env body.stmts s = .ok ((), s') → s.tables.Le s'.tables → s'.tables.Le tables →
      f.blocks = s'.done ++ [s'.block.closed (.ret value)] →
      Implements (env.setting body.names tables) isMain body.stmts prologue
        (s'.done ++ [s'.block]) →
      env.loopExits = [] →
      Realizes p annotations body isMain tables f

/-- The statements of a body were generated where its names are bound to what was made for them: the
stack slots of its function, and what the scope of the module holds. -/
inductive Scoped (p : Program) (annotations : Annotations) (globals : Scope) (body : Body)
    (isMain : Bool) (tables : Tables) (f : Function) : Prop
  | intro (env : Env) (s s' : State) (value : Option Operand) (params locals : List Variable)
    (n : Nat) :
      env.annotations = annotations → lowerStmts env body.stmts s = .ok ((), s') →
      f.blocks = s'.done ++ [s'.block.closed (.ret value)] →
        p.HasVariables isMain body params locals →
      Resolves p globals (params ++ locals) n body.names env tables → f.HasSlots n params locals →
      Scoped p annotations globals body isMain tables f

/-- In a state, a function has been generated for a body. Its parameters have the names that the
body knows them by. -/
structure Generated (p : Program) (annotations : Annotations) (globals : Scope) (body : Body)
    (isMain : Bool) (s : State) (f : Function) : Prop where
  realizes : ∀ tables, s.tables.Le tables → Realizes p annotations body isMain tables f
  bound : ∀ tables, s.tables.Le tables → Scoped p annotations globals body isMain tables f
  complete : ∀ tables, s.tables.Le tables →
    Complete (f.setting tables (varsOf s.globals)) s.edits f.blocks
  fresh : ∀ b ∈ f.blocks, b.id < s.nextBlock
  params : ∃ params locals, p.HasVariables isMain body params locals ∧
    f.params.map (·.name) = params.map (·.name)

theorem Complete.append {edits more : List (Nat × Edit)} {blocks : List Block}
    (h : Complete Γ edits blocks) (hmore : ∀ edit ∈ more, ∀ b ∈ blocks, edit.1 ≠ b.id) :
    Complete Γ (edits ++ more) blocks :=
  ⟨h.ids, h.regs, h.ended, h.told.append hmore, h.leads, h.valid, h.guards⟩

theorem Generated.blocks_ne_nil (h : Generated p annotations globals body isMain s f) :
    f.blocks ≠ [] := by
  obtain ⟨_, _, _, _, _, -, -, -, -, -, -, hblocks, -⟩ := h.realizes _ (.refl _)
  simp [hblocks]

/-- What has been generated is kept while others follow. -/
theorem Generated.mono (h : Generated p annotations globals body isMain s f)
    (hkeeps : Keeps index s s') : Generated p annotations globals body isMain s' f where
  realizes tables hle := h.realizes tables (hkeeps.tables.trans hle)
  bound tables hle := h.bound tables (hkeeps.tables.trans hle)
  complete tables hle := by
    obtain ⟨more, hmore, hids⟩ := hkeeps.edits
    rw [hkeeps.vars, hmore]
    refine (h.complete tables (hkeeps.tables.trans hle)).append fun edit hedit b hb => ?_
    have := hids edit hedit
    have := h.fresh b hb
    omega
  fresh b hb := Nat.lt_of_lt_of_le (h.fresh b hb) hkeeps.nextBlock
  params := h.params

theorem paramValues_known (Γ : FunctionSetting) : ∀ v ∈ paramValues 0 Γ.params, v.Known Γ := by
  intro v hv
  obtain ⟨k, hk⟩ := List.mem_iff_getElem?.mp hv
  rw [getElem?_paramValues] at hk
  obtain ⟨ty, hty, rfl⟩ := Option.map_eq_some_iff.mp hk
  rw [Nat.zero_add]
  exact hty

theorem ZeroValues.constant (h : ZeroValues vars values) (strings : List String) :
    ∀ v ∈ values, v.Constant strings := by
  induction h with
  | nil => simp
  | cons hvalue _ ih =>
    exact List.forall_mem_cons.mpr ⟨DataType.constant_of_zeroValue hvalue strings, ih⟩

theorem ZeroValues.types (h : ZeroValues vars values) : TargetTypes vars (values.map (·.ty)) := by
  induction h with
  | nil => exact .nil
  | cons hvalue _ ih => exact .cons (DataType.target_of_zeroValue hvalue) ih

theorem map_ty_paramValues (i : Nat) (tys : List Ty) : (paramValues i tys).map (·.ty) = tys := by
  induction tys generalizing i with
  | nil => rfl
  | cons ty rest ih =>
    rw [paramValues, List.map_cons, ih]
    rfl

/-- The function of a body has the code of the body. -/
theorem Compiles.generated {s₁ s₂ : State} {params : List Variable}
    (hf : s.functions[index]? = some f) (hedits : ∀ edit ∈ s.edits, edit.1 < s.nextBlock)
    (hglobals : GlobalsOf p.name.name (variablesOf p.vars) (varsOf s.globals))
    (hvariables : p.HasVariables env.isMain body params locals)
    (hparams : f.params.map (·.name) = params.map (·.name))
    (htypes : TargetTypes params (f.params.map (·.ty))) (hvalues : ZeroValues locals values)
    (hemitted : Emitted (s.begun index) (slotCode s.nextReg (paramValues 0 (f.params.map (·.ty)) ++
      values)) s₁)
    (hresolves : Resolves p globals (params ++ locals) s.nextReg body.names env s₁.tables)
    (hexits : env.loopExits = []) (hmain : env.isMain = true → f.result = .i32)
    (hresult : env.isMain = false → body.result.target = .ok f.result)
    (hvalue : f.result.Defaults value)
    (h : Compiles body.names env body.result (runStmts body.names.halts body.stmts) (lowerStmts env
      body.stmts) s₁ s₂) :
    Keeps index s (s₂.closed (.ret value)).finished ∧
      ∃ f', (s₂.closed (.ret value)).finished.functions[index]? = some f' ∧ f'.name = f.name ∧
        Generated p env.annotations globals body env.isMain
          (s₂.closed (.ret value)).finished f' := by
  obtain ⟨new, hnew, -⟩ := h.continues
  have hcontinues := (hemitted.continues rfl).trans hnew
  have htables := (s₂.closed (.ret value)).tables_finished
  have hall : TargetTypes (params ++ locals)
      ((paramValues 0 (f.params.map (·.ty)) ++ values).map (·.ty)) := by
    rw [List.map_append, map_ty_paramValues]
    exact List.rel_append htypes hvalues.types
  have hnext : s₁.nextReg = s.nextReg + 2 * (params ++ locals).length := by
    rw [hemitted.nextReg, length_slotCode, hall.length_eq, List.length_map]
    rfl
  have hhosts := hnext ▸ hresolves.hosts
  -- the steps of the whole function, whatever is declared later on
  have hsteps (tables : Tables) (hle : s₂.tables.Le tables) :=
    h.function_steps (Γ := f.setting tables (varsOf s.globals)) hemitted hle
      (List.forall_mem_append.mpr ⟨paramValues_known (f.setting tables (varsOf s.globals)),
        fun v hv => (hvalues.constant _ v hv).known⟩)
      (hresolves.suits (hnew.tables.trans hle) hglobals hall ⟨hmain, hresult⟩) hvalue
  have hcomplete (tables : Tables) (hle : s₂.tables.Le tables) :=
    h.complete hedits hemitted hexits ((hsteps tables hle).1.trans (hsteps tables hle).2)
  have hids : ∀ id ∈ (s₂.closed (.ret value)).ids, s.nextBlock ≤ id ∧ id < s₂.nextBlock := by
    obtain ⟨new, hids, hfresh⟩ := h.ids rfl rfl rfl hemitted
    rw [State.ids_closed, hids]
    exact ((Fresh.single s.nextBlock).append hfresh).range
  obtain ⟨hkeeps, hfunction⟩ := hcontinues.keeps (.ret value) <| by
    obtain ⟨hbegin, hrest⟩ := hsteps s₂.tables (.refl _)
    obtain ⟨more, hmore, hmem⟩ := Steps.edits (hbegin.trans hrest)
    refine ⟨(s.nextBlock, .start) :: more, hmore.trans (List.append_assoc _ _ _), ?_⟩
    refine List.forall_mem_cons.mpr ⟨hids _ ?_, fun edit hedit => hids _ (hmem edit hedit)⟩
    exact (Steps.ids (hbegin.trans hrest)).subset List.mem_cons_self
  obtain ⟨edits, hclosed⟩ := s₂.closed_eq (.ret value)
  have hblocks : (s₂.closed (.ret value)).blocks = s₂.done ++ [s₂.block.closed (.ret value)] := by
    rw [hclosed]
  refine ⟨hkeeps, _, hfunction f hf, rfl, fun tables hle => ?_, fun tables hle => ?_,
    fun tables hle => ?_, fun b hb => ?_, params, locals, hvariables, hparams⟩
  · rw [htables, hclosed] at hle
    exact .intro env s₁ s₂ value _ rfl rfl hhosts h.runs hnew.tables hle hblocks
      (h.implements rfl rfl rfl hemitted (setup_slotCode _ _) hle) hexits
  · rw [htables, hclosed] at hle
    refine .intro env s₁ s₂ value params locals s.nextReg rfl h.runs hblocks hvariables
      (hresolves.mono (hnew.tables.trans hle))
      ⟨values, _, htypes, hvalues, (s₂.closed (.ret value)).head?_blocks, ?_⟩
    rw [← hemitted.entry_begun]
    exact Steps.entry (hsteps s₂.tables (.refl _)).2
  · rw [htables, hclosed] at hle
    rw [hkeeps.vars]
    exact hcomplete tables hle
  · rw [hclosed] at hids
    rw [hclosed] at hb ⊢
    exact (hids b.id (List.mem_map_of_mem hb)).2

end Oberlet
