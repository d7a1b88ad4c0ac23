import Oberlet.Proofs.Compilation
import Oberlet.Proofs.Eval.Expr

/-!
# Expressions are evaluated from left to right

The lines that are added to a block for an expression load the same variables and call the same
functions as its evaluation, in the same order.
-/

namespace Oberlet

open Llvm Lowering Lower Eval

/-! ## Lines that are added -/

/-- The lines that code adds to the block at hand. Stack slots go to the first block. -/
def Lowering.State.added (s : State) (code : List Instr) : List Line :=
  if s.done.isEmpty then number s.nextReg code else workOf (number s.nextReg code)

/-- One state comes from another by adding code to the block at hand. -/
structure Gains (s : State) (code : List Instr) (s' : State) : Prop where
  id : s'.block.id = s.block.id
  lines : s'.block.lines = s.block.lines ++ s.added code
  slots : s.done ≠ [] → slotsOf (number s.nextReg code) ⊆ s'.entry.lines
  tables : s.tables.Le s'.tables

variable {s s' : State} {code : List Instr}

theorem Lowering.Emitted.gains (h : Emitted s code s') : Gains s code s' := by
  have hblock : s'.block = (s.place code).block := congrArg (·.block) h.place
  have hdone : s'.done = (s.place code).done := congrArg (·.done) h.place
  have htables := h.tables
  obtain ⟨_, _, _, _, _, _, done, _, _⟩ := s
  cases done with
  | nil =>
    rw [State.place] at hblock
    exact ⟨by rw [hblock], by rw [hblock]; rfl, fun hne => (hne rfl).elim, htables⟩
  | cons entry rest =>
    rw [State.place] at hblock hdone
    refine ⟨by rw [hblock], by rw [hblock]; rfl, fun _ => ?_, htables⟩
    rw [State.entry, hdone]
    exact List.subset_append_right _ _

theorem Gains.ended (h : Gains s code s') (term : Terminator) : Gains s code (s'.ended term) := by
  refine ⟨h.id, h.lines, fun hne => ?_, h.tables⟩
  have hentry : (s'.ended term).entry.lines = s'.entry.lines := by
    rw [State.entry, State.entry, State.ended]
    cases s'.done <;> rfl
  rw [hentry]
  exact h.slots hne

/-! ## What is generated does what an evaluation does -/

/-- Registers hold the addresses of stack slots: of those of variables, and of all others that the
first block makes, apart from those that `lines` make. -/
structure Allocated {π : Primitives} (k : CodeSetting) (entry : Block) (lines : List Line)
    (regs : Regs π) : Prop where
  known : ∀ name v reg, k.names name = some (.var v) → k.place v.name = some (.slot reg) →
    regs reg = some (.address ⟨.slot reg, []⟩)
  others : ∀ line ∈ slotsOf entry.lines, line ∉ lines →
    regs line.reg = some (.address ⟨.slot line.reg, []⟩)

/-- A computation adds lines to the block at hand that do what an action does: whatever the
operations on REAL and STRING values, the subprograms and the memory are, the lines come to an end
as the action does, with the same loads and calls, unless the action is undefined. Then `Q` holds.
-/
def Performs {α : Type} {β : Primitives → Type} (moduleName : String) (names : Names) (env : Env)
    (limit : Nat) (s : State) (m : Lower α)
    (action : ∀ π σ, Reference π σ → Action π σ (β π))
    (Q : ∀ π, List String → α → β π → Regs π → Prop) : Prop :=
  ∃ v s' lines, m s = .ok (v, s') ∧ s'.block.id = s.block.id ∧
    s'.block.lines = s.block.lines ++ lines ∧
    ∀ tables, s'.tables.Le tables →
      ∀ (π : Primitives) (σ : Type) (oracle : Oracle π σ) (r : Reference π σ),
      r = (env.setting names tables).reference moduleName oracle → r.Respected →
      ∀ regs w w', Allocated (env.setting names tables) s'.entry lines regs → r.Typed w →
        Seen limit w w' →
        Agrees limit (action π σ r w) (execute oracle tables.strings lines regs w')
          fun a w₁ regs₁ w₁' => Q π tables.strings v a regs₁ ∧ r.Typed w₁ ∧ Seen limit w₁ w₁' ∧
            ∀ reg < s.nextReg, regs₁ reg = regs reg

variable {env : Env} {limit : Nat} {moduleName : String} {names : Names}

theorem Hosts.sound {tables : Tables} (h : Hosts moduleName names env limit tables) {π : Primitives}
    {σ : Type} {oracle : Oracle π σ} {apart : Bool}
    (hrespected : ((env.setting names tables).reference moduleName oracle).Respected) :
    (Context.mk (env.setting names tables) moduleName limit oracle apart).Sound where
  var := h.var
  proc name sp hname hbuiltin := by
    obtain ⟨-, index, callee, hindex, hcallee, hcalled, -⟩ := h.proc name sp hname hbuiltin
    exact ⟨index, callee, hindex, hcallee, hcalled⟩
  builtin := h.builtin
  respected := hrespected

theorem Gains.performs {α : Type} {β : Primitives → Type} {m : Lower α} {v : α}
    {action : ∀ π σ, Reference π σ → Action π σ (β π)}
    {Q : ∀ π, List String → α → β π → Regs π → Prop} (hgains : Gains s code s')
    (hruns : m s = .ok (v, s')) (hhosts : Hosts moduleName names env limit s.tables)
    (hlimit : limit ≤ s.nextReg)
    (hexecutes : ∀ tables, s'.tables.Le tables → ∀ (π : Primitives) (σ : Type) (c : Context π σ),
      c.setting = env.setting names tables → c.limit = limit → c.Sound →
      c.Executes (fun _ => True) s.nextReg code (action π σ c.reference) (Q π c.strings v)) :
    Performs moduleName names env limit s m action Q := by
  refine ⟨v, s', s.added code, hruns, hgains.id, hgains.lines, fun tables hle π σ oracle r => ?_⟩
  rintro rfl hrespected regs w w' hallocated htyped hseen
  let c : Context π σ := ⟨env.setting names tables, moduleName, limit, oracle, !s.done.isEmpty⟩
  have hhosts := hhosts.mono (Nat.le_refl limit) (hgains.tables.trans hle)
  have hlines : c.lines s.nextReg code = s.added code := by
    rw [Context.lines, State.added]
    cases hdone : s.done.isEmpty <;> simp [c, hdone]
  have hbefore : c.Before s.nextReg code regs w w' := by
    refine ⟨hlimit, fun name x reg hname hplace => ?_, fun hapart line hline => ?_, hseen, htyped⟩
    · refine ⟨?_, hallocated.known name x reg hname hplace⟩
      obtain ⟨-, b, hb, hstores⟩ := hhosts.var name x hname
      have hb : (env.setting names tables).binding x.name = .ok b := hb
      have hplace : (env.setting names tables).place x.name = some (.slot reg) := hplace
      rw [CodeSetting.place, hb] at hplace
      cases hstores with
      | global => cases hplace
      | slot hslot =>
        cases hplace
        exact hslot
    · -- a slot that is made apart is in the first block and not among the lines
      have hdone : s.done ≠ [] := by simpa [c] using hapart
      obtain ⟨-, hslot⟩ := List.mem_filter.mp hline
      refine hallocated.others line (List.mem_filter.mpr ⟨hgains.slots hdone hline, hslot⟩) ?_
      rw [← hlines, Context.lines, if_pos hapart]
      intro hmem
      have := (List.mem_filter.mp hmem).2
      simp [hslot] at this
  have hagrees := hexecutes tables hle π σ c rfl rfl
    (hhosts.sound hrespected) regs w w' trivial hbefore
  rw [hlines] at hagrees
  exact hagrees.imp fun a w₁ regs₁ w₁' h =>
    ⟨h.2, h.1.typed, h.1.seen, fun reg hreg => h.1.kept reg (.inl hreg)⟩

section

variable {p : Program} {t : DataType}

/-- The code of an expression does what its evaluation does. -/
theorem HasType.performs {e : Expr} (ht : HasType names e t) (hgenerated : e.Generated names env t)
    (hhosts : Hosts moduleName names env limit s.tables) (hlimit : limit ≤ s.nextReg) :
    Performs moduleName names env limit s (e.lower env) (fun _ _ r => e.eval r)
      fun _ strings v a regs => a.Fits t ∧ v.Is strings a regs := by
  obtain ⟨code, v, s', hemits, hcode⟩ := hgenerated s hhosts.ready
  refine hemits.emitted.gains.performs hemits.runs hhosts hlimit ?_
  rintro tables hle π σ c hsetting rfl hsound
  have hcode : ExprCode c.setting e s.nextReg code v := hsetting ▸ (hcode tables hle).1
  have ht : HasType c.setting.names e t := hsetting ▸ ht
  exact (ht.executed hsound hlimit hcode).2

theorem Call.HasResult.performs {call : Call Expr} (ht : call.HasResult names t)
    (hann : ∀ part ∈ (Expr.call call).parts, part.AnnotatedBy p names env.annotations)
    (hhosts : Hosts moduleName names env limit s.tables) (hlimit : limit ≤ s.nextReg) :
    Performs moduleName names env limit s (call.lower env) (fun _ _ r => call.eval r)
      fun _ strings v result regs => t ≠ .void →
        ∃ w a, v = some w ∧ result = some a ∧ a.Fits t ∧ w.Is strings a regs := by
  -- either way, the code is that of the call
  obtain ⟨code, v, s', hruns, hgains, hcode⟩ : ∃ code v s', call.lower env s = .ok (v, s') ∧
      Gains s code s' ∧ ∀ tables, s'.tables.Le tables →
        CallCode (env.setting names tables) call s.nextReg code v := by
    cases hhalts : names.halts call.callee.name with
    | false =>
      obtain ⟨code, v, s', hemits, hcode⟩ := Call.lower_code hhosts.ready
        (hann _ (Expr.self_mem_parts _)) ht hhalts (ht.generated hann)
      exact ⟨code, v, s', hemits.runs, hemits.emitted.gains, fun tables hle => (hcode tables hle).1⟩
    | true =>
      obtain ⟨code, s', hruns, hemitted, hcode⟩ := Call.lower_halt hhosts.ready hhalts ht hann
      exact ⟨code, none, _, hruns, hemitted.gains.ended _, hcode⟩
  refine hgains.performs hruns hhosts hlimit ?_
  rintro tables hle π σ c hsetting rfl hsound
  have hcode : CallCode c.setting call s.nextReg code v := hsetting ▸ hcode tables hle
  have ht : call.HasResult c.setting.names t := hsetting ▸ ht
  exact ht.executed hsound hlimit hcode

/-- In an assignment the address is found before the value. -/
theorem Stmt.assign_performs (node : Node) {target : Designator Expr} {value : Expr}
    (htarget : HasType names (.designator target) t) (hvalue : HasType names value t)
    (hann : ∀ part ∈ (Stmt.assign node target value).parts,
      part.AnnotatedBy p names env.annotations)
    (hhosts : Hosts moduleName names env limit s.tables) (hlimit : limit ≤ s.nextReg) :
    Performs moduleName names env limit s ((Stmt.assign node target value).lower env)
      (fun _ _ r => evalAssign r target value) fun _ _ _ _ _ => True := by
  obtain ⟨code, _, s', hemits, hcode⟩ := Stmt.assign_code node hhosts.ready htarget hvalue hann
  refine hemits.emitted.gains.performs hemits.runs hhosts hlimit ?_
  rintro tables hle π σ c hsetting rfl hsound
  have hcode : EventCode c.setting env.isMain (.assign target value) s.nextReg code [] :=
    hsetting ▸ hcode tables hle
  have htarget : HasType c.setting.names (.designator target) t := hsetting ▸ htarget
  have hvalue : HasType c.setting.names value t := hsetting ▸ hvalue
  cases hcode with
  | assign hfront hback => exact hfront.executed_assign hsound htarget hvalue hlimit hback

end

/-! ## Statements inside of others -/

/-- A statement stands somewhere in others. -/
inductive Stmt.Within (stmt : Stmt) : List Stmt → Prop
  | here {stmts : List Stmt} : stmt ∈ stmts → Within stmt stmts
  | branch {stmts : List Stmt} {node : Node} {branches : List (Branch Stmt)}
      {otherwise : Option (List Stmt)} {branch : Branch Stmt} :
        .ite node branches otherwise ∈ stmts →
      branch ∈ branches → Within stmt branch.body → Within stmt stmts
  | otherwise {stmts : List Stmt} {node : Node} {branches : List (Branch Stmt)} {body : List Stmt} :
      .ite node branches (some body) ∈ stmts → Within stmt body → Within stmt stmts
  | loop {stmts : List Stmt} {node : Node} {cond : Expr} {body : List Stmt} :
      .loop node cond body ∈ stmts → Within stmt body → Within stmt stmts

theorem Stmt.Within.parts {stmt : Stmt} {stmts : List Stmt} (h : stmt.Within stmts) :
    stmt.parts ⊆ partsOfBody stmts := by
  have hmem {outer : Stmt} {stmts : List Stmt} (houter : outer ∈ stmts) :
      outer.parts ⊆ partsOfBody stmts := forall_partsOfBody.mp (List.Subset.refl _) outer houter
  induction h with
  | here hstmt => exact hmem hstmt
  | @branch _ _ _ otherwise branch houter hbranch _ ih =>
    refine List.Subset.trans ih (List.Subset.trans (fun part hpart => ?_) (hmem houter))
    have hpart := (forall_partsOfBranches.mp (List.Subset.refl _) branch hbranch).2 _ hpart
    cases otherwise with
    | none => exact hpart
    | some body => exact List.mem_append_left _ hpart
  | otherwise houter _ ih =>
    exact List.Subset.trans ih (List.Subset.trans (List.subset_append_right _ _) (hmem houter))
  | loop houter _ ih =>
    exact List.Subset.trans ih (List.Subset.trans (List.subset_append_right _ _) (hmem houter))

theorem Stmt.Within.wellTyped {result : DataType} {stmt : Stmt} {stmts : List Stmt}
    (h : stmt.Within stmts) {inLoop : Bool}
    (hwell : ∀ stmt ∈ stmts, stmt.WellTyped names result inLoop) :
    ∃ inLoop, stmt.WellTyped names result inLoop := by
  induction h generalizing inLoop with
  | here hstmt => exact ⟨inLoop, hwell _ hstmt⟩
  | branch houter hbranch _ ih =>
    cases hwell _ houter with
    | ite _ hbranches _ => exact ih (hbranches _ hbranch)
  | otherwise houter _ ih =>
    cases hwell _ houter with
    | ite _ _ hotherwise => exact ih (hotherwise _ rfl)
  | loop houter _ ih =>
    cases hwell _ houter with
    | loop _ hbody => exact ih hbody

/-! ## Modules -/

/-- In a module that is accepted, each expression that has a value is generated as lines that
perform its evaluation, from left to right, and whose operand gets the value. The same holds of
calls, and of assignments, where the address is found before the value. This is so wherever in the
body the code is generated: inside of any loops, and with whatever code before it. -/
theorem expressions_evaluated {p : Program} {source : List Char} {analysis : Analysis}
    (hparse : Program.parse source = .ok p) (hanalyze : p.analyze = .ok analysis)
    (haccepted : analysis.notes.errors = []) :
    ∃ m, p.lower analysis.notes.annotations = .ok m ∧
      ∀ name isMain body, p.HasBody name isMain body → ∃ f ∈ m.functions, f.name = name ∧
        ∃ env s s' value, env.annotations = analysis.notes.annotations ∧
          lowerStmts env body.stmts s = .ok ((), s') ∧
          f.blocks = s'.done ++ [s'.block.closed (.ret value)] ∧
          ∀ inner s₁, (∃ exits, inner = { env with loopExits := exits }) → s.tables.Le s₁.tables →
            s.nextReg ≤ s₁.nextReg →
            (∀ e ∈ partsOfBody body.stmts, ∀ t, analysis.notes.annotations.typeOf e.id = .ok t →
              t ≠ .void → Performs p.name.name body.names inner s.nextReg s₁ (e.lower inner)
                (fun _ _ r => e.eval r) fun _ strings v a regs => a.Fits t ∧ v.Is strings a regs) ∧
            (∀ c, .call c ∈ partsOfBody body.stmts → ∀ t,
              analysis.notes.annotations.typeOf (Expr.call c).id = .ok t →
              Performs p.name.name body.names inner s.nextReg s₁ (c.lower inner)
                (fun _ _ r => c.eval r) fun _ strings v result regs => t ≠ .void →
                  ∃ w a, v = some w ∧ result = some a ∧ a.Fits t ∧ w.Is strings a regs) ∧
            ∀ node target e, (Stmt.assign node target e).Within body.stmts →
              Performs p.name.name body.names inner s.nextReg s₁
                ((Stmt.assign node target e).lower inner) (fun _ _ r => evalAssign r target e)
                fun _ _ _ _ _ => True := by
  obtain ⟨hwell, hregular, hann⟩ := Program.accepted hparse hanalyze haccepted
  obtain ⟨m, tables, hlower, -, hbodies⟩ := Program.lower_realizes hwell hregular hann
  refine ⟨m, hlower, fun name isMain body hbody => ?_⟩
  obtain ⟨f, hf, hname, env, s, s', value, prologue, henv, -, hhosts, hrun, -, -, hblocks, -⟩ :=
    hbodies name isMain body hbody
  refine ⟨f, hf, hname, env, s, s', value, henv, hrun, hblocks, ?_⟩
  rintro _ s₁ ⟨exits, rfl⟩ hle hlimit
  have hhosts : Hosts p.name.name body.names { env with loopExits := exits } s.nextReg
    s₁.tables := by
    have := hhosts.mono (Nat.le_refl _) hle
    exact ⟨this.var, this.proc, this.builtin⟩
  have htyped := hwell.bodies _ hbody.mem
  have hannotated {part : Expr} (hpart : part ∈ partsOfBody body.stmts) :
      part.AnnotatedBy p body.names env.annotations :=
    henv ▸ hann.annotatedBy hbody.mem htyped hpart
  refine ⟨fun e he t ht hvoid => ?_, fun c hc t ht => ?_, fun node target e hstmt => ?_⟩
  · have ht := ((hannotated he).type t).mp (henv ▸ ht)
    have ht := ht.hasType hvoid
    exact ht.performs (hann.generated hbody.mem htyped he ht henv) hhosts hlimit
  · have ht := ((hannotated hc).type t).mp (henv ▸ ht)
    have hparts := (parts_sublist_body _ hc).subset
    exact ht.hasResult.performs (fun part hpart => hannotated (hparts hpart)) hhosts hlimit
  · obtain ⟨_, hassign⟩ := hstmt.wellTyped htyped
    cases hassign with
    | assign htarget hvalue =>
      exact Stmt.assign_performs node htarget hvalue
        (fun part hpart => hannotated (hstmt.parts hpart)) hhosts hlimit

theorem counting_types {p : Program} (hparse : Program.parse countingText = .ok p) :
    (∀ v ∈ variablesOf p.vars, v.type = .array 3 .integer) ∧
      ∀ decl ∈ p.subprograms, decl.heading.result = .integer := by
  have htypes : ((Program.parse countingText).toOption.all fun p =>
      (variablesOf p.vars).all (·.type == .array 3 .integer) &&
        p.subprograms.all (·.heading.result == .integer)) = true := by decide +kernel
  rw [hparse] at htypes
  simpa [Except.toOption] using htypes

/-- REAL and STRING values that are all the same. -/
def Eval.Primitives.unit : Primitives where
  Real := Unit
  Str := Unit
  real _ := ()
  neg _ := ()
  arith _ _ _ := ()
  compare _ _ _ := true
  ofInt _ := ()
  toInt _ := 0
  text _ := ()
  order _ _ := 0

/-- An oracle whose functions return zero. -/
def Eval.Oracle.zero : Oracle Primitives.unit Unit where
  call _ _ globals _ := some (some (.int 0), globals, ())
  print _ _ _ := ()
  read format _ := (if format = "%d" then .int 0 else .real (), ())

/-- A memory of arrays of zeros. -/
def Eval.World.zeros (size : Nat) : World Primitives.unit Unit where
  globals _ := .array (.replicate size (.int 0))
  slots _ := .array (.replicate size (.int 0))
  outside := ()
  trace := []

/-- The expressions in the body of the module of a text, where code generation for the body begins.
There is an oracle that respects types, and a memory that holds values of the right ones. -/
theorem counting_expressions_evaluated : ∃ p analysis m, Program.parse countingText = .ok p ∧
    p.analyze = .ok analysis ∧ p.lower analysis.notes.annotations = .ok m ∧
    ∃ f ∈ m.functions, f.name = "main" ∧ ∃ env s s' value,
      lowerStmts env p.body s = .ok ((), s') ∧
      f.blocks = s'.done ++ [s'.block.closed (.ret value)] ∧
      (∀ e ∈ partsOfBody p.body, ∀ t, analysis.notes.annotations.typeOf e.id = .ok t → t ≠ .void →
        Performs p.name.name p.mainBody.names env s.nextReg s (e.lower env) (fun _ _ r => e.eval r)
          fun _ strings v a regs => a.Fits t ∧ v.Is strings a regs) ∧
      ∀ tables r, r = (env.setting p.mainBody.names tables).reference p.name.name Oracle.zero →
        r.Respected ∧ r.Typed (.zeros 3) ∧ Seen s.nextReg (World.zeros 3) (.zeros 3) := by
  obtain ⟨p, analysis, hparse, hanalyze, haccepted⟩ := countingText_accepted
  obtain ⟨m, hlower, hbodies⟩ := expressions_evaluated hparse hanalyze haccepted
  obtain ⟨f, hf, hname, env, s, s', value, -, hrun, hblocks, hperforms⟩ := hbodies _ _ _ .main
  refine ⟨p, analysis, m, hparse, hanalyze, hlower, f, hf, hname, env, s, s', value, hrun, hblocks,
    (hperforms env s ⟨env.loopExits, rfl⟩ (.refl _) (Nat.le_refl _)).1, ?_⟩
  rintro tables _ rfl
  obtain ⟨hwell, -, -⟩ := Program.accepted hparse hanalyze haccepted
  obtain ⟨hvars, hresults⟩ := counting_types hparse
  refine ⟨⟨?_, fun _ => .int, fun _ => .real⟩, fun name v root hname _ => ?_, rfl,
    fun _ _ => rfl, rfl, rfl⟩
  · intro name sp hname hbuiltin args globals outside result globals' outside' _ hcall
    cases hcall
    refine ⟨fun _ => ⟨_, rfl, ?_⟩, fun _ _ _ _ _ h => h⟩
    rcases hwell.proc_of_body Program.HasBody.main.mem hname with ⟨hmem, -⟩ | ⟨-, -, -, hframe⟩
    · rw [(Subprogram.flags_of_mem_builtins hmem).1] at hbuiltin
      cases hbuiltin
    · obtain ⟨decl, hdecl, -, hsp⟩ := hwell.frameNames_declared.proc _ _ hframe
      have hresult : sp.result = decl.heading.result := congrArg Subprogram.result hsp
      rw [hresult, hresults decl hdecl]
      exact .int
  · obtain ⟨hv, -⟩ := Program.var_of_frame hname
    have hzeros : (Value.array (.replicate 3 (.int 0)) : Value Primitives.unit).Fits v.type := by
      rw [hvars v hv]
      exact .array rfl fun x hx => List.eq_of_mem_replicate hx ▸ .int
    cases root <;> exact hzeros

end Oberlet
