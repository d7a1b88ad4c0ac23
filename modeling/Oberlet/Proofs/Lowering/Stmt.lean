import Oberlet.Proofs.Lowering.Step

/-!
# Code generation for statements

Code generation proceeds in steps, and branches only to blocks that it starts itself, or to the one
behind the innermost loop.
-/

namespace Oberlet

open Llvm Lowering Lower Continues

/-- The place behind what has been generated, if code can still be added. -/
def Goes (blocks : List Block) (s : State) : Option Place → Prop
  | none => s.block.term.isSome
  | some place => s.block.term = none ∧ s.block.At blocks place

/-- Where branches may lead that are generated between two states: to a block that was started
since, or behind the innermost loop. -/
def Target (env : Env) (s s' : State) (target : Nat) : Prop :=
  env.loopExits.head? = some target ∨ s.nextBlock ≤ target ∧ target ∈ s'.ids

variable {env : Env}

theorem Target.mono {s s₁ s₂ s' : State} {target : Nat} (h : Target env s₁ s₂ target)
    (hnext : s.nextBlock ≤ s₁.nextBlock) (hids : s₂.ids ⊆ s'.ids) : Target env s s' target :=
  h.imp_right fun h => ⟨Nat.le_trans hnext h.1, hids h.2⟩

/-- A computation generates code, in new blocks if need be, that behaves as `behavior` says. -/
structure Compiles (names : Names) (env : Env) (result : DataType) (behavior : Behavior)
    (m : Lower Unit) (s s' : State) : Prop where
  runs : m s = .ok ((), s')
  continues : ∃ new, Continues s new s' ∧ Fresh s.nextBlock s'.nextBlock new
  simulates : ∀ tables, s'.tables.Le tables → ∀ blocks, Extends blocks s' →
    ∀ next, Goes blocks s' next → ∃ place, s.block.At blocks place ∧
      Simulates (env.setting names tables) env.isMain blocks behavior place next env.loopExits.head?
  steps : ∀ Γ slots, Suits Γ slots names env result → slots ⊆ s.slots → s'.tables.Le Γ.tables →
    Steps Γ (Target env s s') s s'

/-- Code can be generated wherever a block is open and names are bound to what they stand for. -/
def Compilable (names : Names) (env : Env) (result : DataType) (behavior : Behavior)
    (m : Lower Unit) : Prop :=
  ∀ s, Ready names env s.tables → s.block.term = none →
    ∃ s', Compiles names env result behavior m s s'

abbrev Stmt.Compilable (names : Names) (env : Env) (result : DataType) (stmt : Stmt) : Prop :=
  Oberlet.Compilable names env result (stmt.run names.halts) (stmt.lower env)

abbrev BodyCompilable (names : Names) (env : Env) (result : DataType) (body : List Stmt) : Prop :=
  Compilable names env result (runStmts names.halts body) (lowerStmts env body)

theorem Lower.run_startBlock (s : State) (id : Nat) (stem : String) :
    startBlock id stem s = .ok ((), s.started id stem) := rfl

section Leaves

variable {names : Names} {result : DataType} {s s₁ : State} {m : Lower Unit} {code : List Instr}

theorem Compiles.step {event : Event} (hopen : s.block.term = none)
    (h : Generates m s fun tables code _ =>
      EventCode (env.setting names tables) env.isMain event s.nextReg code [])
    (hclosed : ∀ tables P code, Typed names env tables P →
      EventCode (env.setting names tables) env.isMain event s.nextReg code [] →
      Closed P s.nextReg code) :
    ∃ s', Compiles names env result (.Step event) m s s' := by
  obtain ⟨code, _, s', hemits, hcode⟩ := h
  have hemitted := hemits.emitted
  refine ⟨s', hemits.runs, ⟨[], hemitted.continues hopen, .nil ?_⟩, ?_, ?_⟩
  · exact (hemitted.continues hopen).nextBlock
  · intro tables hle blocks hextends next hgoes
    have hopen' : s'.block.term = none := hemitted.block.2.1.trans hopen
    cases next with
    | none => simp [Goes, hopen'] at hgoes
    | some place =>
      cases hgoes.2 with
      | intro hb hid hlines =>
        refine ⟨_, hemitted.at (.intro hb hid hlines), ?_⟩
        exact .step (hcode tables hle) _ _ _
  · intro Γ slots hsuits hslots hle
    exact .single (.code hopen hemitted hle (hclosed Γ.tables _ code (hsuits.visible hslots)
      (hcode Γ.tables hle)) ((hcode Γ.tables hle).guards hsuits.typed.foreign))

theorem Compiles.last {behavior : Behavior} {term : Terminator} (hopen : s.block.term = none)
    (hruns : m s = .ok ((), s₁.ended term)) (hemitted : Emitted s code s₁)
    (h : ∀ tables, s₁.tables.Le tables → ∀ blocks,
      Simulates (env.setting names tables) env.isMain blocks behavior
        (.point (workOf (number s.nextReg code)) (some term)) none env.loopExits.head?)
    (hclosed : ∀ (Γ : FunctionSetting) P, Γ.Returns env result → Typed names env Γ.tables P →
      s₁.tables.Le Γ.tables →
      Closed P s.nextReg code ∧ Guards Γ.tables.strings (number s.nextReg code) ∧
        term.WellTyped Γ.result ∧ ∀ v ∈ term.operands, Behind P s.nextReg code v)
    (htargets : ∀ target ∈ term.targets, env.loopExits.head? = some target) :
    ∃ s', Compiles names env result behavior m s s' := by
  have hopen₁ : s₁.block.term = none := hemitted.block.2.1.trans hopen
  have hcontinues := (hemitted.continues hopen).trans (.finish hopen₁ term)
  refine ⟨_, hruns, ⟨[], hcontinues, .nil hcontinues.nextBlock⟩, ?_, ?_⟩
  · intro tables hle blocks hextends next hgoes
    have hat := hemitted.at (hextends.ended rfl).at
    rw [List.append_nil] at hat
    exact ⟨_, hat, (h tables hle blocks).of_none next⟩
  · intro Γ slots hsuits hslots hle
    obtain ⟨hcode, hguards, hterm, hoperands⟩ :=
      hclosed Γ _ hsuits.toReturns (hsuits.visible hslots) hle
    exact .last hopen hemitted hle hcode hguards hterm hoperands fun target htarget =>
      .inl (htargets target htarget)

variable {p : Program} {t : DataType} {target : Designator Expr} {value : Expr} {c : Call Expr}

theorem Stmt.assign_code (node : Node) (hready : Ready names env s.tables)
    (htarget : HasType names (.designator target) t) (hvalue : HasType names value t)
    (hann : ∀ part ∈ (Stmt.assign node target value).parts,
      part.AnnotatedBy p names env.annotations) :
    Generates ((Stmt.assign node target value).lower env) s fun tables code _ =>
      EventCode (env.setting names tables) env.isMain (.assign target value) s.nextReg code [] := by
  obtain ⟨hanntarget, hannvalue⟩ := List.forall_mem_append.mp hann
  obtain ⟨hannselector, hself⟩ := (Expr.forall_parts rfl).mp hanntarget
  have hselectors : ∀ selector ∈ target.selectors, selector.Generated names env .integer := by
    cases htarget with
    | designator _ hselectors =>
      exact fun selector hselector => (hselectors selector hselector).generated
        (forall_partsOfAll.mp hannselector selector hselector)
  rw [Stmt.lower]
  refine (Designator.address_code hready hself htarget hselectors).bind
    fun front address s₁ hs₁ h => ?_
  obtain ⟨-, ty, hty, haddress⟩ := h
  refine (hvalue.generated hannvalue s₁ (hready.mono hs₁.tables)).bind fun back v s₂ hs₂ hv => ?_
  have hptr : address.ty = .ptr v.ty := by
    rw [haddress]
    exact congrArg _ (Except.ok.inj (hty.symm.trans hv.2))
  refine ⟨_, _, _, .store hptr s₂, fun tables _ hback hfront => ?_⟩
  rw [hs₁.nextReg] at hback
  exact .assign hfront.1 hback.1

theorem Stmt.lower_assign (node : Node) (htarget : HasType names (.designator target) t)
    (hvalue : HasType names value t)
    (hann : ∀ part ∈ (Stmt.assign node target value).parts,
      part.AnnotatedBy p names env.annotations) :
    (Stmt.assign node target value).Compilable names env result := by
  intro s hready hopen
  rw [Stmt.run]
  refine Compiles.step hopen (Stmt.assign_code node hready htarget hvalue hann) ?_
  intro tables P code htyped hcode
  cases hcode with
  | assign hfront hback => exact hfront.closed_assign htyped htarget hvalue hback

theorem Call.HasResult.generated (h : c.HasResult names t)
    (hann : ∀ part ∈ (Expr.call c).parts, part.AnnotatedBy p names env.annotations)
    (sp : Subprogram) (hname : names c.callee.name = some (.proc sp)) (pair : Expr × Variable)
    (hpair : pair ∈ c.args.zip sp.params) : pair.1.Generated names env pair.2.type := by
  cases h with
  | intro hname' _ hargs =>
    cases hname.symm.trans hname'
    exact (hargs pair hpair).generated (forall_partsOfAll.mp ((Expr.forall_parts rfl).mp hann).1 _
      (List.of_mem_zip hpair).1)

theorem Call.lower_halt (hready : Ready names env s.tables)
    (hhalts : names.halts c.callee.name = true) (hresult : c.HasResult names t)
    (hann : ∀ part ∈ (Expr.call c).parts, part.AnnotatedBy p names env.annotations) :
    ∃ code s₁, c.lower env s = .ok (none, s₁.ended .unreachable) ∧ Emitted s code s₁ ∧
      ∀ tables, s₁.tables.Le tables →
        CallCode (env.setting names tables) c s.nextReg code none := by
  obtain ⟨sp, hname, hsymbol⟩ := (hann _ (Expr.self_mem_parts _)).proc c rfl
  have hargs := hresult.generated hann sp hname
  cases hresult with
  | intro hname' hlength =>
  cases hname.symm.trans hname'
  -- the built-in, and so its only argument, is known
  have hhalt : sp.builtin = true ∧ sp.name = "HALT" := by simpa [Names.halts, hname] using hhalts
  have hparams : ∀ sp ∈ Subprogram.builtins, sp.name = "HALT" → sp.params.length = 1 := by decide
  have hone := hparams sp (hready.builtin _ sp hname hhalt.1) hhalt.2
  obtain ⟨front, values, s₁, hfront, hvalues⟩ := lowerArgs_code hready hlength hargs
  obtain ⟨v, rfl⟩ := List.length_eq_one_iff.mp ((hvalues _ (.refl _)).2.trans hone)
  have hlast : Generates (do
      let exit ← runtime .exit
      emit (.call exit [v])) s₁ fun _ code _ =>
        code = [.call Runtime.exit.function.signature [v]] := by
    refine (runtime_code .exit s₁).bind ?_
    rintro - - s₂ hs₂ ⟨rfl, rfl, hdeclared⟩
    exact (call_code hdeclared [v]).imp fun _ _ _ h _ => h.1
  obtain ⟨_, w, s₂, hback, hcode⟩ := hlast
  obtain rfl := hcode _ (.refl _)
  refine ⟨_, s₂, ?_, hfront.emitted.trans hback.emitted, fun tables hle => ?_⟩
  · have hrun : (p.finished sp).lowerCall env [v] = (do
        let exit ← runtime .exit
        emit (.call exit [v])) >>= fun _ => do
          Lower.terminate .unreachable
          return none := by
      simp only [Subprogram.lowerCall, Program.finished, hhalt, if_true, bind_assoc]
      rfl
    rw [Call.lower, run_bind (Emits.lift hsymbol s).runs, run_bind hfront.runs, hrun,
      run_bind hback.runs]
    rfl
  · refine .intro hname (hvalues tables (hback.emitted.tables.trans hle)).1 (.builtin hhalt.1 ?_)
    rw [hhalt.2]
    exact .halt

theorem Stmt.lower_call (node : Node) (hresult : c.HasResult names t)
    (hann : ∀ part ∈ (Expr.call c).parts, part.AnnotatedBy p names env.annotations) :
    (Stmt.call node c).Compilable names env result := by
  intro s hready hopen
  rw [Stmt.run, Stmt.lower]
  cases hhalts : names.halts c.callee.name with
  | false =>
    have hself := hann _ (Expr.self_mem_parts _)
    have hcall := Call.lower_code hready hself hresult hhalts (hresult.generated hann)
    refine Compiles.step hopen (.map (hcall.imp fun tables code v h => .call h.1)) ?_
    intro tables P code htyped hcode
    cases hcode with
    | call hcode => exact hresult.closed htyped hcode
  | true =>
    obtain ⟨code, s₁, hruns, hemitted, hcode⟩ := Call.lower_halt hready hhalts hresult hann
    refine Compiles.last hopen ?_ hemitted
      (fun tables hle blocks => .halt (.call (hcode tables hle)) none _) ?_
        (by simp [Terminator.targets])
    · rw [run_bind hruns]
      rfl
    · intro Γ P _ htyped hle
      exact ⟨hresult.closed htyped (hcode Γ.tables hle), ((hcode Γ.tables hle).computed
        htyped.foreign).guards, trivial, by simp [Terminator.operands]⟩

theorem Stmt.lower_exit (node : Node) (hloop : env.loopExits ≠ []) :
    (Stmt.exit node).Compilable names env result := by
  intro s _ hopen
  obtain ⟨behind, outer, hexits⟩ := List.exists_cons_of_ne_nil hloop
  have hruns : (Stmt.exit node).lower env s = .ok ((), s.ended (.br behind)) := by
    rw [Stmt.lower, hexits]
    rfl
  refine Compiles.last hopen hruns (.refl s) (fun tables _ blocks => ?_) (fun Γ P _ _ _ => ?_) ?_
  · rw [Stmt.run, hexits]
    exact .leave behind none
  · exact ⟨trivial, .nil, trivial, by simp [Terminator.operands]⟩
  · rw [hexits]
    exact List.forall_mem_singleton.mpr rfl

theorem Stmt.lower_ret (node : Node) {value : Option Expr} {inLoop : Bool}
    (hwell : (Stmt.ret node value).WellTyped names result inLoop)
    (hmain : env.isMain = true → result = .void)
    (hann : ∀ part ∈ (Stmt.ret node value).parts, part.AnnotatedBy p names env.annotations) :
    (Stmt.ret node value).Compilable names env result := by
  intro s hready hopen
  rw [Stmt.run, Stmt.lower]
  cases value with
  | none =>
    have hvoid := Stmt.wellTyped_ret_none_iff.mp hwell
    refine Compiles.last hopen ?_ (.refl s) (fun tables _ blocks => .ret .ret none _)
      (fun Γ P hreturns htyped _ => ⟨trivial, .nil, ?_⟩) (by simp [Terminator.targets])
    · cases hisMain : env.isMain <;> simp [lowerReturn, hisMain] <;> rfl
    · cases hisMain : env.isMain with
      | true =>
        have hresult := hreturns.main hisMain
        refine ⟨⟨hresult.symm, by simp [hresult]⟩, List.forall_mem_singleton.mpr ?_⟩
        exact .inl (htyped.constant _ trivial)
      | false =>
        have hresult := hreturns.result hisMain
        rw [hvoid] at hresult
        exact ⟨(Except.ok.inj hresult).symm, by simp [Terminator.operands]⟩
  | some value =>
    have hvalue := Stmt.wellTyped_ret_some_iff.mp hwell
    have hisMain : env.isMain = false := by
      rw [Bool.eq_false_iff]
      intro hisMain
      exact (hmain hisMain ▸ hvalue).proper hready
    obtain ⟨code, v, s₁, hemits, hcode⟩ := hvalue.generated hann s hready
    refine Compiles.last hopen ?_ hemits.emitted (fun tables hle blocks =>
      .ret (.retValue hisMain (hcode tables hle).1) none _) ?_ (by simp [Terminator.targets])
    · simp only [lowerReturn, hisMain]
      exact run_bind hemits.runs
    · intro Γ P hreturns htyped hle
      have hv := hvalue.yielding htyped (hcode Γ.tables hle).1
      have hty : v.ty = Γ.result := Except.ok.inj (hv.type.symm.trans (hreturns.result hisMain))
      refine ⟨hv.closed, ((hcode Γ.tables hle).1.computed htyped.foreign).guards, ⟨hty, ?_⟩,
        List.forall_mem_singleton.mpr hv.behind⟩
      rw [← hty]
      exact (hvalue.proper hready).ne_void hv.type

end Leaves

/-! ## Blocks -/

section Blocks

variable {names : Names} {result : DataType} {s s' : State} {m : Lower Unit} {behavior : Behavior}

/-- What has been generated up to the end of a block, which leads to `target` unless it leads
somewhere else. -/
structure CompilesTo (names : Names) (env : Env) (result : DataType) (behavior : Behavior)
    (target : Nat) (s s' : State) : Prop where
  continues : ∃ new, Continues s new s' ∧ Fresh s.nextBlock s'.nextBlock new
  simulates : ∀ tables, s'.tables.Le tables → ∀ blocks, Extends blocks s' →
    ∃ place, s.block.At blocks place ∧
      Simulates (env.setting names tables) env.isMain blocks behavior place (some (.start target))
        env.loopExits.head?
  ended : s'.block.term.isSome
  steps : ∀ Γ slots T, Suits Γ slots names env result → slots ⊆ s.slots → s'.tables.Le Γ.tables →
    (∀ target, Target env s s' target → T target) → T target → Steps Γ T s s'

theorem Compiles.branchTo (h : Compiles names env result behavior m s s') (target : Nat) :
    ∃ s'', Lower.branchTo target s' = .ok ((), s'') ∧
      CompilesTo names env result behavior target s s'' := by
  have hrun : Lower.branchTo target s' = (if !s'.block.term.isSome then
      Lower.terminate (.br target) else Pure.pure ()) s' := rfl
  obtain ⟨new, hcontinues, hfresh⟩ := h.continues
  cases hterm : s'.block.term with
  | none =>
    have hrun : Lower.branchTo target s' = .ok ((), s'.ended (.br target)) := by
      rw [hrun, hterm]
      rfl
    have hfinish := finish hterm (.br target)
    refine ⟨_, hrun, ⟨new, ?_, hfresh⟩, fun tables hle blocks hextends => ?_, rfl, ?_⟩
    · have := hcontinues.trans hfinish
      rwa [List.append_nil] at this
    · have hat := (hextends.ended rfl).at
      obtain ⟨place, hplace, hsim⟩ := h.simulates tables hle blocks
        (hfinish.before blocks hextends) (some _) ⟨hterm, hat⟩
      exact ⟨place, hplace, hsim.behind fun answers => .jump target answers⟩
    · intro Γ slots T hsuits hslots hle hT htarget
      have hids : (s'.ended (.br target)).ids = s'.ids := by rw [hfinish.ids, List.append_nil]
      refine ((h.steps Γ slots hsuits hslots hle).allow fun t ht => hT t ?_).tail
        (.finish hterm trivial (by simp [Terminator.operands])
          (List.forall_mem_singleton.mpr htarget))
      exact ht.mono (Nat.le_refl _) (hids ▸ List.Subset.refl _)
  | some term =>
    have hrun : Lower.branchTo target s' = .ok ((), s') := by
      rw [hrun, hterm]
      rfl
    have hended : s'.block.term.isSome := by simp [hterm]
    refine ⟨s', hrun, ⟨new, hcontinues, hfresh⟩, fun tables hle blocks hextends => ?_, hended, ?_⟩
    · obtain ⟨place, hplace, hsim⟩ := h.simulates tables hle blocks hextends none hended
      exact ⟨place, hplace, hsim.of_none _⟩
    · intro Γ slots T hsuits hslots hle hT _
      exact (h.steps Γ slots hsuits hslots hle).allow hT

variable {blocks : List Block} {id : Nat} {stem : String} {code : List Instr} {no : Nat}
  {v : Operand} {yes : Nat} {T : Nat → Prop} {cond : Expr} {body : List Stmt} {next : Nat}
  {branches : List (Branch Stmt)}

theorem Goes.of_started {next : Option Place} (h : Goes blocks (s.started id stem) next) :
    ∃ place, next = some place ∧ (Block.empty id stem).At blocks place := by
  cases next with
  | none => cases h
  | some place => exact ⟨place, rfl, h.2⟩

theorem Lowering.Emitted.leads_guard (h : Emitted (s.started id stem) code s')
    (hpresent : Present blocks (s'.ended (.condBr v yes no)).block) (answers : List Bool) :
    Leads blocks (.start id) answers []
      (.point (workOf (number s.nextReg code)) (some (.condBr v yes no))) answers := by
  have hat := h.at hpresent.at
  rw [List.append_nil] at hat
  exact hat.leads answers

/-- Code that leads to a reserved block is complete as soon as the block is started. -/
theorem Compiles.close (behind : Nat) (stem : String)
    (hrun : m s = .ok ((), s'.started behind stem))
    (hnew : ∃ new, Continues s new s' ∧ Fresh s.nextBlock s'.nextBlock (new ++ [behind]))
    (hsim : ∀ tables, s'.tables.Le tables → ∀ blocks, Extends blocks s' →
      ∃ place, s.block.At blocks place ∧ Simulates (env.setting names tables) env.isMain blocks
        behavior place (some (.start behind)) env.loopExits.head?)
    (hended : s'.block.term.isSome)
    (hsteps : ∀ Γ slots T, Suits Γ slots names env result → slots ⊆ s.slots →
      s'.tables.Le Γ.tables → (∀ target, Target env s s' target → T target) → T behind →
      Steps Γ T s s') :
    Compiles names env result behavior m s (s'.started behind stem) := by
  obtain ⟨new, hs, hfresh⟩ := hnew
  have hstart := start s' behind stem
  refine ⟨hrun, ⟨_, hs.trans hstart, hfresh⟩, ?_, ?_⟩
  · intro tables hle blocks hextends next hgoes
    obtain ⟨place, rfl, hplace⟩ := hgoes.of_started
    obtain ⟨first, hfirst, hsim⟩ := hsim tables hle blocks (hstart.before blocks hextends)
    exact ⟨first, hfirst, hsim.behind fun answers => hplace.leads answers⟩
  · intro Γ slots hsuits hslots hle
    have hbehind : Target env s (s'.started behind stem) behind :=
      .inr ⟨(hfresh.range behind (by simp)).1, by simp [hstart.ids]⟩
    refine (hsteps Γ slots _ hsuits hslots hle (fun target htarget =>
      htarget.mono (Nat.le_refl _) ?_) hbehind).trans (Steps.start hended _ _)
    exact hstart.ids ▸ List.subset_append_left _ _

theorem HasType.steps_guard (hcond : HasType names cond .boolean) {Γ : FunctionSetting}
    (htyped : Typed names env Γ.tables (·.Usable Γ s.visible)) (hopen : s.block.term = none)
    (hemitted : Emitted s code s') (hle : s'.tables.Le Γ.tables)
    (hcode : ExprCode (env.setting names Γ.tables) cond s.nextReg code v) (hyes : T yes)
    (hno : T no) : Steps Γ T s (s'.ended (.condBr v yes no)) := by
  have hv := hcond.yielding htyped hcode
  refine .last hopen hemitted hle hv.closed (hcode.computed htyped.foreign).guards
    (Except.ok.inj hv.type).symm ?_ ?_
  · exact List.forall_mem_singleton.mpr hv.behind
  · exact List.forall_mem_cons.mpr ⟨hyes, List.forall_mem_singleton.mpr hno⟩

/-- A loop gets a block for its guard, one for its body and one behind it. -/
theorem Stmt.lower_loop (node : Node) (hcond : HasType names cond .boolean)
    (hgenerated : cond.Generated names env .boolean) (hbody : ∀ behind, BodyCompilable names
      { env with loopExits := behind :: env.loopExits } result body) :
    (Stmt.loop node cond body).Compilable names env result := by
  intro s hready hopen
  let test := s.nextBlock
  let inside := s.nextBlock + 1
  let behind := s.nextBlock + 2
  let s₁ := s.reserved.reserved.reserved
  have hopen₁ : s₁.block.term = none := hopen
  have hs₁ : Continues s [] (s₁.ended (.br test)) :=
    ((reserve s).trans ((reserve _).trans (reserve _))).trans
      (.finish hopen₁ (.br test))
  have hs₂ := start (s₁.ended (.br test)) test "while.cond"
  obtain ⟨code, v, s₃, hemits, hcode⟩ := hgenerated _ (hready.mono (hs₁.trans hs₂).tables)
  have hopen₃ : s₃.block.term = none := hemits.emitted.block.2.1
  have hs₃ : Continues _ [] s₃ := hemits.emitted.continues rfl
  have hs₄ := finish hopen₃ (.condBr v inside behind)
  have hs₅ := start (s₃.ended (.condBr v inside behind)) inside "while.body"
  have hfront := hs₁.trans (hs₂.trans (hs₃.trans (hs₄.trans hs₅)))
  obtain ⟨s₆, hcompiles⟩ := hbody behind _ ((hready.mono hfront.tables).inside _) rfl
  obtain ⟨s₇, hbranch, hto⟩ := hcompiles.branchTo test
  obtain ⟨new, hs₇, hfresh⟩ := hto.continues
  refine ⟨_, .close behind "while.end" ?_ ⟨_, hfront.trans hs₇, ?_⟩ ?_ hto.ended ?_⟩
  · rw [Stmt.lower]
    change (cond.lower env >>= fun value => do
      Lower.terminate (.condBr value inside behind)
      startBlock inside "while.body"
      lowerStmts { env with loopExits := behind :: env.loopExits } body
      Lower.branchTo test
      startBlock behind "while.end") ((s₁.ended (.br test)).started test "while.cond") = _
    rw [run_bind hemits.runs]
    change (lowerStmts { env with loopExits := behind :: env.loopExits } body >>= fun _ => do
      Lower.branchTo test
      startBlock behind "while.end") ((s₃.ended (.condBr v inside behind)).started inside
        "while.body") = _
    rw [run_bind hcompiles.runs, run_bind hbranch]
    rfl
  · have hnext : s₃.nextBlock = s.nextBlock + 3 := hemits.emitted.nextBlock
    have hfresh : Fresh (s.nextBlock + 3) s₇.nextBlock new := hnext ▸ hfresh
    have hthree := (Fresh.single test).append ((Fresh.single inside).append (Fresh.single behind))
    refine (hthree.append hfresh).perm ?_
    simpa using (List.perm_append_singleton behind new).symm
  · intro tables hle blocks hextends
    have hextends₅ := hs₇.before blocks hextends
    have hextends₂ := (hs₃.trans (hs₄.trans hs₅)).before blocks hextends₅
    obtain ⟨bodyPlace, hbodyPlace, hbodySim⟩ := hto.simulates tables hle blocks hextends
    refine ⟨_, hextends₂.of_started.at, ?_⟩
    have hguard : EventCode (env.setting names tables) env.isMain (.guard cond) s₁.nextReg code
        [.branch v] := by
      refine .guard (hcode tables ?_).1
      exact ((hs₄.trans hs₅).trans hs₇).tables.trans hle
    have htest := hemits.emitted.leads_guard hextends₅.of_started
    rw [Stmt.run]
    refine Simulates.before ?_ fun answers => .jump test answers
    exact .loop hguard htest (hbodySim.before fun answers => hbodyPlace.leads answers)
  · intro Γ slots T hsuits hslots hle hT hbehind
    have hids := (hfront.trans hs₇).ids
    have htest : T test := hT test (.inr ⟨Nat.le_refl _, by simp [hids]⟩)
    have hinside : T inside := hT inside (.inr ⟨Nat.le_succ _, by simp [hids]⟩)
    have hjump : Steps Γ T s (s₁.ended (.br test)) :=
      (((Relation.ReflTransGen.single .reserve).tail .reserve).tail .reserve).tail
        (.finish hopen₁ trivial (by simp [Terminator.operands])
          (List.forall_mem_singleton.mpr htest))
    have hbegin := hjump.trans (Steps.start rfl test "while.cond")
    have htables := (hs₄.trans (hs₅.trans hs₇)).tables.trans hle
    have htyped := hsuits.visible (List.Subset.trans hslots (Steps.slots hbegin))
    have hguard := (hcond.steps_guard htyped rfl hemits.emitted htables (hcode Γ.tables htables).1
      hinside hbehind).trans (Steps.start rfl inside "while.body")
    have hinner := List.Subset.trans hslots (Steps.slots (hbegin.trans hguard))
    refine hbegin.trans (hguard.trans (hto.steps Γ slots _ (hsuits.inside behind) hinner hle ?_
      htest))
    rintro target (hexit | htarget)
    · cases hexit
      exact hbehind
    · exact hT target (Target.mono (.inr htarget) hfront.nextBlock (List.Subset.refl _))

/-- The branches of an IF statement are generated from the block `next` on. The last guard leads to
the block `next'`, which is started later on if there is an ELSE. -/
structure BranchesCompile (names : Names) (env : Env) (result : DataType) (behind : Nat)
    (hasElse : Bool) (next : Nat) (branches : List (Branch Stmt)) (s : State) (next' : Nat)
    (s' : State) : Prop where
  runs : lowerBranches env behind hasElse next branches s = .ok (next', s')
  continues : ∃ new, Continues s new s' ∧ ∀ lo old, Fresh lo s.nextBlock (old ++ [next]) →
    Fresh lo s'.nextBlock (old ++ new ++ if hasElse then [next'] else [])
  last : branches ≠ [] → hasElse = false → next' = behind
  simulates : ∀ tables, s'.tables.Le tables → ∀ blocks, Extends blocks s' → ∀ otherwise,
    Simulates (env.setting names tables) env.isMain blocks otherwise (.start next')
      (some (.start behind)) env.loopExits.head? →
    Simulates (env.setting names tables) env.isMain blocks
      (runBranches names.halts otherwise branches) (.start next) (some (.start behind))
      env.loopExits.head?
  started : next' = next ∨ next ∈ s'.ids
  ended : s.block.term.isSome → s'.block.term.isSome
  steps : ∀ Γ slots T, Suits Γ slots names env result → slots ⊆ s.slots → s'.tables.Le Γ.tables →
    s.block.term.isSome → (∀ target, Target env s s' target → T target) → T behind → T next' →
    Steps Γ T s s'

theorem BranchesCompile.nil (behind : Nat) (hasElse : Bool) (next : Nat) :
    BranchesCompile names env result behind hasElse next [] s next s where
  runs := rfl
  continues := by
    refine ⟨[], .refl s, fun lo old hfresh => ?_⟩
    cases hasElse with
    | false => simpa using hfresh.of_append
    | true => simpa using hfresh
  last h := (h rfl).elim
  simulates _ _ _ _ _ h := h
  started := .inl rfl
  ended := id
  steps _ _ _ _ _ _ _ _ _ _ := .refl

theorem lowerBranch_compiles (behind otherwise : Nat) (hcond : HasType names cond .boolean)
    {s₂ s₃ : State} (hemitted : Emitted (s.started next "if.cond") code s₂)
    (hcode : ∀ tables, s₂.tables.Le tables →
      ExprCode (env.setting names tables) cond s.nextReg code v)
    (hs₃ : s₃ = s₂ ∨ s₃ = s₂.reserved) (hready : Ready names env s₂.tables)
    (hbody : BodyCompilable names env result body) :
    ∃ s', (do
        let inside ← newBlock
        Lower.terminate (.condBr v inside otherwise)
        startBlock inside "if.then"
        lowerStmts env body
        Lower.branchTo behind) s₃ = .ok ((), s') ∧
      (∃ new, Continues s₃ new s' ∧ Fresh s₃.nextBlock s'.nextBlock new) ∧
      (∀ tables, s'.tables.Le tables → ∀ blocks, Extends blocks s' → ∀ other,
        Simulates (env.setting names tables) env.isMain blocks other (.start otherwise)
          (some (.start behind)) env.loopExits.head? →
        Simulates (env.setting names tables) env.isMain blocks
          (.Choice cond (runStmts names.halts body) other) (.start next) (some (.start behind))
          env.loopExits.head?) ∧
      s'.block.term.isSome ∧
      ∀ Γ slots T, Suits Γ slots names env result → slots ⊆ s.slots → s'.tables.Le Γ.tables →
        s.block.term.isSome → (∀ target, Target env s s' target → T target) → T behind →
        T otherwise → Steps Γ T s s' := by
  let inside := s₃.nextBlock
  have hblock : s₃.block = s₂.block := by rcases hs₃ with rfl | rfl <;> rfl
  have hvisible : s₃.visible = s₂.visible := by rcases hs₃ with rfl | rfl <;> rfl
  have hreserve : Continues s₂ [] s₃ := by
    rcases hs₃ with rfl | rfl
    · exact .refl _
    · exact .reserve _
  have hopen : s₃.reserved.block.term = none := by
    change s₃.block.term = none
    rw [hblock]
    exact hemitted.block.2.1
  have hs₄ := finish hopen (.condBr v inside otherwise)
  have hs₅ := start (s₃.reserved.ended (.condBr v inside otherwise)) inside "if.then"
  have hfront := (reserve s₃).trans (hs₄.trans hs₅)
  obtain ⟨s₆, hcompiles⟩ := hbody _ (hready.mono (hreserve.trans hfront).tables) rfl
  obtain ⟨s₇, hbranch, hto⟩ := hcompiles.branchTo behind
  obtain ⟨new, hs₇, hfresh⟩ := hto.continues
  refine ⟨s₇, ?_, ⟨_, hfront.trans hs₇, (Fresh.single inside).append hfresh⟩, ?_, hto.ended, ?_⟩
  · change (lowerStmts env body >>= fun _ => Lower.branchTo behind)
      ((s₃.reserved.ended (.condBr v inside otherwise)).started inside "if.then") = _
    rw [run_bind hcompiles.runs]
    exact hbranch
  · intro tables hle blocks hextends other hother
    have hextends₅ := hs₇.before blocks hextends
    obtain ⟨place, hplace, hbodySim⟩ := hto.simulates tables hle blocks hextends
    have hpresent : Present blocks (s₂.ended (.condBr v inside otherwise)).block := by
      have := hextends₅.of_started
      rwa [State.ended, State.reserved, hblock] at this
    have hguard : EventCode (env.setting names tables) env.isMain (.guard cond) s.nextReg code
        [.branch v] := by
      refine .guard (hcode tables ?_)
      exact (hreserve.trans (hfront.trans hs₇)).tables.trans hle
    refine Simulates.before ?_ fun answers => hemitted.leads_guard hpresent answers
    exact .choice hguard (hbodySim.before fun answers => hplace.leads answers) hother
  · intro Γ slots T hsuits hslots hle hended hT hbehind hotherwise
    have htables := (hreserve.trans (hfront.trans hs₇)).tables.trans hle
    have hbegin : Steps Γ T s (s.started next "if.cond") := Steps.start hended _ _
    have hv := hcond.yielding (hsuits.visible (List.Subset.trans hslots hbegin.slots))
      (hcode Γ.tables htables)
    have hnext : s.nextBlock ≤ s₃.nextBlock := by
      have : s₂.nextBlock = s.nextBlock := hemitted.nextBlock
      exact this ▸ hreserve.nextBlock
    have hinside : T inside := by
      refine hT inside (.inr ⟨hnext, ?_⟩)
      rw [(hfront.trans hs₇).ids]
      simp
    have hguard : Steps Γ T (s.started next "if.cond")
        (s₃.reserved.ended (.condBr v inside otherwise)) := by
      have hcode : Steps Γ T (s.started next "if.cond") s₃ := by
        have hstep := Step.code (T := T) rfl hemitted htables hv.closed
          ((hcode Γ.tables htables).computed hsuits.typed.foreign).guards
        rcases hs₃ with rfl | rfl
        · exact .single hstep
        · exact (Relation.ReflTransGen.single hstep).tail .reserve
      refine (hcode.tail .reserve).tail (.finish hopen (Except.ok.inj hv.type).symm ?_ ?_)
      · change ∀ w ∈ [v], w.Usable Γ s₃.visible
        rw [hvisible]
        exact List.forall_mem_singleton.mpr (hv.behind.usable hemitted)
      · exact List.forall_mem_cons.mpr ⟨hinside, List.forall_mem_singleton.mpr hotherwise⟩
    have hstart := (hbegin.trans hguard).trans (Steps.start rfl inside "if.then")
    refine hstart.trans (hto.steps Γ slots T hsuits
      (List.Subset.trans hslots (Steps.slots hstart)) hle
      (fun target htarget => hT target (htarget.mono ?_ (List.Subset.refl _))) hbehind)
    exact Nat.le_trans hnext hfront.nextBlock

/-- A branch gets a block for its guard and one for its statements. -/
theorem BranchesCompile.cons {behind : Nat} {hasElse : Bool} (node : Node)
    {rest : List (Branch Stmt)} (hready : Ready names env s.tables)
    (hcond : HasType names cond .boolean) (hgenerated : cond.Generated names env .boolean)
    (hbody : BodyCompilable names env result body)
    (hrest : ∀ next s, Ready names env s.tables → ∃ next' s',
      BranchesCompile names env result behind hasElse next rest s next' s') :
    ∃ next' s', BranchesCompile names env result behind hasElse next (⟨node, cond, body⟩ :: rest) s
      next' s' := by
  have hs₁ := start s next "if.cond"
  obtain ⟨code, v, s₂, hemits, hcode⟩ := hgenerated _ (hready.mono hs₁.tables)
  have hs₂ : Continues _ [] s₂ := hemits.emitted.continues rfl
  have hready₂ := hready.mono (hs₁.trans hs₂).tables
  have hnext₂ : s₂.nextBlock = s.nextBlock := hemits.emitted.nextBlock
  have hcode' (tables : Tables) (hle : s₂.tables.Le tables) := (hcode tables hle).1
  -- the whole computation, up to the choice of the block behind a false guard
  have hrun : lowerBranches env behind hasElse next (⟨node, cond, body⟩ :: rest) s =
      ((if rest.isEmpty && !hasElse then Pure.pure behind else newBlock : Lower Nat) >>=
        fun otherwise => (do
          let inside ← newBlock
          Lower.terminate (.condBr v inside otherwise)
          startBlock inside "if.then"
          lowerStmts env body
          Lower.branchTo behind) >>= fun _ =>
            lowerBranches env behind hasElse otherwise rest) s₂ := by
    rw [lowerBranches]
    rw [run_bind (run_startBlock s next "if.cond"), run_bind hemits.runs]
    split <;> simp only [bind_assoc]
  by_cases hlast : rest = [] ∧ hasElse = false
  · obtain ⟨rfl, rfl⟩ := hlast
    obtain ⟨s₄, hbranch, ⟨new, hs₄, hfresh⟩, hsim, hended, hsteps⟩ :=
      lowerBranch_compiles behind behind hcond hemits.emitted hcode' (.inl rfl) hready₂ hbody
    have hids := ((hs₁.trans hs₂).trans hs₄).ids
    refine ⟨behind, s₄, ?_, ⟨_, (hs₁.trans hs₂).trans hs₄, fun lo old hold => ?_⟩,
      fun _ _ => rfl, ?_, .inr (by simp [hids]), fun _ => hended, ?_⟩
    · rw [hrun]
      change (_ >>= fun _ => lowerBranches env behind false behind []) s₂ = _
      rw [run_bind hbranch]
      rfl
    · rw [hnext₂] at hfresh
      simpa using hold.append hfresh
    · intro tables hle blocks hextends otherwise hother
      exact hsim tables hle blocks hextends otherwise hother
    · exact fun Γ slots T hsuits hslots hle hended hT hbehind _ =>
        hsteps Γ slots T hsuits hslots hle hended hT hbehind hbehind
  · have hchoice : (rest.isEmpty && !hasElse) = false := by
      rw [Bool.eq_false_iff]
      simpa using hlast
    obtain ⟨s₄, hbranch, ⟨new, hs₄, hfresh⟩, hsim, hended, hsteps⟩ := lowerBranch_compiles behind
      s₂.nextBlock hcond hemits.emitted hcode' (.inr rfl) hready₂ hbody
    have hready₄ := hready₂.mono ((reserve s₂).trans hs₄).tables
    obtain ⟨next', s₅, hbranches⟩ := hrest s₂.nextBlock s₄ hready₄
    obtain ⟨new', hs₅, hfresh'⟩ := hbranches.continues
    have hfront := (hs₁.trans hs₂).trans ((reserve s₂).trans hs₄)
    have hids := (hfront.trans hs₅).ids
    refine ⟨next', s₅, ?_, ⟨_, (hs₁.trans hs₂).trans (((reserve s₂).trans hs₄).trans hs₅),
      fun lo old hold => ?_⟩, fun _ helse => ?_, ?_, .inr (by simp [hids]),
      fun _ => hbranches.ended hended, ?_⟩
    · rw [hrun, hchoice]
      change (_ >>= fun _ => lowerBranches env behind hasElse s₂.nextBlock rest) s₂.reserved = _
      rw [run_bind hbranch]
      exact hbranches.runs
    · have hfresh : Fresh (s₂.nextBlock + 1) s₄.nextBlock new := hfresh
      rw [hnext₂] at hfresh
      have hpending := hold.append ((Fresh.single s.nextBlock).append hfresh)
      have hbefore : Fresh lo s₄.nextBlock (old ++ [next] ++ new ++ [s₂.nextBlock]) := by
        refine hpending.perm ?_
        rw [hnext₂, List.append_assoc (old ++ [next])]
        exact (List.perm_append_singleton s.nextBlock new).symm.append_left _
      simpa using hfresh' lo _ hbefore
    · exact hbranches.last (fun hrest => hlast ⟨hrest, helse⟩) helse
    · intro tables hle blocks hextends otherwise hother
      have hextends₄ := hs₅.before blocks hextends
      refine hsim tables (hs₅.tables.trans hle) blocks hextends₄ _ ?_
      exact hbranches.simulates tables hle blocks hextends otherwise hother
    · intro Γ slots T hsuits hslots hle hended₀ hT hbehind hnext'
      have hotherwise : T s₂.nextBlock := by
        rcases hbranches.started with heq | hmem
        · exact heq ▸ hnext'
        · exact hT _ (.inr ⟨Nat.le_of_eq hnext₂.symm, hmem⟩)
      have hfirst := hsteps Γ slots T hsuits hslots (hs₅.tables.trans hle) hended₀
        (fun target htarget => hT target
          (htarget.mono (Nat.le_refl _) (hs₅.ids ▸ List.subset_append_left _ _)))
        hbehind hotherwise
      exact hfirst.trans (hbranches.steps Γ slots T hsuits (List.Subset.trans hslots hfirst.slots)
        hle hended (fun target htarget => hT target
          (htarget.mono hfront.nextBlock (List.Subset.refl _))) hbehind hnext')

theorem Continues.fork (hopen : s.reserved.reserved.block.term = none) (first : Nat) :
    Continues s [] (s.reserved.reserved.ended (.br first)) :=
  ((reserve s).trans (reserve _)).trans (.finish hopen (.br first))

theorem Steps.fork (Γ : FunctionSetting) {first : Nat}
    (hopen : s.reserved.reserved.block.term = none) (hfirst : T first) :
    Steps Γ T s (s.reserved.reserved.ended (.br first)) :=
  ((Relation.ReflTransGen.single .reserve).tail .reserve).tail
    (.finish hopen trivial (by simp [Terminator.operands]) (List.forall_mem_singleton.mpr hfirst))

theorem Stmt.lower_ite (node : Node) (hne : branches ≠ [])
    (hbranches : ∀ behind next s, Ready names env s.tables →
      ∃ next' s', BranchesCompile names env result behind false next branches s next' s') :
    (Stmt.ite node branches none).Compilable names env result := by
  intro s hready hopen
  let behind := s.nextBlock
  let first := s.nextBlock + 1
  have hopen₁ : s.reserved.reserved.block.term = none := hopen
  have hs₁ := fork hopen₁ first
  obtain ⟨next, s₂, hcompiles⟩ := hbranches behind first _ (hready.mono hs₁.tables)
  obtain ⟨new, hs₂, hfresh⟩ := hcompiles.continues
  have hnext : next = behind := hcompiles.last hne rfl
  subst hnext
  refine ⟨_, .close behind "if.end" ?_ ⟨_, hs₁.trans hs₂, ?_⟩ ?_ (hcompiles.ended rfl) ?_⟩
  · rw [Stmt.lower]
    change (lowerBranches env behind false first branches >>= fun _ =>
      startBlock behind "if.end") (s.reserved.reserved.ended (.br first)) = _
    rw [run_bind hcompiles.runs]
    rfl
  · have := hfresh s.nextBlock [behind] ((Fresh.single behind).append (Fresh.single first))
    refine this.perm ?_
    simpa using (List.perm_append_singleton behind new).symm
  · intro tables hle blocks hextends
    have hsim := hcompiles.simulates tables hle blocks hextends .Skip (.skip _ _)
    refine ⟨_, ((hs₂.before blocks hextends).ended rfl).at, ?_⟩
    rw [Stmt.run]
    exact hsim.before fun answers => .jump first answers
  · intro Γ slots T hsuits hslots hle hT hbehind
    have hfirst : T first := by
      rcases hcompiles.started with heq | hmem
      · exact heq ▸ hbehind
      · exact hT first (.inr ⟨Nat.le_succ _, hmem⟩)
    have hbegin := Steps.fork Γ hopen₁ hfirst
    exact hbegin.trans (hcompiles.steps Γ slots T hsuits (List.Subset.trans hslots hbegin.slots)
      hle rfl (fun target htarget => hT target (htarget.mono hs₁.nextBlock (List.Subset.refl _)))
      hbehind hbehind)

theorem Stmt.lower_ite_else (node : Node)
    (hbranches : ∀ behind next s, Ready names env s.tables → ∃ next' s',
      BranchesCompile names env result behind true next branches s next' s')
    (hbody : BodyCompilable names env result body) :
    (Stmt.ite node branches (some body)).Compilable names env result := by
  intro s hready hopen
  let behind := s.nextBlock
  let first := s.nextBlock + 1
  have hopen₁ : s.reserved.reserved.block.term = none := hopen
  have hs₁ := fork hopen₁ first
  obtain ⟨next, s₂, hcompiles⟩ := hbranches behind first _ (hready.mono hs₁.tables)
  obtain ⟨new, hs₂, hfresh⟩ := hcompiles.continues
  have hpending := hfresh s.nextBlock [behind] ((Fresh.single behind).append (Fresh.single first))
  have hs₃ := start s₂ next "if.else"
  obtain ⟨s₄, helse⟩ := hbody _ (hready.mono (hs₁.trans (hs₂.trans hs₃)).tables) rfl
  obtain ⟨s₅, hbranch, hto⟩ := helse.branchTo behind
  obtain ⟨new', hs₅, hfresh'⟩ := hto.continues
  have hrest := hs₃.trans hs₅
  refine ⟨_, .close behind "if.end" ?_ ⟨_, hs₁.trans (hs₂.trans hrest), ?_⟩ ?_ hto.ended ?_⟩
  · rw [Stmt.lower]
    change (lowerBranches env behind true first branches >>= fun next => do
      startBlock next "if.else"
      lowerStmts env body
      Lower.branchTo behind
      startBlock behind "if.end") (s.reserved.reserved.ended (.br first)) = _
    rw [run_bind hcompiles.runs, run_bind (run_startBlock s₂ next "if.else"),
      run_bind helse.runs, run_bind hbranch]
    rfl
  · refine (hpending.append hfresh').perm ?_
    simpa using (List.perm_append_singleton behind (new ++ next :: new')).symm
  · intro tables hle blocks hextends
    have hextends₂ := hrest.before blocks hextends
    obtain ⟨elsePlace, helsePlace, helseSim⟩ := hto.simulates tables hle blocks hextends
    have hsim := hcompiles.simulates tables (hrest.tables.trans hle) blocks hextends₂ _
      (helseSim.before fun answers => helsePlace.leads answers)
    refine ⟨_, ((hs₂.before blocks hextends₂).ended rfl).at, ?_⟩
    rw [Stmt.run]
    exact hsim.before fun answers => .jump first answers
  · intro Γ slots T hsuits hslots hle hT hbehind
    have hnext : T next :=
      hT next (.inr ⟨(hpending.range next (by simp)).1, by simp [hrest.ids]⟩)
    have hfirst : T first := by
      rcases hcompiles.started with heq | hmem
      · exact heq ▸ hnext
      · exact hT first (.inr ⟨Nat.le_succ _, hrest.ids ▸ List.mem_append_left _ hmem⟩)
    have hbegin := Steps.fork Γ hopen₁ hfirst
    have hguards := hcompiles.steps Γ slots T hsuits (List.Subset.trans hslots hbegin.slots)
      (hrest.tables.trans hle) rfl (fun target htarget => hT target
        (htarget.mono hs₁.nextBlock (hrest.ids ▸ List.subset_append_left _ _))) hbehind hnext
    have hfront := (hbegin.trans hguards).trans (Steps.start (hcompiles.ended rfl) next "if.else")
    exact hfront.trans (hto.steps Γ slots T hsuits (List.Subset.trans hslots (Steps.slots hfront))
      hle (fun target htarget => hT target (htarget.mono (hs₁.trans (hs₂.trans hs₃)).nextBlock
        (List.Subset.refl _))) hbehind)

theorem lowerStmts_nil (hopen : s.block.term = none) :
    Compiles names env result (runStmts names.halts []) (lowerStmts env []) s s where
  runs := rfl
  continues := ⟨[], .refl s, .nil (Nat.le_refl _)⟩
  simulates tables _ blocks _ next hgoes := by
    cases next with
    | none => simp [Goes, hopen] at hgoes
    | some place => exact ⟨place, hgoes.2, .skip place _⟩
  steps _ _ _ _ _ := .refl

theorem lowerStmts_ended (stmts : List Stmt) (h : s.block.term.isSome) :
    lowerStmts env stmts s = .ok ((), s) := by
  cases stmts with
  | nil => rfl
  | cons stmt rest =>
    have hrun : lowerStmts env (stmt :: rest) s = (if s.block.term.isSome then Pure.pure () else do
        stmt.lower env
        lowerStmts env rest : Lower Unit) s := by
      rw [lowerStmts]
      rfl
    rw [hrun, if_pos h]
    rfl

theorem lowerStmts_cons {stmt : Stmt} {rest : List Stmt} (hstmt : stmt.Compilable names env result)
    (hrest : BodyCompilable names env result rest) :
    BodyCompilable names env result (stmt :: rest) := by
  intro s hready hopen
  obtain ⟨s₁, hcompiles⟩ := hstmt s hready hopen
  obtain ⟨new, hs₁, hfresh⟩ := hcompiles.continues
  have hrun : lowerStmts env (stmt :: rest) s = lowerStmts env rest s₁ := by
    have hfirst : lowerStmts env (stmt :: rest) s =
      (if s.block.term.isSome then Pure.pure () else do
        stmt.lower env
        lowerStmts env rest : Lower Unit) s := by
      rw [lowerStmts]
      rfl
    rw [hfirst, hopen]
    exact run_bind hcompiles.runs
  cases hterm : s₁.block.term with
  | none =>
    obtain ⟨s₂, hcompiles'⟩ := hrest s₁ (hready.mono hs₁.tables) hterm
    obtain ⟨new', hs₂, hfresh'⟩ := hcompiles'.continues
    refine ⟨s₂, hrun.trans hcompiles'.runs, ⟨_, hs₁.trans hs₂, hfresh.append hfresh'⟩, ?_, ?_⟩
    · intro tables hle blocks hextends next hgoes
      obtain ⟨mid, hmid, hsim'⟩ := hcompiles'.simulates tables hle blocks hextends next hgoes
      obtain ⟨place, hplace, hsim⟩ := hcompiles.simulates tables (hs₂.tables.trans hle) blocks
        (hs₂.before blocks hextends) (some mid) ⟨hterm, hmid⟩
      exact ⟨place, hplace, hsim.seq hsim'⟩
    · intro Γ slots hsuits hslots hle
      have hfirst : Steps Γ (Target env s s₂) s s₁ :=
        (hcompiles.steps Γ slots hsuits hslots (hs₂.tables.trans hle)).allow fun target h =>
          h.mono (Nat.le_refl _) (hs₂.ids ▸ List.subset_append_left _ _)
      exact hfirst.trans ((hcompiles'.steps Γ slots hsuits (List.Subset.trans hslots hfirst.slots)
        hle).allow fun target h => h.mono hs₁.nextBlock (List.Subset.refl _))
  | some term =>
    -- what follows is dead, and nothing is generated for it
    have hended : s₁.block.term.isSome := by simp [hterm]
    refine ⟨s₁, hrun.trans (lowerStmts_ended rest hended), ⟨new, hs₁, hfresh⟩, ?_, hcompiles.steps⟩
    intro tables hle blocks hextends next hgoes
    obtain ⟨place, hplace, hsim⟩ := hcompiles.simulates tables hle blocks hextends none hended
    exact ⟨place, hplace, hsim.seq_dead next⟩

end Blocks

/-! ## All statements -/

/-- What code generation relies on inside of a body, apart from the bindings: EXIT finds a loop, and
the body of the module has no result. -/
structure Placed (result : DataType) (inLoop : Bool) (env : Env) : Prop where
  loop : inLoop = true → env.loopExits ≠ []
  main : env.isMain = true → result = .void

theorem Placed.inside {result : DataType} {inLoop : Bool} (h : Placed result inLoop env)
    (behind : Nat) : Placed result true { env with loopExits := behind :: env.loopExits } :=
  ⟨fun _ => List.cons_ne_nil _ _, h.main⟩

section All

variable {p : Program} {names : Names} {result : DataType}

mutual

/-- Code generation succeeds for a well-typed statement, and the code does what the statement does.
-/
theorem Stmt.lower_compiles : ∀ (stmt : Stmt) {inLoop : Bool} {env : Env},
    stmt.Proper → stmt.WellTyped names result inLoop →
    (∀ part ∈ stmt.parts, part.AnnotatedBy p names env.annotations) → Placed result inLoop env →
    stmt.Compilable names env result
  | .assign node target value, _, _, _, hwell, hann, _ => by
    obtain ⟨t, htarget, hvalue⟩ := Stmt.wellTyped_assign_iff.mp hwell
    exact Stmt.lower_assign node htarget hvalue hann
  | .call node c, _, _, _, hwell, hann, _ => by
    obtain ⟨t, hresult⟩ := Stmt.wellTyped_call_iff.mp hwell
    exact Stmt.lower_call node hresult hann
  | .ite node branches none, _, _, hproper, hwell, hann, hplaced => by
    obtain ⟨hconds, hbodies, -⟩ := Stmt.wellTyped_ite_iff.mp hwell
    exact Stmt.lower_ite node hproper.1 fun behind next s hready =>
      lowerBranches_compiles branches hproper.2 hconds hbodies hann hplaced hready
  | .ite node branches (some body), _, _, hproper, hwell, hann, hplaced => by
    obtain ⟨hconds, hbodies, hbody⟩ := Stmt.wellTyped_ite_iff.mp hwell
    obtain ⟨hfront, hback⟩ := List.forall_mem_append.mp hann
    refine Stmt.lower_ite_else node (fun behind next s hready =>
      lowerBranches_compiles branches hproper.2.1 hconds hbodies hfront hplaced hready) ?_
    exact lowerStmts_compiles body hproper.2.2 (hbody body rfl) hback hplaced
  | .loop node cond body, _, env, hproper, hwell, hann, hplaced => by
    obtain ⟨hcond, hbody⟩ := Stmt.wellTyped_loop_iff.mp hwell
    obtain ⟨hfront, hback⟩ := List.forall_mem_append.mp hann
    exact Stmt.lower_loop node hcond (hcond.generated hfront) fun behind =>
      lowerStmts_compiles body hproper hbody hback (hplaced.inside behind)
  | .exit node, _, _, _, hwell, _, hplaced =>
    Stmt.lower_exit node (hplaced.loop (Stmt.wellTyped_exit_iff.mp hwell))
  | .ret node value, _, _, _, hwell, hann, hplaced =>
    Stmt.lower_ret node hwell hplaced.main hann

theorem lowerBranches_compiles : ∀ (branches : List (Branch Stmt)) {inLoop : Bool} {env : Env}
    {s : State} {behind next : Nat} {hasElse : Bool}, ProperBranches branches →
    (∀ branch ∈ branches, HasType names branch.cond .boolean) →
    (∀ branch ∈ branches, ∀ stmt ∈ branch.body, stmt.WellTyped names result inLoop) →
    (∀ part ∈ partsOfBranches branches, part.AnnotatedBy p names env.annotations) →
    Placed result inLoop env → Ready names env s.tables →
    ∃ next' s', BranchesCompile names env result behind hasElse next branches s next' s'
  | [], _, _, s, behind, next, hasElse, _, _, _, _, _, _ => ⟨next, s, .nil behind hasElse next⟩
  | ⟨node, cond, body⟩ :: rest, _, env, s, behind, next, hasElse, hproper, hconds, hbodies, hann,
      hplaced, hready => by
    rw [List.forall_mem_cons] at hconds hbodies
    obtain ⟨hfirst, hback⟩ := List.forall_mem_append.mp hann
    obtain ⟨hcond, hbody⟩ := List.forall_mem_append.mp hfirst
    refine BranchesCompile.cons node hready hconds.1 (hconds.1.generated hcond) ?_ ?_
    · exact lowerStmts_compiles body hproper.1 hbodies.1 hbody hplaced
    · intro next s hready
      exact lowerBranches_compiles rest hproper.2 hconds.2 hbodies.2 hback hplaced hready

/-- Code generation succeeds for well-typed statements, and the code does what the statements do. -/
theorem lowerStmts_compiles : ∀ (stmts : List Stmt) {inLoop : Bool} {env : Env},
    ProperBody stmts → (∀ stmt ∈ stmts, stmt.WellTyped names result inLoop) →
    (∀ part ∈ partsOfBody stmts, part.AnnotatedBy p names env.annotations) →
    Placed result inLoop env → BodyCompilable names env result stmts
  | [], _, _, _, _, _, _ => fun s _ hopen => ⟨s, lowerStmts_nil hopen⟩
  | stmt :: rest, _, _, hproper, hwell, hann, hplaced => by
    rw [List.forall_mem_cons] at hwell
    obtain ⟨hfront, hback⟩ := List.forall_mem_append.mp hann
    exact lowerStmts_cons (stmt.lower_compiles hproper.1 hwell.1 hfront hplaced)
      (lowerStmts_compiles rest hproper.2 hwell.2 hback hplaced)

end

end All

end Oberlet
