import Oberlet.Proofs.Eval.Logic
import Oberlet.Proofs.Lowering.Body

/-!
# Calls

A value that is read goes through a stack slot, which the program does not see.
-/

namespace Oberlet

open Llvm Lowering Eval Action Context

variable {π : Primitives} {σ α : Type} {c : Context π σ} {n : Nat} {code : List Instr}

/-- The names of a body are bound to what they stand for, and the oracle respects types. -/
structure Context.Sound (c : Context π σ) : Prop where
  var : ∀ name v, c.setting.names name = some (.var v) → v.type.Proper ∧
    ∃ b, c.setting.binding v.name = .ok b ∧ Stores c.limit v b
  proc : ∀ name sp, c.setting.names name = some (.proc sp) → sp.builtin = false →
    ∃ index callee, c.setting.binding sp.name = .ok (.function index) ∧
      c.setting.tables.signatures[index]? = some callee ∧
      callee.name = functionName c.moduleName sp.name
  builtin : ∀ name sp, c.setting.names name = some (.proc sp) → sp.builtin = true →
    sp ∈ Subprogram.builtins
  respected : c.reference.Respected

/-! ## Conditions on registers -/

variable {P : Regs π → Prop} {as : List (Value π)} {regs : Regs π} {strings : List String}
  {v : Operand} {w : World π σ} {a : Value π} {format : String} {text : Operand} {ty : Ty}
  {t : DataType} {sp : Subprogram} {name : String}

theorem Context.Executes.given {p : Prop} {m : Action π σ α} {Q : α → Regs π → Prop}
    (h : p → c.Executes P n code m Q) : c.Executes (fun regs => p ∧ P regs) n code m Q :=
  fun regs w w' hP hbefore => h hP.1 regs w w' hP.2 hbefore

abbrev Llvm.Operand.HaveValues (strings : List String) (vs : List Operand) (as : List (Value π))
    (regs : Regs π) : Prop :=
  List.Forall₂ (fun v a => Operand.Is strings v a regs) vs as

theorem Llvm.Operand.HaveValues.values {vs : List Operand}
    (h : Operand.HaveValues strings vs as regs) :
    Operand.values strings regs vs = (Pure.pure as : Action π σ (List (Value π))) := by
  induction h with
  | nil => rfl
  | cons hv _ ih => rw [Operand.values, hv.value, pure_bind, ih, pure_bind]

/-- What the code of a call delivers: a value of the result type, unless that is `void`. -/
def Context.Delivers (c : Context π σ) (t : DataType) (v : Option Operand)
    (result : Option (Value π)) (regs : Regs π) : Prop :=
  t ≠ .void → ∃ w a, v = some w ∧ result = some a ∧ a.Fits t ∧ w.Is c.strings a regs

/-! ## Built-in subprograms -/

theorem IsText.constant {text : String} (h : IsText strings text v) :
    v.constant strings = (Pure.pure text : Action π σ String) := by
  obtain ⟨index, hindex, rfl⟩ := h
  simp [Operand.constant, hindex]

theorem Eval.Reference.Typed.withOutside {r : Reference π σ} (h : r.Typed w) (outside : σ) :
    r.Typed { w with outside } := by
  intro name v root hname hroot
  have hget : ({ w with outside } : World π σ).get root = w.get root := by cases root <;> rfl
  rw [hget]
  exact h name v root hname hroot

/-- The code prints its argument by the format. -/
theorem Context.executes_print (htext : IsText c.strings format text) (v' : Option Operand) :
    c.Executes (v.Is c.strings a) n [.call Runtime.printf.function.signature [text, v]]
      (do Action.print c.oracle format a; return none) (c.Delivers .void v') := by
  intro regs w w' hv hbefore
  rw [c.execute_singleton regs rfl]
  have hlogged : Seen c.limit (w.log (.print format a)) (w'.log (.print format a)) :=
    hbefore.seen.log rfl
  refine ⟨regs.put n none, { w'.log (.print format a) with
    outside := c.oracle.print format a w'.outside }, run_map ?_, ?_, fun h => (h rfl).elim⟩
  · rw [Instr.exec, Signature.exec_runtime, Runtime.exec, htext.constant, pure_bind, hv.value,
      pure_bind]
    rfl
  · refine .put _ _ ⟨hlogged.globals, hlogged.slots, ?_, hlogged.trace⟩
      ((hbefore.typed.log _).withOutside _)
    rw [hbefore.seen.outside]

theorem Eval.Action.run_read (o : Oracle π σ) (format : String) (w : World π σ) :
    (Action.read o format : Action π σ (Value π)) w = .ok ((o.read format w.outside).1,
      { w.log (.read format) with outside := (o.read format w.outside).2 }) := rfl

theorem Context.Before.slot {rest : List Instr} {w' : World π σ}
    (h : c.Before n ([.alloca ty] ++ rest) regs w w') :
    ∃ regs₁, execute c.oracle c.strings (c.lines n [.alloca ty]) regs w' = .ok (regs₁, w') ∧
      regs₁ n = some (.address ⟨.slot n, []⟩) ∧ ∀ i ≠ n, regs₁ i = regs i := by
  cases hapart : c.apart with
  | true =>
    have hlines : c.lines n [.alloca ty] = [] := by
      rw [lines, hapart]
      rfl
    rw [hlines]
    exact ⟨regs, rfl, h.scratch hapart ⟨n, .alloca ty⟩ (by simp [number, slotsOf, Instr.isSlot]),
      fun _ _ => rfl⟩
  | false =>
    have hlines : c.lines n [.alloca ty] = [⟨n, .alloca ty⟩] := by
      rw [lines, hapart]
      rfl
    rw [hlines]
    exact ⟨regs.put n (some (.address ⟨.slot n, []⟩)), rfl, if_pos rfl, fun i hi => if_neg hi⟩

/-- The code reads a value of the type. -/
theorem Context.executes_read (htext : IsText c.strings format text)
    (hfits : ∀ outside, (c.oracle.read format outside).1.Fits t) :
    c.Executes (fun _ => True) n ([.alloca ty] ++
        ([.call Runtime.scanf.function.signature [text, .reg n (.ptr ty)]] ++
          [.load ty (.reg n (.ptr ty))]))
      (do return some (← Action.read c.oracle format)) (c.Delivers t (some (.reg (n + 2) ty))) := by
  intro regs w w' _ hbefore
  let location : Address := ⟨.slot n, []⟩
  let value := (c.oracle.read format w.outside).1
  let outside := (c.oracle.read format w.outside).2
  -- the slot belongs to the machine alone
  obtain ⟨regs₁, hslot, hscratch, hkept⟩ := hbefore.slot
  have hhidden : location.root.visible c.limit = false :=
    decide_eq_false (Nat.not_lt.mpr hbefore.limit)
  let read : World π σ := { w'.log (.read format) with outside }
  have hread : (Action.read c.oracle format : Action π σ (Value π)) w' = .ok (value, read) := by
    rw [Action.run_read, hbefore.seen.outside]
  let stored : World π σ := read.set value location.root
  have hstored : stored.get location.root = value := by simp [stored, World.get_set]
  have hlogged : Seen c.limit (w.log (.read format)) (w'.log (.read format)) := hbefore.seen.log rfl
  have hsame : Seen c.limit { w.log (.read format) with outside } read :=
    ⟨hlogged.globals, hlogged.slots, rfl, hlogged.trace⟩
  have hload : (Access.load location : Access π).visible c.limit = false := hhidden
  have hseen : Seen c.limit { w.log (.read format) with outside } (stored.log (.load location)) :=
    (hsame.set_right value hhidden).log_right hload
  refine ⟨(regs₁.put (n + 1) none).put (n + 2) (some (.value value)), stored.log (.load location),
    ?_, ⟨?_, hseen, (hbefore.typed.log _).withOutside _⟩, fun _ => ⟨_, _, rfl, rfl, hfits _, ?_⟩⟩
  · have haddress (regs' : Regs π) (h : regs' n = regs₁ n) :
        (Operand.reg n (.ptr ty)).IsAt c.strings location regs' := h.trans hscratch
    have hcall : (Instr.call Runtime.scanf.function.signature [text, .reg n (.ptr ty)]).exec
      c.oracle
        c.strings regs₁ (n + 1) w' = .ok (none, stored) := by
      rw [Instr.exec, Signature.exec_runtime, Runtime.exec, (haddress regs₁ rfl).address, pure_bind,
        htext.constant, pure_bind, run_bind hread]
      rfl
    have hput : regs₁.put (n + 1) none n = regs₁ n := if_neg (Nat.ne_of_lt (Nat.lt_succ_self n))
    rw [c.lines_append, c.lines_append, execute_append, run_bind hslot, execute_append,
      c.execute_singleton _ rfl]
    simp only [List.length_singleton]
    rw [run_bind (run_map hcall), c.execute_singleton _ rfl]
    refine run_map (f := Regs.put _ (n + 2)) ?_
    rw [Instr.exec, (haddress _ hput).address, pure_bind,
      run_bind (run_load (v := value) (by rw [hstored]; rfl))]
    rfl
  · intro i hi
    simp only [List.length_append, List.length_singleton] at hi
    exact (if_neg (by omega)).trans ((if_neg (by omega)).trans (hkept i (by omega)))
  · exact Operand.is_put ty _ (n + 2) value

theorem Context.executes_halt {Q : Option (Value π) → Regs π → Prop} :
    c.Executes (v.Is c.strings a) n [.call Runtime.exit.function.signature [v]]
      (halt a) Q := by
  intro regs w w' hv hbefore
  rw [c.execute_singleton regs rfl, Instr.exec, Signature.exec_runtime, Runtime.exec, hv.value,
    pure_bind]
  exact ⟨w'.log (.halt a), rfl, hbefore.seen.log rfl⟩

theorem Context.executes_convert {instr : Instr} (ty : Ty) (hslot : instr.isSlot = false)
    (hfits : a.Fits t)
    (hexec : ∀ regs, P regs → instr.exec c.oracle c.strings regs n =
      (Pure.pure (some (.value a)) : Action π σ _)) :
    c.Executes P n [instr] (Pure.pure (some a)) (c.Delivers t (some (.reg n ty))) :=
  (Computes.value ty hslot hexec).returns fun _ ha _ => ⟨_, _, rfl, rfl, hfits, ha⟩

abbrev Eval.Value.FitAll (as : List (Value π)) (types : List DataType) : Prop :=
  List.Forall₂ Value.Fits as types

/-- A built-in subprogram prints, reads, converts or ends the program. -/
theorem BuiltinCode.executes (hsp : sp ∈ Subprogram.builtins) {values : List Operand}
    {v : Option Operand} (hcode : BuiltinCode c.strings n sp.name values code v)
    (hrespected : c.reference.Respected) (hfits : Value.FitAll as (sp.params.map (·.type))) :
    c.Executes (Operand.HaveValues c.strings values as) n code
      (Subprogram.evalBuiltin c.oracle sp.name as) (c.Delivers sp.result v) := by
  generalize hname : sp.name = name at hcode ⊢
  cases hcode with
  | @print _ format text v hformat htext =>
    have hshape : ∀ sp ∈ Subprogram.builtins, ∀ pair ∈ printFormats, sp.name = pair.1 →
        sp.result = .void ∧ sp.params.length = 1 := by decide
    obtain ⟨hresult, hparams⟩ := hshape sp hsp _ hformat hname
    obtain ⟨a, rfl⟩ := List.length_eq_one_iff.mp (hfits.length_eq.trans (by simpa using hparams))
    have heval : Subprogram.evalBuiltin c.oracle name [a] =
        (do Action.print c.oracle format a; return none) := by
      simp only [printFormats, List.mem_cons, Prod.mk.injEq, List.not_mem_nil, or_false] at hformat
      rcases hformat with ⟨rfl, rfl⟩ | ⟨rfl, rfl⟩ | ⟨rfl, rfl⟩ | ⟨rfl, rfl⟩ <;> rfl
    rw [heval, hresult]
    exact (executes_print htext none).imp (fun _ h => (List.forall₂_cons.mp h).1)
      fun _ _ h => h
  | @read _ format ty text hformat htext =>
    have hshape : ∀ sp ∈ Subprogram.builtins, ∀ row ∈ readFormats, sp.name = row.1 →
        sp.params.length = 0 := by decide
    obtain rfl := List.length_eq_zero_iff.mp
      (hfits.length_eq.trans (by simpa using hshape sp hsp _ hformat hname))
    have hread : Subprogram.evalBuiltin c.oracle name [] =
          (do return some (← Action.read c.oracle format)) ∧
        ∀ outside, (c.oracle.read format outside).1.Fits sp.result := by
      have hresults : ∀ sp ∈ Subprogram.builtins, (sp.name = "ReadInteger" → sp.result = .integer) ∧
        (sp.name = "ReadReal" → sp.result = .real) := by decide
      simp only [readFormats, List.mem_cons, Prod.mk.injEq, List.not_mem_nil, or_false] at hformat
      rcases hformat with ⟨rfl, rfl, -⟩ | ⟨rfl, rfl, -⟩
      · rw [(hresults sp hsp).1 hname]
        exact ⟨rfl, hrespected.readInteger⟩
      · rw [(hresults sp hsp).2 hname]
        exact ⟨rfl, hrespected.readReal⟩
    rw [hread.1]
    exact (executes_read htext hread.2).imp (fun _ _ => trivial) fun _ _ h => h
  | @toReal v =>
    have hshape : ∀ sp ∈ Subprogram.builtins, sp.name = "IntegerToReal" →
        sp.result = .real ∧ sp.params.map (·.type) = [.integer] := by decide
    obtain ⟨hresult, hparams⟩ := hshape sp hsp hname
    rw [hparams] at hfits
    rcases hfits with _ | ⟨@⟨a⟩, ⟨⟩⟩
    rw [hresult]
    refine executes_convert .double rfl .real fun regs h => ?_
    rw [Instr.exec, (List.forall₂_cons.mp h).1.value, pure_bind]
  | @toInteger v =>
    have hshape : ∀ sp ∈ Subprogram.builtins, sp.name = "RealToInteger" →
        sp.result = .integer ∧ sp.params.map (·.type) = [.real] := by decide
    obtain ⟨hresult, hparams⟩ := hshape sp hsp hname
    rw [hparams] at hfits
    rcases hfits with _ | ⟨_ | _ | @⟨a⟩, ⟨⟩⟩
    rw [hresult]
    refine executes_convert .i32 rfl .int fun regs h => ?_
    rw [Instr.exec, (List.forall₂_cons.mp h).1.value, pure_bind]
  | @halt v =>
    have hshape : ∀ sp ∈ Subprogram.builtins, sp.name = "HALT" → sp.params.length = 1 := by decide
    obtain ⟨a, rfl⟩ := List.length_eq_one_iff.mp
      (hfits.length_eq.trans (by simpa using hshape sp hsp hname))
    exact executes_halt.imp (fun _ h => (List.forall₂_cons.mp h).1) fun _ _ h => h

/-! ## Subprograms of the module -/

theorem Runtime.named?_functionName (moduleName name : String) :
    Runtime.named? (functionName moduleName name) = none := by
  have hne (host : String) (hhost : host ∈ reservedNames) : functionName moduleName name ≠ host :=
    functionName_ne_reserved hhost
  rw [Runtime.named?, if_neg (hne _ (by decide)), if_neg (hne _ (by decide)),
    if_neg (hne _ (by decide)), if_neg (hne _ (by decide))]

namespace Eval.Action

variable {β : Type} {o : Oracle π σ}

theorem run_call {result : Option (Value π)} {globals : String → Value π} {outside : σ}
    (h : o.call name as w.globals w.outside = some (result, globals, outside)) :
    (call o name as : Action π σ _) w =
      .ok (result, { w.log (.call name as) with globals, outside }) := by
  rw [call, run_get_bind, h]
  rfl

theorem run_call_none (h : o.call name as w.globals w.outside = none) :
    (call o name as : Action π σ _) w = .error (.left (w.log (.call name as))) := by
  rw [call, run_get_bind, h]
  rfl

end Eval.Action

theorem Context.executes_call {callee : Signature} (hname : c.setting.names name = some (.proc sp))
    (hbuiltin : sp.builtin = false) (hcallee : callee.name = functionName c.moduleName sp.name)
    (hrespected : c.reference.Respected) {values : List Operand}
    (hfits : Value.FitAll as (sp.params.map (·.type))) :
    c.Executes (Operand.HaveValues c.strings values as) n [.call callee values]
      (sp.evalCall c.reference as)
      (c.Delivers sp.result (if sp.result = .void then none else some (.reg n callee.result))) := by
  intro regs w w' hvalues hbefore
  have heval : sp.evalCall c.reference as = (do
      let result ← call c.oracle callee.name as
      return if sp.result = .void then none else result) := by
    rw [Subprogram.evalCall, hbuiltin, hcallee]
    rfl
  have hexec : (Instr.call callee values).exec c.oracle c.strings regs n = (do
      let result ← call c.oracle callee.name as
      return result.map .value : Action π σ (Option (Datum π))) := by
    rw [Instr.exec, Signature.exec, hcallee, Runtime.named?_functionName]
    dsimp only
    rw [hvalues.values, pure_bind]
  have hlogged : Seen c.limit (w.log (.call callee.name as)) (w'.log (.call callee.name as)) :=
    hbefore.seen.log rfl
  rw [heval, c.execute_singleton regs rfl, hexec]
  cases hcall : c.oracle.call callee.name as w.globals w.outside with
  | none =>
    have hcall' : c.oracle.call callee.name as w'.globals w'.outside = none := by
      rw [hbefore.seen.globals, hbefore.seen.outside, hcall]
    rw [run_bind_error (run_call_none hcall)]
    refine ⟨_, ?_, hlogged⟩
    rw [map_eq_pure_bind]
    exact run_bind_error (run_bind_error (run_call_none hcall'))
  | some answer =>
    obtain ⟨result, globals, outside⟩ := answer
    have hcall' : c.oracle.call callee.name as w'.globals w'.outside =
        some (result, globals, outside) := by
      rw [hbefore.seen.globals, hbefore.seen.outside, hcall]
    have hfits' : List.Forall₂ (fun a (v : Variable) => Value.Fits a v.type) as sp.params :=
      List.forall₂_map_right_iff.mp hfits
    have hanswer : c.oracle.call (functionName c.moduleName sp.name) as w.globals w.outside =
        some (result, globals, outside) := hcallee ▸ hcall
    obtain ⟨hresult, hglobals⟩ := hrespected.call name sp hname hbuiltin as w.globals
      w.outside result globals outside hfits' hanswer
    rw [run_bind (run_call hcall)]
    refine ⟨regs.put n (result.map .value), { w'.log (.call callee.name as) with globals, outside },
      ?_, .put _ _ ⟨rfl, hlogged.slots, rfl, hlogged.trace⟩ ?_, fun hvoid => ?_⟩
    · refine run_map ?_
      rw [run_bind (run_call hcall')]
      rfl
    · intro name v root hname hroot
      cases root with
      | global global =>
        exact hglobals name v global hname hroot (hbefore.typed name v _ hname hroot)
      | slot reg => exact hbefore.typed name v _ hname hroot
    · obtain ⟨a, rfl, ha⟩ := hresult hvoid
      rw [if_neg hvoid, if_neg hvoid]
      exact ⟨_, a, rfl, rfl, ha, Operand.is_put _ regs n a⟩

/-- The code of a call does what the call does. -/
theorem InvokeCode.executes (hsound : c.Sound) (hname : c.setting.names name = some (.proc sp))
    {values : List Operand} {v : Option Operand} (hcode : InvokeCode c.setting n sp values code v)
    (hfits : Value.FitAll as (sp.params.map (·.type))) :
    c.Executes (Operand.HaveValues c.strings values as) n code (sp.evalCall c.reference as)
      (c.Delivers sp.result v) := by
  cases hcode with
  | builtin hbuiltin hcode =>
    have heval : sp.evalCall c.reference as = Subprogram.evalBuiltin c.oracle sp.name as := by
      rw [Subprogram.evalCall, hbuiltin]
      rfl
    rw [heval]
    exact hcode.executes (hsound.builtin name sp hname hbuiltin) hsound.respected hfits
  | function hbuiltin hindex hcallee =>
    obtain ⟨_, _, hindex', hcallee', hcalled⟩ := hsound.proc name sp hname hbuiltin
    cases hindex.symm.trans hindex'
    cases hcallee.symm.trans hcallee'
    exact executes_call hname hbuiltin hcalled hsound.respected hfits

theorem InvokeCode.operand_below {k : CodeSetting} {values : List Operand}
    (h : InvokeCode k n sp values code (some v)) : v.Below (n + code.length) := by
  generalize hv : some v = v' at h
  cases h with
  | builtin _ hcode =>
    generalize sp.name = name at hcode
    cases hcode with
    | print | halt => cases hv
    | read | toReal | toInteger =>
      cases hv
      change _ < _
      simp
  | function =>
    split at hv
    · cases hv
    · cases hv
      exact Nat.lt_succ_self n

end Oberlet
