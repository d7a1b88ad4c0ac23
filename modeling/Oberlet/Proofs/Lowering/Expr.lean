import Oberlet.Proofs.Analysis.Correct
import Oberlet.Proofs.Lowering.Code

/-!
# Code generation for expressions

Code generation finds all it asks for in the annotations of a well-typed expression.
-/

namespace Oberlet

open Llvm Lowering Lower

/-- What the code of a body depends on while it is generated. -/
def Lowering.Env.setting (env : Env) (names : Names) (tables : Tables) : CodeSetting :=
  ⟨names, env.lookup, tables⟩

/-- The names of a body are bound to what they stand for. -/
structure Ready (names : Names) (env : Env) (tables : Tables) : Prop where
  var : ∀ name v, names name = some (.var v) → v.type.Proper ∧
    ∃ address content, env.lookup v.name = .ok (.storage address content) ∧
      v.type.target = .ok content ∧ address.ty = .ptr content
  proc : ∀ name sp, names name = some (.proc sp) → sp.builtin = false → sp.result.ProperResult ∧
    ∃ index callee, env.lookup sp.name = .ok (.function index) ∧
      tables.signatures[index]? = some callee ∧ sp.result.target = .ok callee.result
  builtin : ∀ name sp, names name = some (.proc sp) → sp.builtin = true →
    sp ∈ Subprogram.builtins

variable {env : Env} {names : Names} {tables : Tables} {t : DataType} {ty : Ty} {sp : Subprogram}

theorem Ready.mono {tables' : Tables} (h : Ready names env tables) (hle : tables.Le tables') :
    Ready names env tables' where
  var := h.var
  proc name sp hname hbuiltin := by
    obtain ⟨hresult, index, callee, hindex, hcallee, hty⟩ := h.proc name sp hname hbuiltin
    exact ⟨hresult, index, callee, hindex, hle.getElem?_signatures hcallee, hty⟩
  builtin := h.builtin

theorem Ready.inside (h : Ready names env tables) (exits : List Nat) :
    Ready names { env with loopExits := exits } tables :=
  ⟨h.var, h.proc, h.builtin⟩

/-! ## Types -/

theorem DataType.Proper.element {u : DataType} {levels : Nat} (h : t.Proper)
    (hu : t.Element levels u) : u.Proper := by
  induction hu with
  | whole => exact h
  | index _ ih => exact ih h.2

theorem DataType.Proper.target (h : t.Proper) : ∃ ty, t.target = .ok ty := by
  induction t with
  | integer | real | string | boolean => exact ⟨_, rfl⟩
  | void | unknown => exact h.elim
  | array size elem ih =>
    obtain ⟨ty, hty⟩ := ih h.2
    exact ⟨_, by rw [DataType.target, hty]; rfl⟩

theorem DataType.target_array {size : Int} {elem : DataType}
    (h : (DataType.array size elem).target = .ok ty) :
    ∃ elemTy, elem.target = .ok elemTy ∧ ty = .array (size % sizeCount).toNat elemTy := by
  rw [target] at h
  cases helem : elem.target with
  | error fault =>
    rw [helem] at h
    cases h
  | ok elemTy =>
    rw [helem] at h
    cases h
    exact ⟨elemTy, rfl, rfl⟩

theorem DataType.Proper.ne_void (h : t.Proper) (hty : t.target = .ok ty) : ty ≠ .void := by
  cases t with
  | void | unknown => exact h.elim
  | integer | real | string | boolean =>
    cases hty
    exact nofun
  | array size elem =>
    obtain ⟨_, -, rfl⟩ := target_array hty
    exact nofun

theorem Subprogram.result_of_mem_builtins (h : sp ∈ builtins) : sp.result.ProperResult := by
  revert sp
  simp only [builtins, List.forall_mem_cons, List.not_mem_nil, false_implies, implies_true,
    and_true]
  simp [ofBuiltin, DataType.ProperResult, DataType.Proper]

theorem HasType.proper {e : Expr} (h : HasType names e t) (hready : Ready names env tables) :
    t.Proper := by
  induction h with
  | @literal _ value => cases value <;> trivial
  | paren _ ih => exact ih
  | not | comparison => trivial
  | designator hname _ helem => exact (hready.var _ _ hname).1.element helem
  | @call _ _ _ sp hname _ _ hvoid =>
    have hresult : sp.result.ProperResult := by
      cases hbuiltin : sp.builtin with
      | true => exact Subprogram.result_of_mem_builtins (hready.builtin _ _ hname hbuiltin)
      | false => exact (hready.proc _ _ hname hbuiltin).1
    exact hresult.resolve_left hvoid
  | sum _ _ _ _ ih => exact ih
  | product _ _ _ ih => exact ih

/-! ## Comparisons -/

section Compare

variable {s : State}

theorem Lower.string_code (text : String) (s : State) :
    Generates (string text) s fun tables code v =>
      code = [] ∧ IsText tables.strings text v := by
  obtain ⟨index, s', hemits, hindex⟩ := Emits.string text s
  exact ⟨[], _, s', hemits, fun tables hle => ⟨rfl, index, hle.getElem?_strings hindex, rfl⟩⟩

theorem Lower.runtime_code (r : Runtime) (s : State) :
    Generates (runtime r) s fun tables code f =>
      code = [] ∧ f = r.function.signature ∧ f ∈ tables.signatures := by
  obtain ⟨s', hemits, hdeclared⟩ := Emits.runtime r s
  exact ⟨[], _, s', hemits, fun _ hle => ⟨rfl, rfl, hle.signatures.subset hdeclared⟩⟩

theorem Lower.call_code {callee : Signature} (h : callee ∈ s.tables.signatures)
    (args : List Operand) :
    Generates (emit (.call callee args)) s fun _ code v =>
      code = [.call callee args] ∧ v = .reg s.nextReg callee.result := by
  refine .emit rfl (fun _ => ⟨rfl, rfl⟩) ?_
  rintro _ _ ⟨⟩
  exact h

variable {l : Operand} {size : Nat} {r : Operand}

theorem Lower.icmp_code (pred : IntPred) (r : Operand)
    (hl : l.ty = .i1 ∨ l.ty = .i32 ∨ ∃ elem, l.ty = .ptr elem) :
    Generates (icmp pred l r) s fun _ code v =>
      code = [.icmp pred l r] ∧ v = .reg s.nextReg .i1 := by
  have hemit : icmp pred l r = emit (.icmp pred l r) := by
    rcases hl with hl | hl | ⟨elem, hl⟩ <;> (unfold icmp; rw [hl])
  rw [hemit]
  exact .emit rfl fun _ => ⟨rfl, rfl⟩

theorem Lower.fcmp_code (pred : RealPred) (r : Operand) (hl : l.ty = .double) :
    Generates (fcmp pred l r) s fun _ code v =>
      code = [.fcmp pred l r] ∧ v = .reg s.nextReg .i1 := by
  have hemit : fcmp pred l r = emit (.fcmp pred l r) := by
    unfold fcmp
    rw [hl]
  rw [hemit]
  exact .emit rfl fun _ => ⟨rfl, rfl⟩

theorem Lower.extractValue_code {aggregate : Operand} {elem : Ty} (index : Nat)
    (h : aggregate.ty = .array size elem) :
    Generates (extractValue aggregate index) s fun _ code v =>
      code = [.extractValue aggregate elem index] ∧ v = .reg s.nextReg elem := by
  have hemit : extractValue aggregate index =
      emit (.extractValue aggregate elem index) := by
    unfold extractValue
    rw [h]
  rw [hemit]
  exact .emit rfl fun _ => ⟨rfl, rfl⟩

theorem Lower.nonNull_code {v : Operand} (h : v.ty = .charPtr) :
    Generates (nonNull v) s fun tables code v' =>
      NonNullCode tables.strings s.nextReg v code v' := by
  by_cases htext : ∃ index size, v = .text index size
  · obtain ⟨index, size, rfl⟩ := htext
    exact .pure fun _ _ => .text
  · have hrun : nonNull v = (do
        let isNull ← icmp .eq v .null
        let empty ← string ""
        emit (.select isNull empty v)) := by
      cases v with
      | text index size => exact (htext ⟨index, size, rfl⟩).elim
      | _ => rfl
    rw [hrun]
    refine (icmp_code .eq .null (.inr (.inr ⟨_, h⟩))).bind ?_
    rintro - - s₁ hs₁ ⟨rfl, rfl⟩
    refine (string_code "" s₁).bind ?_
    rintro - empty s₂ hs₂ ⟨rfl, index, -, rfl⟩
    refine .emit rfl fun tables hempty _ => ?_
    rw [hs₂.nextReg, hs₁.nextReg]
    exact .select (fun index size hv => htext ⟨index, size, hv⟩) hempty.2

/-- The code that compares two values of a type can be generated. -/
def DataType.Comparable (t : DataType) : Prop :=
  ∀ l r s, t.target = .ok l.ty → t.target = .ok r.ty →
    Generates (t.lowerEquals l r) s fun tables code v =>
      EqualsCode tables.strings t s.nextReg l r code v ∧ v.ty = .i1

theorem DataType.elementsEqual_code {elem : DataType} (ih : elem.Comparable)
    (hty : elem.target = .ok ty) (hl : l.ty = .array size ty) (hr : r.ty = .array size ty)
    (count : Nat) (s : State) :
    Generates (elementsEqual elem.lowerEquals l r (count + 1)) s fun tables code v =>
      ∃ w, v = some w ∧ ElemsCode tables.strings elem (count + 1) s.nextReg l r code w ∧
        w.ty = .i1 := by
  induction count with
  | zero =>
    rw [elementsEqual, elementsEqual]
    refine (Generates.pure (P := fun _ code v => code = [] ∧ v = none)
      fun _ _ => ⟨rfl, rfl⟩).bind ?_
    rintro - - s₁ hs₁ ⟨rfl, rfl⟩
    refine (extractValue_code 0 hl).bind ?_
    rintro - - s₂ hs₂ ⟨rfl, rfl⟩
    refine (extractValue_code 0 hr).bind ?_
    rintro - - s₃ hs₃ ⟨rfl, rfl⟩
    refine (ih (.reg s₁.nextReg ty) (.reg s₂.nextReg ty) s₃ hty hty).bind fun code v s₄ hs₄ hv => ?_
    refine .pure fun tables _ hcode _ _ _ => ⟨v, rfl, ?_, hv.2⟩
    rw [hs₃.nextReg, hs₂.nextReg, hs₁.nextReg] at hcode
    rw [List.append_nil]
    exact .one hty hcode.1
  | succ count ihcount =>
    rw [elementsEqual]
    refine ihcount.bind ?_
    rintro before - s₁ hs₁ ⟨v, rfl, hbefore, hv⟩
    refine (extractValue_code (count + 1) hl).bind ?_
    rintro - - s₂ hs₂ ⟨rfl, rfl⟩
    refine (extractValue_code (count + 1) hr).bind ?_
    rintro - - s₃ hs₃ ⟨rfl, rfl⟩
    refine (ih (.reg s₁.nextReg ty) (.reg s₂.nextReg ty) s₃ hty hty).bind fun code w s₄ hs₄ hw => ?_
    refine .map (.emit rfl (fun tables hcode _ _ hbefore => ⟨_, rfl, ?_, hv⟩) (by simp))
    obtain ⟨_, ⟨⟩, hbefore, -⟩ := hbefore
    rw [hs₃.nextReg, hs₂.nextReg, hs₁.nextReg] at hcode
    rw [hs₄.nextReg, hs₃.nextReg, hs₂.nextReg, hs₁.nextReg, Instr.ty, hv]
    exact .more hbefore rfl hty hcode.1

/-- The code that compares values of the type is generated. -/
theorem DataType.Proper.comparable (h : t.Proper) : t.Comparable := by
  induction t with
  | void | unknown => exact h.elim
  | integer =>
    intro l r s hl _
    rw [lowerEquals]
    refine (icmp_code .eq r (.inr (.inl (Except.ok.inj hl).symm))).imp ?_
    rintro tables - - ⟨rfl, rfl⟩
    exact ⟨.integer, rfl⟩
  | boolean =>
    intro l r s hl _
    rw [lowerEquals]
    refine (icmp_code .eq r (.inl (Except.ok.inj hl).symm)).imp ?_
    rintro tables - - ⟨rfl, rfl⟩
    exact ⟨.boolean, rfl⟩
  | real =>
    intro l r s hl _
    rw [lowerEquals]
    refine (fcmp_code .oeq r (Except.ok.inj hl).symm).imp ?_
    rintro tables - - ⟨rfl, rfl⟩
    exact ⟨.real, rfl⟩
  | string =>
    intro l r s hl hr
    rw [lowerEquals]
    refine (runtime_code .strcmp s).bind ?_
    rintro - - s₁ hs₁ ⟨rfl, rfl, hdeclared⟩
    refine (nonNull_code (Except.ok.inj hl).symm).bind fun front l' s₂ hs₂ _ => ?_
    refine (nonNull_code (Except.ok.inj hr).symm).bind fun back r' s₃ hs₃ _ => ?_
    have hdeclared := (hs₂.tables.trans hs₃.tables).signatures.subset hdeclared
    refine (call_code hdeclared [l', r']).bind ?_
    rintro - - s₄ hs₄ ⟨rfl, rfl⟩
    refine (icmp_code .eq (.int 0) (.inr (.inl rfl))).imp ?_
    rintro tables - - ⟨rfl, rfl⟩ _ hback hfront _
    refine ⟨?_, rfl⟩
    rw [hs₂.nextReg, hs₁.nextReg] at hback
    rw [hs₁.nextReg] at hfront
    rw [hs₄.nextReg, hs₃.nextReg, hs₂.nextReg, hs₁.nextReg]
    exact .string hfront hback rfl
  | array size elem ih =>
    intro l r s hl hr
    obtain ⟨ty, hty, hlty⟩ := target_array hl
    obtain ⟨ty', hty', hrty⟩ := target_array hr
    cases hty.symm.trans hty'
    obtain ⟨count, hcount⟩ : ∃ count, size.toNat = count + 1 :=
      ⟨size.toNat - 1, by have := h.1; omega⟩
    rw [lowerEquals, hcount]
    refine (elementsEqual_code (ih h.2) hty hlty hrty count s).bind ?_
    rintro code - s₁ hs₁ ⟨v, rfl, -, hv⟩
    refine .pure fun tables _ hcode => ⟨?_, hv⟩
    obtain ⟨_, hv', hcode, -⟩ := hcode
    cases hv'
    rw [List.append_nil]
    exact .array (hcount ▸ hcode)

theorem RelOp.lower_code {op : RelOp} (hop : op.Compares t) (ht : t.Proper)
    (hl : t.target = .ok l.ty) (hr : t.target = .ok r.ty) :
    Generates (op.lower t l r) s fun tables code v =>
      CompareCode tables.strings s.nextReg l r op t code v ∧ v.ty = .i1 := by
  by_cases hnumeric : t.Numeric
  · cases hnumeric with
    | integer =>
      refine (icmp_code op.intPred r (.inr (.inl (Except.ok.inj hl).symm))).imp ?_
      rintro tables - - ⟨rfl, rfl⟩
      exact ⟨.integer, rfl⟩
    | real =>
      refine (fcmp_code op.realPred r (Except.ok.inj hl).symm).imp ?_
      rintro tables - - ⟨rfl, rfl⟩
      exact ⟨.real, rfl⟩
  · have hequals := ht.comparable l r s hl hr
    cases hop with
    | eq =>
      have hrun : RelOp.eq.lower t l r = t.lowerEquals l r := by
        cases t <;> rfl
      rw [hrun]
      exact hequals.imp fun tables code v h => ⟨.eq hnumeric h.1, h.2⟩
    | neq =>
      have hrun : RelOp.neq.lower t l r = (do invert (← t.lowerEquals l r)) := by
        cases t <;> first | rfl | exact (hnumeric .integer).elim | exact (hnumeric .real).elim
      rw [hrun]
      refine hequals.bind fun code v s₁ hs₁ hv => ?_
      refine .emit rfl fun tables hcode => ⟨?_, hv.2⟩
      rw [hs₁.nextReg]
      exact .neq hnumeric hcode.1
    | lt h | ltEq h | gt h | gtEq h => exact (hnumeric h).elim

end Compare

/-! ## Calls -/

/-- What the code of a call returns has the result type; there is nothing if that is `void`. -/
inductive DataType.Returns : DataType → Option Operand → Prop
  | nothing : Returns .void none
  | value {t : DataType} {v : Operand} : t ≠ .void → t.target = .ok v.ty → Returns t (some v)

theorem DataType.Returns.exists_some {v : Option Operand} (h : t.Returns v) (hvoid : t ≠ .void) :
    ∃ w, v = some w ∧ t.target = .ok w.ty := by
  cases h with
  | nothing => exact (hvoid rfl).elim
  | value _ hv => exact ⟨_, rfl, hv⟩

/-- Whether a name stands for the built-in HALT. -/
def Names.halts (names : Names) (name : String) : Bool :=
  match names name with
  | some (.proc sp) => sp.builtin && sp.name == "HALT"
  | _ => false

theorem Ready.halts_eq_false (hready : Ready names env tables) {name : String}
    (hname : names name = some (.proc sp)) (hvoid : sp.result ≠ .void) :
    names.halts name = false := by
  have hresult : ∀ sp ∈ Subprogram.builtins, sp.name = "HALT" → sp.result = .void := by decide
  rw [Names.halts, hname, Bool.eq_false_iff]
  intro hhalts
  simp only [Bool.and_eq_true, beq_iff_eq] at hhalts
  exact hvoid (hresult sp (hready.builtin name sp hname hhalts.1) hhalts.2)

section Calls

variable {s : State} {values : List Operand}

theorem Lower.print_code (name format : String) (h : (name, format) ∈ printFormats)
    (hlength : values.length = 1) :
    Generates (do print format values; return none) s fun tables code w =>
      BuiltinCode tables.strings s.nextReg name values code w ∧ DataType.void.Returns w := by
  obtain ⟨v, rfl⟩ := List.length_eq_one_iff.mp hlength
  refine .map (g := fun _ => none) ?_
  refine (runtime_code .printf s).bind ?_
  rintro - - s₁ hs₁ ⟨rfl, rfl, hdeclared⟩
  refine (string_code format s₁).bind ?_
  rintro - text s₂ hs₂ ⟨rfl, -⟩
  refine .map ((call_code (hs₂.tables.signatures.subset hdeclared) [text, v]).imp ?_)
  rintro tables - - ⟨rfl, -⟩ htext _
  exact ⟨.print h htext.2, .nothing⟩

theorem Lower.read_code (name format : String) (h : (name, format, ty) ∈ readFormats)
    (hlength : values.length = 0) (hvoid : t ≠ .void) (ht : t.target = .ok ty) :
    Generates (do return some (← read format ty)) s fun tables code w =>
      BuiltinCode tables.strings s.nextReg name values code w ∧ t.Returns w := by
  obtain rfl := List.length_eq_zero_iff.mp hlength
  refine .map ?_
  have halloca : Generates (entryAlloca ty) s fun _ code v =>
      code = [.alloca ty] ∧ v = .reg s.nextReg (.ptr ty) :=
    ⟨_, _, _, .entryAlloca ty s, fun _ _ => ⟨rfl, rfl⟩⟩
  refine halloca.bind ?_
  rintro - - s₁ hs₁ ⟨rfl, rfl⟩
  refine (runtime_code .scanf s₁).bind ?_
  rintro - - s₂ hs₂ ⟨rfl, rfl, hdeclared⟩
  refine (string_code format s₂).bind ?_
  rintro - text s₃ hs₃ ⟨rfl, -⟩
  refine (call_code (hs₃.tables.signatures.subset hdeclared) _).bind ?_
  rintro - - s₄ hs₄ ⟨rfl, -⟩
  refine .emit rfl fun tables _ htext _ _ => ⟨?_, .value hvoid ht⟩
  rw [hs₄.nextReg, hs₃.nextReg, hs₂.nextReg, hs₁.nextReg]
  exact .read h htext.2

theorem Subprogram.lowerBuiltin_code (h : sp ∈ builtins) (hhalt : sp.name ≠ "HALT")
    (hlength : values.length = sp.params.length) :
    Generates (lowerBuiltin sp.name values) s fun tables code v =>
      BuiltinCode tables.strings s.nextReg sp.name values code v ∧ sp.result.Returns v := by
  simp only [builtins, List.mem_cons, List.not_mem_nil, or_false] at h
  rcases h with rfl | rfl | rfl | rfl | rfl | rfl | rfl | rfl | rfl
  · exact print_code "PrintInteger" "%d" (by decide) hlength
  · exact print_code "PrintReal" "%f" (by decide) hlength
  · exact print_code "PrintString" "%s" (by decide) hlength
  · exact print_code "PrintLine" "%s\n" (by decide) hlength
  · exact read_code "ReadInteger" "%d" (by decide) hlength (by decide) rfl
  · exact read_code "ReadReal" "%lf" (by decide) hlength (by decide) rfl
  · obtain ⟨v, rfl⟩ := List.length_eq_one_iff.mp hlength
    exact .map (.emit rfl fun _ => ⟨.toReal, .value (by decide) rfl⟩)
  · obtain ⟨v, rfl⟩ := List.length_eq_one_iff.mp hlength
    exact .map (.emit rfl fun _ => ⟨.toInteger, .value (by decide) rfl⟩)
  · exact (hhalt rfl).elim

end Calls

section Expressions

variable {s : State}

/-- A call generates the code of a built-in or of a call by name. -/
theorem Subprogram.lowerCall_code {name : String} (hready : Ready names env s.tables)
    (hname : names name = some (.proc sp)) (hhalt : names.halts name = false)
    {values : List Operand} (hlength : values.length = sp.params.length) :
    Generates (sp.lowerCall env values) s fun tables code v =>
      InvokeCode (env.setting names tables) s.nextReg sp values code v ∧ sp.result.Returns v := by
  cases hbuiltin : sp.builtin with
  | true =>
    have hrun : sp.lowerCall env values = lowerBuiltin sp.name values := by
      simp [lowerCall, hbuiltin]
    have hhalt : sp.name ≠ "HALT" := by simpa [Names.halts, hname, hbuiltin] using hhalt
    rw [hrun]
    have hmem := hready.builtin name sp hname hbuiltin
    exact (lowerBuiltin_code hmem hhalt hlength).imp fun _ _ _ h => ⟨.builtin hbuiltin h.1, h.2⟩
  | false =>
    obtain ⟨hresult, index, _, hindex, hcallee, hty⟩ := hready.proc name sp hname hbuiltin
    obtain ⟨f, hf, rfl⟩ : ∃ f, s.functions[index]? = some f ∧ f.signature = _ := by
      simpa only [State.tables, List.getElem?_map, Option.map_eq_some_iff] using hcallee
    have hemit := (call_code (List.mem_of_getElem? hcallee) values).above
    rw [lowerCall, hbuiltin]
    refine .lift_bind hindex (.get_bind ?_)
    rw [hf]
    refine .map (hemit.imp ?_)
    rintro tables - - ⟨hle, rfl, rfl⟩
    simp only [beq_iff_eq]
    refine ⟨.function hbuiltin hindex (hle.getElem?_signatures hcallee), ?_⟩
    split
    next hvoid => exact hvoid ▸ .nothing
    next hvoid => exact .value hvoid hty

/-! ## Expressions -/

/-- The code of an expression can be generated, and its value has the target type of `t`. -/
def Expr.Generated (names : Names) (env : Env) (e : Expr) (t : DataType) : Prop :=
  ∀ s, Ready names env s.tables → Generates (e.lower env) s fun tables code v =>
    ExprCode (env.setting names tables) e s.nextReg code v ∧ t.target = .ok v.ty

theorem lowerArgs_code (hready : Ready names env s.tables) {args : List Expr}
    {params : List Variable} (hlength : args.length = params.length)
    (h : ∀ pair ∈ args.zip params, pair.1.Generated names env pair.2.type) :
    Generates (lowerArgs env args) s fun tables code values =>
      ArgsCode (env.setting names tables) args s.nextReg code values ∧
        values.length = params.length := by
  induction args generalizing params s with
  | nil =>
    rw [lowerArgs]
    exact .pure fun _ _ => ⟨.nil, hlength⟩
  | cons arg rest ih =>
    cases params with
    | nil => cases hlength
    | cons param params =>
      rw [List.zip_cons_cons, List.forall_mem_cons] at h
      rw [lowerArgs]
      refine (h.1 s hready).bind fun front v s₁ hs₁ _ => ?_
      refine .map ((ih (hready.mono hs₁.tables) (Nat.succ.inj hlength) h.2).imp ?_)
      intro tables back values hback hfront
      refine ⟨.cons hfront.1 ?_, congrArg (· + 1) hback.2⟩
      rw [← hs₁.nextReg]
      exact hback.1

variable {v : Operand}

theorem lowerChain_code (hready : Ready names env s.tables) {rest : List (BinOp × Expr)}
    (hops : ∀ pair ∈ rest, pair.1.Joins t) (h : ∀ pair ∈ rest, pair.2.Generated names env t)
    (hv : t.target = .ok v.ty) : Generates (lowerChain env t v rest) s fun tables code w =>
      ChainCode (env.setting names tables) t v rest s.nextReg code w ∧ t.target = .ok w.ty := by
  induction rest generalizing s v with
  | nil =>
    rw [lowerChain]
    exact .pure fun _ _ => ⟨.nil, hv⟩
  | cons pair rest ih =>
    obtain ⟨op, operand⟩ := pair
    rw [List.forall_mem_cons] at hops h
    obtain ⟨instr, hinstr⟩ : ∃ instr, op.instr? t = some instr := by
      rcases hops.1 with _ | _ | ⟨⟨⟩⟩ | ⟨⟨⟩⟩ | ⟨⟨⟩⟩ | ⟨⟨⟩⟩ | ⟨⟨⟩⟩ <;> exact ⟨_, rfl⟩
    rw [lowerChain]
    refine (h.1 s hready).bind fun front r s₁ hs₁ _ => ?_
    rw [BinOp.lower, hinstr]
    refine (Generates.emit (P := fun _ code w =>
      code = [.binary instr v r] ∧ w = .reg s₁.nextReg v.ty) rfl fun _ => ⟨rfl, rfl⟩).bind ?_
    rintro - - s₂ hs₂ ⟨rfl, rfl⟩
    have hv' : t.target = .ok (Operand.reg s₁.nextReg v.ty).ty := hv
    refine (ih (hready.mono (hs₁.tables.trans hs₂.tables)) hops.2 h.2 hv').imp ?_
    intro tables back w hback _ hfront
    rw [hs₂.nextReg, hs₁.nextReg] at hback
    exact ⟨.cons hfront.1 hinstr hback.1, hback.2⟩

/-- Selectors generate the address that they lead to. -/
theorem lowerSelectors_code (hready : Ready names env s.tables) {selectors : List Expr}
    (h : ∀ selector ∈ selectors, selector.Generated names env .integer) {u : DataType}
    (helem : t.Element selectors.length u) {base : Operand} {content : Ty}
    (ht : t.target = .ok content) (hbase : base.ty = .ptr content) :
    Generates (lowerSelectors env base content selectors) s fun tables code address =>
      SelectorsCode (env.setting names tables) base content selectors s.nextReg code address ∧
        ∃ ty, u.target = .ok ty ∧ address.ty = .ptr ty := by
  induction selectors generalizing s t base content with
  | nil =>
    cases helem
    rw [lowerSelectors]
    exact .pure fun _ _ => ⟨.nil, content, ht, hbase⟩
  | cons selector rest ih =>
    rw [List.forall_mem_cons] at h
    cases helem with
    | @index size elem _ _ helem =>
    obtain ⟨ty, hty, rfl⟩ := DataType.target_array ht
    rw [lowerSelectors]
    refine (h.1 s hready).bind fun front index s₁ hs₁ hindex => ?_
    have hptr : elementPtr (size % DataType.sizeCount).toNat ty base index =
        emit (.elementPtr (size % DataType.sizeCount).toNat ty base index) := by
      cases index with
      | real value => cases hindex.2
      | _ => rfl
    rw [hptr]
    refine (Generates.emit (P := fun _ code w =>
      code = [.elementPtr (size % DataType.sizeCount).toNat ty base index] ∧
        w = .reg s₁.nextReg (.ptr ty)) rfl fun _ => ⟨rfl, rfl⟩).bind ?_
    rintro - - s₂ hs₂ ⟨rfl, rfl⟩
    refine (ih (hready.mono (hs₁.tables.trans hs₂.tables)) h.2 helem hty rfl).imp ?_
    intro tables back address hback _ hfront
    rw [hs₂.nextReg, hs₁.nextReg] at hback
    exact ⟨.cons hfront.1 hback.1, hback.2⟩

variable {p : Program}

theorem Designator.address_code (hready : Ready names env s.tables) {d : Designator Expr}
    (hann : (Expr.designator d).AnnotatedBy p names env.annotations)
    (ht : HasType names (.designator d) t)
    (h : ∀ selector ∈ d.selectors, selector.Generated names env .integer) :
    Generates (d.address env) s fun tables code address =>
      AddressCode (env.setting names tables) d s.nextReg code address ∧
        ∃ ty, t.target = .ok ty ∧ address.ty = .ptr ty := by
  obtain ⟨node, name, selectors⟩ := d
  obtain ⟨v, hname, hsymbol⟩ := hann.var _ rfl
  cases ht with
  | designator hname' _ helem =>
  cases hname.symm.trans hname'
  obtain ⟨-, base, content, hlookup, hcontent, hbase⟩ := hready.var _ v hname
  rw [Designator.address]
  refine .lift_bind hsymbol (.lift_bind hlookup ?_)
  refine (lowerSelectors_code hready h helem hcontent hbase).imp fun tables code address hcode => ?_
  exact ⟨.intro hname hlookup hcode.1, hcode.2⟩

theorem Call.lower_code (hready : Ready names env s.tables) {c : Call Expr}
    (hann : (Expr.call c).AnnotatedBy p names env.annotations) (ht : c.HasResult names t)
    (hhalt : names.halts c.callee.name = false)
    (h : ∀ sp, names c.callee.name = some (.proc sp) → ∀ pair ∈ c.args.zip sp.params,
      pair.1.Generated names env pair.2.type) :
    Generates (c.lower env) s fun tables code v =>
      CallCode (env.setting names tables) c s.nextReg code v ∧ t.Returns v := by
  obtain ⟨sp, hname, hsymbol⟩ := hann.proc c rfl
  cases ht with
  | intro hname' hlength =>
  cases hname.symm.trans hname'
  rw [Call.lower]
  refine .lift_bind hsymbol ?_
  refine (lowerArgs_code hready hlength (h sp hname)).bind fun front values s₁ hs₁ hvalues => ?_
  refine (Subprogram.lowerCall_code (hready.mono hs₁.tables) hname hhalt hvalues.2).imp ?_
  intro tables back v hback hfront
  rw [hs₁.nextReg] at hback
  exact ⟨.intro hname hfront.1 hback.1, hback.2⟩

theorem Literal.lower_code (node : Node) (value : Literal) :
    Generates value.lower s fun tables code v =>
      ExprCode (env.setting names tables) (.literal node value) s.nextReg code v ∧
        value.type.target = .ok v.ty := by
  cases value with
  | integer value => exact .pure fun _ _ => ⟨.integer, rfl⟩
  | real value => exact .pure fun _ _ => ⟨.real, rfl⟩
  | boolean value => exact .pure fun _ _ => ⟨.boolean, rfl⟩
  | string value =>
    refine (string_code value s).imp ?_
    rintro tables - v ⟨rfl, htext⟩
    obtain ⟨index, -, rfl⟩ := id htext
    exact ⟨.string htext, rfl⟩

theorem Lower.negate_code (ht : t.Numeric) (hv : t.target = .ok v.ty) :
    Generates (negate t v) s fun _ code w =>
      NegateCode s.nextReg v t code w ∧ t.target = .ok w.ty := by
  cases ht with
  | integer => exact .emit rfl fun _ => ⟨.integer, rfl⟩
  | real => exact .emit rfl fun _ => ⟨.real, hv⟩

/-- A well-typed expression generates its code. -/
theorem HasType.generated {e : Expr} (ht : HasType names e t)
    (hann : ∀ part ∈ e.parts, part.AnnotatedBy p names env.annotations) :
    e.Generated names env t := by
  have htype {e : Expr} {u : DataType} (hself : e.AnnotatedBy p names env.annotations)
      (hu : HasType names e u) : env.annotations.typeOf e.id = .ok u :=
    (hself.type u).mpr (.inl hu)
  induction ht with
  | @literal node value => exact fun s _ => Literal.lower_code node value
  | @paren node inner t _ ih =>
    intro s hready
    rw [Expr.lower]
    exact (ih ((Expr.forall_parts rfl).mp hann).1 s hready).imp
      fun tables code v h => ⟨.paren h.1, h.2⟩
  | not _ ih =>
    intro s hready
    have ih := ih ((Expr.forall_parts rfl).mp hann).1
    rw [Expr.lower]
    refine (ih s hready).bind fun code v s₁ hs₁ hv => .emit rfl fun tables hcode => ⟨?_, hv.2⟩
    rw [hs₁.nextReg]
    exact .not hcode.1
  | @designator node name selectors v t hname hselectors helem ih =>
    intro s hready
    have ht : HasType names (.designator ⟨node, name, selectors⟩) t :=
      .designator hname hselectors helem
    obtain ⟨hselector, hself⟩ := (Expr.forall_parts rfl).mp hann
    have ih := fun selector hmem => ih selector hmem (forall_partsOfAll.mp hselector _ hmem)
    obtain ⟨ty, hty⟩ := (ht.proper hready).target
    rw [Expr.lower]
    refine .lift_bind (htype hself ht) (.lift_bind hty ?_)
    refine (Designator.address_code hready hself ht ih).bind fun code address s₁ hs₁ h => ?_
    refine .emit rfl fun tables hcode => ⟨?_, hty⟩
    rw [hs₁.nextReg]
    exact .designator ht hty hcode.1
  | @call node callee args sp hname hlength hargs hvoid ih =>
    intro s hready
    obtain ⟨harg, hself⟩ := (Expr.forall_parts rfl).mp hann
    have hhalt := hready.halts_eq_false hname hvoid
    have ih : ∀ sp', names callee.name = some (.proc sp') → ∀ pair ∈ args.zip sp'.params,
        pair.1.Generated names env pair.2.type := by
      intro sp' hname' pair hpair
      cases hname.symm.trans hname'
      exact ih pair hpair (forall_partsOfAll.mp harg _ (List.of_mem_zip hpair).1)
    rw [Expr.lower]
    have hcall := Call.lower_code hready hself (.intro hname hlength hargs) hhalt ih
    refine hcall.bind fun code v s₁ hs₁ hv => ?_
    obtain ⟨w, rfl, hw⟩ := hv.2.exists_some hvoid
    refine .pure fun tables _ hcode => ⟨?_, hw⟩
    rw [List.append_nil]
    exact .call hcode.1
  | @comparison node left right op t hleft hright hop ihl ihr =>
    intro s hready
    obtain ⟨hannl, hannr⟩ := List.forall_mem_append.mp ((Expr.forall_parts rfl).mp hann).1
    rw [Expr.lower]
    refine .lift_bind (htype (hannl left left.self_mem_parts) hleft) ?_
    refine (ihl hannl s hready).bind fun front l s₁ hs₁ hl => ?_
    refine (ihr hannr s₁ (hready.mono hs₁.tables)).bind fun mid r s₂ hs₂ hr => ?_
    refine (RelOp.lower_code hop (hleft.proper hready) hl.2 hr.2).imp ?_
    intro tables back v hback hmid hfront
    rw [hs₂.nextReg, hs₁.nextReg] at hback
    rw [hs₁.nextReg] at hmid
    refine ⟨.comparison hleft hfront.1 hmid.1 hback.1, ?_⟩
    rw [hback.2]
    rfl
  | @sum node negate first rest t hfirst hsign hops hoperands ih ihs =>
    intro s hready
    obtain ⟨hann, hanns⟩ := List.forall_mem_append.mp ((Expr.forall_parts rfl).mp hann).1
    have ihs := fun pair hmem => ihs pair hmem (forall_partsOfChain.mp hanns _ hmem)
    have hannotated := htype (hann first first.self_mem_parts) hfirst
    rw [Expr.lower]
    refine (ih hann s hready).bind fun front v s₁ hs₁ hv => ?_
    cases negate with
    | false =>
      change Generates (liftM (env.annotations.typeOf first.id) >>= fun type =>
        lowerChain env type v rest) s₁ _
      refine .lift_bind hannotated ?_
      refine (lowerChain_code (hready.mono hs₁.tables) hops ihs hv.2).imp ?_
      intro tables back w hback hfront
      rw [hs₁.nextReg] at hback
      exact ⟨.sum hfirst hfront.1 hback.1, hback.2⟩
    | true =>
      refine .lift_bind hannotated ?_
      refine (negate_code (hsign rfl) hv.2).bind fun sign v' s₂ hs₂ hv' => ?_
      refine .lift_bind hannotated ?_
      refine (lowerChain_code (hready.mono (hs₁.tables.trans hs₂.tables)) hops ihs hv'.2).imp ?_
      intro tables back w hback hsign hfront
      rw [hs₂.nextReg, hs₁.nextReg] at hback
      rw [hs₁.nextReg] at hsign
      exact ⟨.negated hfirst hfront.1 hsign.1 hback.1, hback.2⟩
  | @product node first rest t hfirst hops hoperands ih ihs =>
    intro s hready
    obtain ⟨hann, hanns⟩ := List.forall_mem_append.mp ((Expr.forall_parts rfl).mp hann).1
    have ihs := fun pair hmem => ihs pair hmem (forall_partsOfChain.mp hanns _ hmem)
    have hannotated := htype (hann first first.self_mem_parts) hfirst
    rw [Expr.lower]
    refine (ih hann s hready).bind fun front v s₁ hs₁ hv => .lift_bind hannotated ?_
    refine (lowerChain_code (hready.mono hs₁.tables) hops ihs hv.2).imp ?_
    intro tables back w hback hfront
    rw [hs₁.nextReg] at hback
    exact ⟨.product hfirst hfront.1 hback.1, hback.2⟩

theorem Program.Annotated.generated {annotations : Annotations} (hann : p.Annotated annotations)
    {body : Body} (hbody : body ∈ p.bodies) (hwell : body.WellTyped) {part : Expr}
    (hpart : part ∈ partsOfBody body.stmts) (ht : HasType body.names part t)
    (henv : env.annotations = annotations) : part.Generated body.names env t := by
  subst henv
  exact ht.generated fun sub hsub => hann.annotatedBy hbody hwell
    ((parts_sublist_body _ hpart).subset hsub)

end Expressions

end Oberlet
