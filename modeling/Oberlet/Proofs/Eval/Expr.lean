import Oberlet.Proofs.Eval.Call
import Oberlet.Proofs.Eval.Compare

/-!
# Expressions
-/

namespace Oberlet

open Llvm Lowering Eval

variable {π : Primitives} {σ : Type} {c : Context π σ} {n : Nat} {code : List Instr}
  {l r v address : Operand} {t : DataType} {a b : Value π} {op : BinOp}

/-! ## Operators -/

theorem BinOp.eval_int (hop : op.isLogical = false) (a b : BitVec 32) :
    (op.eval (.int a) (.int b) : Except Trap (Value π)) ≠ .error .illTyped ∧
      ∀ value : Value π, op.eval (.int a) (.int b) = .ok value → value.Fits .integer := by
  have hne : op.evalInt a b ≠ .error .illTyped := by
    cases op with
    | or | and => cases hop
    | add | sub | mul => exact nofun
    | div | mod =>
      dsimp only [BinOp.evalInt]
      split
      · exact nofun
      · split <;> exact nofun
  have heval : (op.eval (.int a) (.int b) : Except Trap (Value π)) =
      Except.bind (op.evalInt a b) fun value => .ok (.int value) := rfl
  rw [heval]
  cases hresult : op.evalInt a b with
  | error reason =>
    rw [hresult] at hne
    exact ⟨fun heq => hne (congrArg _ (Except.error.inj heq)), nofun⟩
  | ok value =>
    refine ⟨nofun, ?_⟩
    rintro _ ⟨⟩
    exact .int

/-- The instruction of an operator computes what the operator does. -/
theorem BinOp.exec_instr {instr : BinaryOp} (hop : op.Joins t) (hinstr : op.instr? t = some instr)
    (ha : a.Fits t) (hb : b.Fits t) :
    instr.exec a b = op.eval a b ∧ op.eval a b ≠ .error .illTyped ∧
      ∀ value, op.eval a b = .ok value → value.Fits t := by
  cases hop with
  | or | and =>
    cases ha
    cases hb
    cases hinstr
    exact ⟨rfl, nofun, by rintro _ ⟨⟩; exact .bool⟩
  | add ht | sub ht | mul ht | div ht | mod ht =>
    cases ht with
    | integer =>
      cases ha
      cases hb
      cases hinstr
      refine ⟨?_, BinOp.eval_int rfl _ _⟩
      first
        | rfl
        | dsimp only [BinaryOp.exec, BinOp.eval, BinOp.evalInt]
          split
          · rfl
          · split <;> rfl
    | real =>
      cases ha
      cases hb
      cases hinstr
      exact ⟨rfl, nofun, by rintro _ ⟨⟩; exact .real⟩

theorem Eval.Value.negate_numeric (ht : t.Numeric) (ha : a.Fits t) :
    ∃ value, a.negate = .ok value ∧ value.Fits t := by
  cases ht with
  | integer =>
    cases ha
    exact ⟨_, rfl, .int⟩
  | real =>
    cases ha
    exact ⟨_, rfl, .real⟩

theorem NegateCode.computes (hcode : NegateCode n v t code r) {value : Value π}
    (hvalue : a.negate = .ok value) (ha : a.Fits t) :
    c.Computes (v.Is c.strings a) n code (r.Is c.strings value) := by
  cases hcode with
  | integer =>
    cases ha with
    | @int a =>
    cases hvalue
    have hsub : BinaryOp.exec .sub (.int 0) (.int a) = .ok (Value.int (-a) : Value π) := by
      rw [← BitVec.zero_sub]
      rfl
    exact (Context.Computes.binary .i32 hsub).imp (fun _ h => ⟨rfl, h⟩) fun _ h => h
  | real =>
    cases ha
    cases hvalue
    refine .value v.ty rfl fun regs h => ?_
    rw [Instr.exec, h.value, pure_bind]

theorem NegateCode.operand_below (hcode : NegateCode n v t code r) : r.Below (n + code.length) := by
  cases hcode with
  | integer | real => exact Nat.lt_succ_self n

theorem Context.computes_invert (v : Operand) (a : Bool) :
    c.Computes (v.Is c.strings (.bool a)) n [.binary .xor v (.bool true)]
      ((Operand.reg n v.ty).Is c.strings (.bool !a)) := by
  have hxor : BinaryOp.exec .xor (.bool a) (.bool true) = .ok (Value.bool (!a) : Value π) := by
    rw [← Bool.xor_true]
    rfl
  exact (Computes.binary v.ty hxor).imp (fun _ h => ⟨h, rfl⟩) fun _ h => h

/-! ## Comparisons -/

theorem RelOp.exec_intPred (op : RelOp) (a b : BitVec 32) :
    op.intPred.exec (.int a : Value π) (.int b) = .ok (op.evalInt a b) := by
  cases op <;> rfl

theorem RelOp.relOp_realPred (op : RelOp) : op.realPred.relOp = op := by cases op <;> rfl

theorem RelOp.eval_equality (ht : ¬ t.Numeric) (ha : a.Fits t) (b : Value π) :
    RelOp.eq.eval a b = .ok (a.equal b) ∧ RelOp.neq.eval a b = .ok !a.equal b := by
  cases ha with
  | int => exact (ht .integer).elim
  | real => exact (ht .real).elim
  | bool | str | array => cases b <;> exact ⟨rfl, rfl⟩

theorem CompareCode.computes {op : RelOp} (hcode : CompareCode c.strings n l r op t code v)
    (hl : l.Below n) (hr : r.Below n) :
    v.Below (n + code.length) ∧ ∀ a b : Value π, a.Fits t → b.Fits t →
      ∃ value, op.eval a b = .ok value ∧
        c.Computes (Operand.Are c.strings l r a b) n code (v.Is c.strings (.bool value)) := by
  cases hcode with
  | integer =>
    refine ⟨Nat.lt_succ_self n, fun a b ha hb => ?_⟩
    cases ha
    cases hb
    exact ⟨_, rfl, .icmp (op.exec_intPred _ _)⟩
  | real =>
    refine ⟨Nat.lt_succ_self n, fun a b ha hb => ?_⟩
    cases ha
    cases hb
    refine ⟨_, rfl, ?_⟩
    rename_i a b
    have hcompare : c.Computes (Operand.Are c.strings l r (.real a) (.real b)) n
        [.fcmp op.realPred l r] _ := .fcmp
    rwa [op.relOp_realPred] at hcompare
  | eq hnumeric hequals =>
    obtain ⟨hv, hcompares⟩ := t.compared c hequals hl hr
    refine ⟨hv, fun a b ha hb => ⟨a.equal b, ?_, hcompares a b ha hb⟩⟩
    exact (RelOp.eval_equality hnumeric ha b).1
  | @neq _ code v hnumeric hequals =>
    obtain ⟨hv, hcompares⟩ := t.compared c hequals hl hr
    refine ⟨?_, fun a b ha hb => ⟨!a.equal b, (RelOp.eval_equality hnumeric ha b).2, ?_⟩⟩
    · change _ < _
      simp
    · exact (hcompares a b ha hb).seq (Context.computes_invert v _)

/-! ## Parts of expressions -/

/-- The code of an expression does what its evaluation does, and its operand gets the value. -/
def Expr.Executed (c : Context π σ) (e : Expr) (t : DataType) : Prop :=
  ∀ ⦃n code v⦄, c.limit ≤ n → ExprCode c.setting e n code v →
    v.Below (n + code.length) ∧ c.Executes (fun _ => True) n code (e.eval c.reference)
      fun a regs => a.Fits t ∧ v.Is c.strings a regs

/-- The operands of a chain are joined from the left. -/
theorem ChainCode.executed {rest : List (BinOp × Expr)} {w : Operand}
    (hops : ∀ pair ∈ rest, pair.1.Joins t) (hrest : ∀ pair ∈ rest, pair.2.Executed c t)
    (hlimit : c.limit ≤ n) (hcode : ChainCode c.setting t v rest n code w) (hv : v.Below n) :
    w.Below (n + code.length) ∧ ∀ a, a.Fits t →
      c.Executes (v.Is c.strings a) n code (evalChain c.reference a rest)
        fun b regs => b.Fits t ∧ w.Is c.strings b regs := by
  induction rest generalizing n v code with
  | nil =>
    cases hcode
    refine ⟨hv, fun a ha => ?_⟩
    rw [evalChain]
    exact .pure fun _ h => ⟨ha, h⟩
  | cons pair rest ih =>
    rw [List.forall_mem_cons] at hops hrest
    cases hcode with
    | @cons _ _ r _ op instr operand _ _ front back hoperand hinstr hback =>
    obtain ⟨hr, hoperand⟩ := hrest.1 hlimit hoperand
    obtain ⟨hw, hback⟩ := ih hops.2 hrest.2 (by omega) hback (Nat.lt_succ_self _)
    refine ⟨hw.mono (by simp; omega), fun a ha => ?_⟩
    rw [evalChain]
    refine (hoperand.keep hv.stable_is fun _ _ => trivial).bind fun b => ?_
    refine .imp (P := fun regs => b.Fits t ∧ Operand.Are c.strings v r a b regs)
      (.given fun hb => ?_) (fun _ h => ⟨h.1.1, h.2, h.1.2⟩) fun _ _ h => h
    obtain ⟨hexec, hdefined, hfits⟩ := BinOp.exec_instr hops.1 hinstr ha hb
    rw [← hexec] at hdefined hfits ⊢
    exact (Context.Executes.binary v.ty hdefined).bind fun value =>
      .given fun hvalue => hback value (hfits value hvalue)

/-- At an address that the program sees there is a value of a type. -/
structure Context.Storage (c : Context π σ) (a : Address) (t : DataType) : Prop where
  visible : a.root.visible c.limit = true
  holds : c.reference.Holds a t

theorem Context.Storage.element {a : Address} {size : Int} {elem : DataType} {i : Nat}
    (h : c.Storage a (.array size elem)) (hi : (i : Int) < size) :
    c.Storage (a.element i) elem := by
  refine ⟨h.visible, fun w hw => ?_⟩
  obtain ⟨v, hpart, hv⟩ := h.holds w hw
  cases hv with
  | @array elems _ _ hlength helems =>
  have hlt : i < elems.length := by omega
  refine ⟨elems[i], ?_, helems _ (List.getElem_mem hlt)⟩
  have hpart : (w.get a.root).part? a.path = some (.array elems) := hpart
  rw [Address.element, Value.part?_append, hpart]
  simp [Value.part?, hlt]

/-- Each selector leads one level into an array. -/
theorem SelectorsCode.executed {selectors : List Expr} {u : DataType} {base : Operand}
    {content : Ty} (hselectors : ∀ selector ∈ selectors, selector.Executed c .integer)
    (ht : t.Proper) (hcontent : t.target = .ok content) (helem : t.Element selectors.length u)
    (hlimit : c.limit ≤ n) (hcode : SelectorsCode c.setting base content selectors n code address)
    (hbase : base.Below n) :
    address.Below (n + code.length) ∧ ∀ a, c.Storage a t →
      c.Executes (base.IsAt c.strings a) n code (locateIn c.reference t a selectors)
        fun b regs => c.Storage b u ∧ address.IsAt c.strings b regs := by
  induction selectors generalizing n t base content code with
  | nil =>
    cases hcode
    cases helem
    refine ⟨hbase, fun a ha => ?_⟩
    rw [locateIn]
    exact .pure fun _ h => ⟨ha, h⟩
  | cons selector rest ih =>
    rw [List.forall_mem_cons] at hselectors
    cases helem with
    | @index size elem _ _ helem =>
    obtain ⟨ty, hty, rfl⟩ := DataType.target_array hcontent
    cases hcode with
    | @cons _ index _ _ _ _ _ _ front back hselector hback =>
    obtain ⟨hindex, hselector⟩ := hselectors.1 hlimit hselector
    obtain ⟨haddress, hback⟩ := ih hselectors.2 ht.2 hty helem (by omega) hback (Nat.lt_succ_self _)
    refine ⟨haddress.mono (by simp; omega), fun a ha => ?_⟩
    rw [locateIn]
    refine (hselector.keep hbase.stable_isAt fun _ _ => trivial).bind fun b => ?_
    refine .imp (P := fun regs => b.Fits .integer ∧ index.Is c.strings b regs ∧
      base.IsAt c.strings a regs) (.given fun hb => ?_) (fun _ h => ⟨h.1.1, h.1.2, h.2⟩)
        fun _ _ h => h
    cases hb with
    | @int i =>
    by_cases hrange : 0 ≤ i.toInt ∧ i.toInt < size
    · -- the size of the target type is the declared one
      have hsize : ((size % DataType.sizeCount).toNat : Int) = size := by
        have := ht.1
        simp only [Parser.maxArraySize, DataType.sizeCount] at this ⊢
        omega
      simp only [if_pos hrange]
      exact (Context.Computes.elementPtr ty (by rw [hsize]; exact hrange)).andThen
        (hback _ (ha.element (by omega)))
    · simp only [if_neg hrange]
      exact .trap (by simp)

theorem AddressCode.executed (hsound : c.Sound) {d : Designator Expr}
    (ht : HasType c.setting.names (.designator d) t)
    (hselectors : ∀ selector ∈ d.selectors, selector.Executed c .integer) (hlimit : c.limit ≤ n)
    {address : Operand} (hcode : AddressCode c.setting d n code address) :
    address.Below (n + code.length) ∧ c.Executes (fun _ => True) n code (d.locate c.reference)
      fun a regs => c.Storage a t ∧ address.IsAt c.strings a regs := by
  cases hcode with
  | @intro node name selectors _ x base _ content _ hname hbinding hcode =>
  cases ht with
  | designator hname' _ helem =>
  cases hname.symm.trans hname'
  obtain ⟨hproper, b, hb, hstores⟩ := hsound.var _ _ hname
  cases hbinding.symm.trans hb
  -- the storage of the variable is in place before the code is executed
  obtain ⟨root, hroot, hcontent, hbase, hvisible, hplaced⟩ : ∃ root,
    c.setting.place x.name = some root ∧
      x.type.target = .ok content ∧ base.Below n ∧ root.visible c.limit = true ∧
      ∀ regs w w', c.Before n code regs w w' → base.IsAt c.strings ⟨root, []⟩ regs := by
    have hplace : c.setting.place x.name = base.root? := by rw [CodeSetting.place, hb]
    cases hstores with
    | global hcontent => exact ⟨_, hplace, hcontent, trivial, rfl, fun _ _ _ _ => rfl⟩
    | slot hslot hcontent =>
      refine ⟨_, hplace, hcontent, Nat.lt_of_lt_of_le hslot hlimit, decide_eq_true hslot, ?_⟩
      exact fun regs w w' hbefore => (hbefore.slots _ _ _ hname hplace).2
  have hstorage : c.Storage ⟨root, []⟩ x.type := by
    refine ⟨hvisible, fun w hw => ⟨w.get root, ?_, hw _ x root hname hroot⟩⟩
    cases w.get root <;> rfl
  obtain ⟨haddress, hexecutes⟩ :=
    SelectorsCode.executed hselectors hproper hcontent helem hlimit hcode hbase
  have hlocate : Designator.locate c.reference ⟨node, name, selectors⟩ =
      locateIn c.reference x.type ⟨root, []⟩ selectors := by
    have hname : c.reference.names name.name = some (.var x) := hname
    have hroot : c.reference.place x.name = some root := hroot
    rw [Designator.locate, hname]
    dsimp only
    rw [hroot]
  rw [hlocate]
  exact ⟨haddress, fun regs w w' _ hbefore =>
    hexecutes _ hstorage regs w w' (hplaced regs w w' hbefore) hbefore⟩

theorem ArgsCode.executed {args : List Expr} {params : List Variable} {values : List Operand}
    (hlength : args.length = params.length)
    (hargs : ∀ pair ∈ args.zip params, pair.1.Executed c pair.2.type) (hlimit : c.limit ≤ n)
    (hcode : ArgsCode c.setting args n code values) :
    c.Executes (fun _ => True) n code (evalArgs c.reference args) fun as regs =>
      Value.FitAll as (params.map (·.type)) ∧ Operand.HaveValues c.strings values as regs := by
  induction args generalizing n params code values with
  | nil =>
    cases hcode
    obtain rfl := List.length_eq_zero_iff.mp hlength.symm
    rw [evalArgs]
    exact .pure fun _ _ => ⟨.nil, .nil⟩
  | cons arg rest ih =>
    cases params with
    | nil => cases hlength
    | cons param params =>
      rw [List.zip_cons_cons, List.forall_mem_cons] at hargs
      cases hcode with
      | cons harg hrest =>
      obtain ⟨hv, harg⟩ := hargs.1 hlimit harg
      have hrest := ih (Nat.succ.inj hlength) hargs.2
        (Nat.le_trans hlimit (Nat.le_add_right _ _)) hrest
      rw [evalArgs]
      refine harg.bind fun a => .given fun ha => .map ?_
      exact (hrest.keep hv.stable_is fun _ _ => trivial).imp (fun _ h => h) fun as regs h =>
        ⟨.cons ha h.1.1, .cons h.2 h.1.2⟩

theorem CallCode.executed (hsound : c.Sound) {call : Call Expr}
    (ht : call.HasResult c.setting.names t)
    (hargs : ∀ sp, c.setting.names call.callee.name = some (.proc sp) →
      ∀ pair ∈ call.args.zip sp.params, pair.1.Executed c pair.2.type)
    (hlimit : c.limit ≤ n) {v : Option Operand} (hcode : CallCode c.setting call n code v) :
    c.Executes (fun _ => True) n code (call.eval c.reference) (c.Delivers t v) := by
  cases hcode with
  | @intro node callee args _ sp _ _ _ _ hname hfront hback =>
  cases ht with
  | intro hname' hlength =>
  cases hname.symm.trans hname'
  have heval : Call.eval c.reference ⟨node, callee, args⟩ = (do
      sp.evalCall c.reference (← evalArgs c.reference args)) := by
    have hname : c.reference.names callee.name = some (.proc sp) := hname
    rw [Call.eval, hname]
  rw [heval]
  exact (hfront.executed hlength (hargs sp hname) hlimit).bind fun as => .given fun hfits =>
    hback.executes hsound hname hfits

theorem CallCode.operand_below {k : CodeSetting} {call : Call Expr}
    (h : CallCode k call n code (some v)) :
    v.Below (n + code.length) := by
  cases h with
  | intro _ _ hback =>
  rw [List.length_append, ← Nat.add_assoc]
  exact hback.operand_below

/-! ## Whole expressions -/

theorem Literal.executed (node : Node) (value : Literal) :
    (Expr.literal node value).Executed c value.type := by
  intro n code v _ hcode
  rw [Expr.eval]
  cases hcode with
  | integer => exact ⟨trivial, .pure fun _ _ => ⟨.int, rfl⟩⟩
  | real => exact ⟨trivial, .pure fun _ _ => ⟨.real, rfl⟩⟩
  | boolean => exact ⟨trivial, .pure fun _ _ => ⟨.bool, rfl⟩⟩
  | string htext =>
    obtain ⟨index, hindex, rfl⟩ := htext
    have hstring : c.strings[index]? = some _ := hindex
    refine ⟨trivial, .pure fun _ _ => ⟨.str, ?_⟩⟩
    simp [Operand.Is, Operand.datum?, hstring, Literal.value]

/-- The code of an expression leaves its value in the operand. -/
theorem HasType.executed (hsound : c.Sound) {e : Expr} (ht : HasType c.setting.names e t) :
    e.Executed c t := by
  induction ht with
  | @literal node value => exact Literal.executed node value
  | paren _ ih =>
    intro n code v hlimit hcode
    cases hcode with
    | paren hcode =>
    rw [Expr.eval]
    exact ih hlimit hcode
  | not _ ih =>
    intro n code v hlimit hcode
    cases hcode with
    | @not _ _ _ code v hcode =>
    obtain ⟨-, hoperand⟩ := ih hlimit hcode
    refine ⟨by change _ < _; simp, ?_⟩
    rw [Expr.eval]
    refine hoperand.bind fun a => .given fun ha => ?_
    cases ha with
    | @bool a =>
    exact (Context.computes_invert v a).returns fun _ h => ⟨.bool, h⟩
  | @designator node name selectors x t hname hselectors helem ih =>
    intro n code v hlimit hcode
    cases hcode with
    | @designator _ _ _ ty _ address _ _ hcode =>
    have ht : HasType c.setting.names (.designator ⟨node, name, selectors⟩) t :=
      .designator hname hselectors helem
    obtain ⟨-, hlocate⟩ := hcode.executed hsound ht ih hlimit
    refine ⟨by change _ < _; simp, ?_⟩
    rw [Expr.eval]
    exact hlocate.bind fun a => .given fun ha => .load ty (fun _ h => h) ha.visible ha.holds
  | @call node callee args sp hname hlength hargs hvoid ih =>
    intro n code v hlimit hcode
    cases hcode with
    | call hcode =>
    have hcall := hcode.executed hsound (.intro hname hlength hargs)
      (fun sp' hname' => by cases hname.symm.trans hname'; exact ih) hlimit
    refine ⟨hcode.operand_below, ?_⟩
    rw [Expr.eval, ← List.append_nil code]
    refine hcall.bind fun result => .imp (P := fun regs =>
      (∃ a, result = some a ∧ a.Fits sp.result ∧
      v.Is c.strings a regs)) ?_ (fun regs h => ?_) fun _ _ h => h
    · rintro regs w w' ⟨a, rfl, h⟩ hbefore
      exact Context.Executes.pure (P := v.Is c.strings a)
        (fun _ hv => ⟨h.1, hv⟩) regs w w' h.2 hbefore
    · obtain ⟨_, a, ⟨⟩, rfl, hvalue⟩ := h hvoid
      exact ⟨a, rfl, hvalue⟩
  | @comparison node left right op t hleft hright hop ihl ihr =>
    intro n code v hlimit hcode
    cases hcode with
    | @comparison _ _ _ _ _ t' front mid back l r _ hleft' hfront hmid hback =>
    cases hleft.unique hleft'
    obtain ⟨hl, hfront⟩ := ihl hlimit hfront
    obtain ⟨hr, hmid⟩ := ihr (by omega) hmid
    obtain ⟨hv, hcompares⟩ := hback.computes (hl.mono (Nat.le_add_right _ _)) hr
    refine ⟨hv.mono (by simp; omega), ?_⟩
    rw [Expr.eval]
    refine hfront.bind fun a => .given fun ha => ?_
    refine (hmid.keep hl.stable_is fun _ _ => trivial).bind fun b => ?_
    refine .imp (P := fun regs => b.Fits t ∧ Operand.Are c.strings l r a b regs)
      (.given fun hb => ?_) (fun _ h => ⟨h.1.1, h.2, h.1.2⟩) fun _ _ h => h
    obtain ⟨value, hvalue, hcomputes⟩ := hcompares a b ha hb
    rw [hvalue]
    exact hcomputes.returns fun _ h => ⟨.bool, h⟩
  | @sum node negate first rest t hfirst hsign hops hoperands ih ihs =>
    intro n code v hlimit hcode
    cases hcode with
    | @sum _ _ _ _ _ front back _ _ hfirst' hfront hback =>
      cases hfirst.unique hfirst'
      obtain ⟨hv, hfront⟩ := ih hlimit hfront
      obtain ⟨hw, hback⟩ := hback.executed hops ihs (by omega) hv
      refine ⟨hw.mono (by simp; omega), ?_⟩
      rw [Expr.eval]
      exact hfront.bind fun a => .given fun ha => hback a ha
    | @negated _ _ _ _ _ front sign back v v' _ hfirst' hfront hnegate hback =>
      cases hfirst.unique hfirst'
      obtain ⟨hv, hfront⟩ := ih hlimit hfront
      obtain ⟨hw, hback⟩ := hback.executed hops ihs (by omega) hnegate.operand_below
      refine ⟨hw.mono (by simp; omega), ?_⟩
      rw [Expr.eval]
      refine hfront.bind fun a => .given fun ha => ?_
      obtain ⟨value, hvalue, hfits⟩ := Value.negate_numeric (hsign rfl) ha
      rw [if_pos rfl, hvalue]
      exact (hnegate.computes hvalue ha).andThen (hback value hfits)
  | @product node first rest t hfirst hops hoperands ih ihs =>
    intro n code v hlimit hcode
    cases hcode with
    | @product _ _ _ _ _ front back _ _ hfirst' hfront hback =>
    cases hfirst.unique hfirst'
    obtain ⟨hv, hfront⟩ := ih hlimit hfront
    obtain ⟨hw, hback⟩ := hback.executed hops ihs (by omega) hv
    refine ⟨hw.mono (by simp; omega), ?_⟩
    rw [Expr.eval]
    exact hfront.bind fun a => .given fun ha => hback a ha

/-! ## Assignments and calls -/

theorem AddressCode.executed_assign (hsound : c.Sound) {target : Designator Expr} {value : Expr}
    (htarget : HasType c.setting.names (.designator target) t)
    (hvalue : HasType c.setting.names value t) {front back : List Instr} (hlimit : c.limit ≤ n)
    (hfront : AddressCode c.setting target n front address)
    (hback : ExprCode c.setting value (n + front.length) back v) :
    c.Executes (fun _ => True) n (front ++ (back ++ [.store v address]))
      (evalAssign c.reference target value) fun _ _ => True := by
  have hselectors : ∀ selector ∈ target.selectors, selector.Executed c .integer := by
    cases htarget with
    | designator _ hselectors =>
      exact fun selector hmem => (hselectors selector hmem).executed hsound
  obtain ⟨haddress, hlocate⟩ := hfront.executed hsound htarget hselectors hlimit
  obtain ⟨-, hvalue⟩ := hvalue.executed hsound (Nat.le_trans hlimit (Nat.le_add_right _ _)) hback
  rw [evalAssign]
  refine hlocate.bind fun a => .given fun ha => ?_
  refine (hvalue.keep haddress.stable_isAt fun _ _ => trivial).bind fun b => ?_
  exact .imp (P := fun regs => b.Fits t ∧ address.IsAt c.strings a regs ∧ v.Is c.strings b regs)
    (.given fun hb => .store (fun _ h => h) ha.visible ha.holds hb)
    (fun _ h => ⟨h.1.1, h.2, h.1.2⟩) fun _ _ h => h

theorem Call.HasResult.executed (hsound : c.Sound) {call : Call Expr}
    (ht : call.HasResult c.setting.names t) (hlimit : c.limit ≤ n) {v : Option Operand}
    (hcode : CallCode c.setting call n code v) :
    c.Executes (fun _ => True) n code (call.eval c.reference) (c.Delivers t v) := by
  refine hcode.executed hsound ht ?_ hlimit
  cases ht with
  | intro hname _ hargs =>
  intro sp hname' pair hpair
  cases hname.symm.trans hname'
  exact (hargs pair hpair).executed hsound

end Oberlet
