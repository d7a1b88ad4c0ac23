import Oberlet.Proofs.Lowering.Scope
import Oberlet.Proofs.Target.Typing

/-!
# The code of expressions is well typed

The code of a well-typed expression is well typed and uses only what is in place.
-/

namespace Oberlet

open Llvm Lowering Lower Yields

variable {P Q : Operand → Prop} {n : Nat} {code : List Instr} {l r v : Operand} {t : DataType}
  {strings : List String}

abbrev HasConstants (strings : List String) (P : Operand → Prop) : Prop :=
  ∀ v : Operand, v.Constant strings → P v

variable {text : String} {elem : DataType} {size : Nat} {ty : Ty} {values : List Operand}
  {value : Operand}

theorem IsText.operand_constant (h : IsText strings text v) : v.Constant strings := by
  obtain ⟨index, hindex, rfl⟩ := h
  exact ⟨text, hindex, rfl⟩

theorem IsText.type (h : IsText strings text v) : v.ty = .charPtr := by
  obtain ⟨index, -, rfl⟩ := h
  rfl

/-! ## Comparisons -/

theorem NonNullCode.yields (hconstants : HasConstants strings P) (hl : P l) (hty : l.ty = .charPtr)
    (h : NonNullCode strings n l code v) : Yields P n code v .string := by
  cases h with
  | text => exact .given hl rfl
  | @select _ empty _ hempty =>
    have hnull : Closed P n [.icmp .eq l .null] := by
      refine .single ⟨hty, ?_⟩ (List.forall_mem_cons.mpr ⟨hl, List.forall_mem_singleton.mpr ?_⟩)
      · rw [hty]
        trivial
      · exact hconstants .null trivial
    have hselect : Instr.ty (.select (.reg n .i1) empty l) = .charPtr := hempty.type
    rw [← hselect]
    refine after (.instr _ ⟨rfl, hempty.type.trans hty.symm⟩ ?_ (by rw [hselect]; rfl)) hnull
    refine List.forall_mem_cons.mpr ⟨.of_last [], List.forall_mem_cons.mpr ⟨?_, ?_⟩⟩
    · exact .inl (hconstants empty hempty.operand_constant)
    · exact List.forall_mem_singleton.mpr (.inl hl)

/-- The code that compares two values of a type yields a truth value. -/
def DataType.Decided (strings : List String) (t : DataType) : Prop :=
  ∀ ⦃P : Operand → Prop⦄ ⦃n l r code v⦄, HasConstants strings P → P l → P r → t.target = .ok l.ty →
    t.target = .ok r.ty → EqualsCode strings t n l r code v → Yields P n code v .boolean

theorem DataType.Decided.element (h : elem.Decided strings) (hconstants : HasConstants strings P)
    (hl : P l) (hr : P r) (hty : elem.target = .ok ty) (hlty : l.ty = .array size ty)
    (hrty : r.ty = .array size ty) {i : Nat} (hi : i < size)
    (hcode : EqualsCode strings elem (n + 2) (.reg n ty) (.reg (n + 1) ty) code v) :
    Yields P n ([.extractValue l ty i] ++ ([.extractValue r ty i] ++ code)) v .boolean := by
  have hleft : Closed P n [.extractValue l ty i] :=
    .single ⟨size, hlty, hi⟩ (List.forall_mem_singleton.mpr hl)
  have hright : Closed (Behind P n [.extractValue l ty i]) (n + 1) [.extractValue r ty i] :=
    .single ⟨size, hrty, hi⟩ (List.forall_mem_singleton.mpr (.inl hr))
  refine after (after (h ?_ ?_ ?_ ?_ ?_ hcode) hright) hleft
  · exact fun v hv => .inl (.inl (hconstants v hv))
  · exact .inl (.of_last [])
  · exact .of_last []
  · exact hty
  · exact hty

theorem ElemsCode.yields (ih : elem.Decided strings) (hconstants : HasConstants strings P)
    (hl : P l) (hr : P r) (hty : elem.target = .ok ty) (hlty : l.ty = .array size ty)
    (hrty : r.ty = .array size ty) {count : Nat} (hcount : count ≤ size)
    (hcode : ElemsCode strings elem count n l r code v) : Yields P n code v .boolean := by
  induction count generalizing code v with
  | zero => cases hcode
  | succ count ihcount =>
    cases hcode with
    | one hty' hcode =>
      cases hty.symm.trans hty'
      exact ih.element hconstants hl hr hty hlty hrty hcount hcode
    | @more _ _ index _ _ _ _ v w before code hbefore hk hty' hcode =>
      subst hk
      cases hty.symm.trans hty'
      have hv := ihcount (Nat.le_of_succ_le hcount) hbefore
      have hw := (ih.element (P := Behind P n before) (fun v hv => .inl (hconstants v hv)) (.inl hl)
        (.inl hr) hty hlty hrty hcount hcode).after hv.closed
      have hvi : v.ty = .i1 := (Except.ok.inj hv.type).symm
      have hwi : w.ty = .i1 := (Except.ok.inj hw.type).symm
      have hand := (instr (.binary .and v w) ⟨hvi, hwi⟩
        (List.forall_mem_cons.mpr ⟨(Behind.append (.inl hv.behind)),
          List.forall_mem_singleton.mpr hw.behind⟩) hv.type).after hw.closed
      simpa [Nat.add_assoc, Nat.add_comm 2, Instr.ty, hvi] using hand

/-- The code that compares two values yields a truth value. -/
theorem DataType.Proper.decided (h : t.Proper) : t.Decided strings := by
  induction t with
  | void | unknown => exact h.elim
  | integer | boolean =>
    intro P n l r code v _ hl hr hlty hrty hcode
    cases hcode
    have hlty := Except.ok.inj hlty
    refine instr _ ⟨hlty.symm.trans (Except.ok.inj hrty), ?_⟩ ?_ rfl
    · rw [← hlty]
      trivial
    · exact List.forall_mem_cons.mpr ⟨hl, List.forall_mem_singleton.mpr hr⟩
  | real =>
    intro P n l r code v _ hl hr hlty hrty hcode
    cases hcode
    refine instr _ ⟨(Except.ok.inj hlty).symm, (Except.ok.inj hrty).symm⟩ ?_ rfl
    exact List.forall_mem_cons.mpr ⟨hl, List.forall_mem_singleton.mpr hr⟩
  | string =>
    intro P n l r code v hconstants hl hr hlty hrty hcode
    cases hcode with
    | @string _ k _ _ l' r' front back hfront hback hk =>
    subst hk
    have hl' := hfront.yields hconstants hl (Except.ok.inj hlty).symm
    have hr' := hback.yields (P := Behind P n front) (fun v hv => .inl (hconstants v hv)) (.inl hr)
      (Except.ok.inj hrty).symm
    refine after (after (after (.instr _ ⟨rfl, trivial⟩ ?_ rfl) ?_) hr'.closed)
      hl'.closed
    · exact List.forall_mem_cons.mpr ⟨.of_last [], List.forall_mem_singleton.mpr
        (.inl (.inl (.inl (hconstants _ trivial))))⟩
    · refine .single ?_ (List.forall_mem_cons.mpr ⟨.inl hl'.behind,
        List.forall_mem_singleton.mpr hr'.behind⟩)
      have hlp : l'.ty = .charPtr := (Except.ok.inj hl'.type).symm
      have hrp : r'.ty = .charPtr := (Except.ok.inj hr'.type).symm
      simp [Instr.WellTyped, Signature.Accepts, hlp, hrp, Runtime.function, Function.signature]
  | array size elem ih =>
    intro P n l r code v hconstants hl hr hlty hrty hcode
    cases hcode with
    | array hcode =>
    obtain ⟨ty, hty, hlty⟩ := target_array hlty
    obtain ⟨ty', hty', hrty⟩ := target_array hrty
    cases hty.symm.trans hty'
    refine hcode.yields (ih h.2) hconstants hl hr hty hlty hrty ?_
    have := h.1
    simp only [Parser.maxArraySize, DataType.sizeCount] at this ⊢
    omega

theorem Yields.invert (h : Yields P n code v .boolean) (hconstants : HasConstants strings P) :
    Yields P n (code ++ [.binary .xor v (.bool true)]) (.reg (n + code.length) v.ty) .boolean := by
  refine after (.instr _ ⟨(Except.ok.inj h.type).symm, rfl⟩ ?_ h.type) h.closed
  exact List.forall_mem_cons.mpr ⟨h.behind, List.forall_mem_singleton.mpr
    (.inl (hconstants _ trivial))⟩

/-- A comparison yields a truth value. -/
theorem CompareCode.yields {op : RelOp} (ht : t.Proper) (hconstants : HasConstants strings P)
    (hl : P l) (hr : P r) (hlty : t.target = .ok l.ty) (hrty : t.target = .ok r.ty)
    (hcode : CompareCode strings n l r op t code v) : Yields P n code v .boolean := by
  have hboth : ∀ v ∈ [l, r], P v := List.forall_mem_cons.mpr ⟨hl, List.forall_mem_singleton.mpr hr⟩
  cases hcode with
  | integer =>
    have hlty := Except.ok.inj hlty
    refine .instr _ ⟨hlty.symm.trans (Except.ok.inj hrty), ?_⟩ hboth rfl
    rw [← hlty]
    trivial
  | real => exact .instr _ ⟨(Except.ok.inj hlty).symm, (Except.ok.inj hrty).symm⟩ hboth rfl
  | eq _ hequals => exact ht.decided hconstants hl hr hlty hrty hequals
  | neq _ hequals => exact (ht.decided hconstants hl hr hlty hrty hequals).invert hconstants

/-! ## Bindings -/

/-- The names of a body stand for things of the right types. Constants and the storage of variables
may be used. -/
structure Typed (names : Names) (env : Env) (tables : Tables) (P : Operand → Prop) : Prop extends
    Ready names env tables where
  constant : HasConstants tables.strings P
  storage : ∀ name v address content, names name = some (.var v) →
    env.lookup v.name = .ok (.storage address content) → P address
  params : ∀ name sp index callee, names name = some (.proc sp) → sp.builtin = false →
    env.lookup sp.name = .ok (.function index) → tables.signatures[index]? = some callee →
    TargetTypes sp.params callee.params ∧ callee.variadic = false ∧
      ∀ r : Runtime, callee.name ≠ r.function.name

section

variable {names : Names} {env : Env} {tables : Tables}

theorem Typed.mono (h : Typed names env tables P) (hPQ : ∀ v, P v → Q v) :
    Typed names env tables Q where
  toReady := h.toReady
  constant v hv := hPQ v (h.constant v hv)
  storage name v address _ hname haddress := hPQ address (h.storage name v _ _ hname haddress)
  params := h.params

theorem Typed.behind (h : Typed names env tables P) (n : Nat) (code : List Instr) :
    Typed names env tables (Behind P n code) :=
  h.mono fun _ => .inl

/-! ## Calls -/

abbrev Passed (P : Operand → Prop) (values : List Operand) (params : List Variable) : Prop :=
  List.Forall₂ (fun v param => P v ∧ param.type.target = .ok v.ty) values params

variable {back front : List Instr} {sp : Subprogram} {address : Operand} {c : Call Expr}
  {params : List Variable}

theorem Passed.types {tys : List Ty} (h : Passed P values params)
    (htypes : TargetTypes params tys) : values.map (·.ty) = tys := by
  induction h generalizing tys with
  | nil =>
    cases htypes
    rfl
  | cons hv _ ih =>
    cases htypes with
    | cons hty htypes =>
      rw [List.map_cons, ih htypes]
      exact congrArg (· :: _) (Except.ok.inj (hv.2.symm.trans hty))

theorem Passed.usable (h : Passed P values params) :
    ∀ v ∈ values, P v := by
  intro v hv
  induction h with
  | nil => cases hv
  | cons hhead _ ih =>
    rcases List.mem_cons.mp hv with rfl | hv
    · exact hhead.1
    · exact ih hv

theorem Passed.type (h : Passed P [v] params) (hparams : params.map (·.type) = [t]) :
    t.target = .ok v.ty := by
  cases h with
  | cons hv htail =>
    cases htail
    obtain ⟨rfl, -⟩ := List.cons.inj hparams
    exact hv.2

/-- Code is closed and leaves a value of a type in an operand, if it leaves one at all. -/
structure YieldsResult (P : Operand → Prop) (n : Nat) (code : List Instr) (v : Option Operand)
    (t : DataType) : Prop where
  closed : Closed P n code
  value : ∀ w, v = some w → Yields P n code w t

theorem YieldsResult.none (h : Closed P n code) : YieldsResult P n code none t := ⟨h, nofun⟩

theorem Yields.result (h : Yields P n code v t) : YieldsResult P n code (some v) t :=
  ⟨h.closed, by rintro _ ⟨⟩; exact h⟩

theorem YieldsResult.after {v : Option Operand}
    (h : YieldsResult (Behind P n front) (n + front.length) back v t) (hfront : Closed P n front) :
    YieldsResult P n (front ++ back) v t :=
  ⟨hfront.append h.closed, fun w hw => (h.value w hw).after hfront⟩

/-- The code for a built-in yields what it returns. -/
theorem BuiltinCode.yields (hsp : sp ∈ Subprogram.builtins) (hconstants : HasConstants strings P)
    (hvalues : Passed P values sp.params) {v : Option Operand}
    (hcode : BuiltinCode strings n sp.name values code v) : YieldsResult P n code v sp.result := by
  generalize hname : sp.name = name at hcode
  cases hcode with
  | print _ htext =>
    refine .none (.single ?_ (List.forall_mem_cons.mpr
      ⟨hconstants _ htext.operand_constant, hvalues.usable⟩))
    simp [Instr.WellTyped, Signature.Accepts, Runtime.function, Function.signature, htext.type]
  | @read _ _ ty text hformat htext =>
    have hresults : ∀ sp ∈ Subprogram.builtins, ∀ row ∈ readFormats, sp.name = row.1 →
        sp.result.target = .ok row.2.2 := by decide
    refine (after (after
      (.instr (.load ty (.reg n (.ptr ty))) rfl ?_ (hresults sp hsp _ hformat hname)) ?_) ?_).result
    · exact List.forall_mem_singleton.mpr (.inl (.of_last []))
    · refine .single ?_ (List.forall_mem_cons.mpr ⟨.inl (hconstants _ htext.operand_constant),
        List.forall_mem_singleton.mpr (.of_last [])⟩)
      simp [Instr.WellTyped, Signature.Accepts, Runtime.function, Function.signature, htext.type]
    · exact .single trivial (List.forall_mem_nil _)
  | @toReal v =>
    have hshape : ∀ sp ∈ Subprogram.builtins, sp.name = "IntegerToReal" →
        sp.params.map (·.type) = [.integer] ∧ sp.result = .real := by decide
    obtain ⟨hparams, hresult⟩ := hshape sp hsp hname
    rw [hresult]
    exact (instr (.sitofp v) (Except.ok.inj (hvalues.type hparams)).symm
      hvalues.usable rfl).result
  | @toInteger v =>
    have hshape : ∀ sp ∈ Subprogram.builtins, sp.name = "RealToInteger" →
        sp.params.map (·.type) = [.real] ∧ sp.result = .integer := by decide
    obtain ⟨hparams, hresult⟩ := hshape sp hsp hname
    rw [hresult]
    exact (instr (.fptosi v) (Except.ok.inj (hvalues.type hparams)).symm
      hvalues.usable rfl).result
  | @halt v =>
    have hshape : ∀ sp ∈ Subprogram.builtins, sp.name = "HALT" →
        sp.params.map (·.type) = [.integer] := by decide
    have hv : v.ty = .i32 := (Except.ok.inj (hvalues.type (hshape sp hsp hname))).symm
    refine .none (.single ?_ hvalues.usable)
    simp [Instr.WellTyped, Signature.Accepts, Runtime.function, Function.signature, hv]

/-- A call yields a value of the type of its result. -/
theorem InvokeCode.yields (h : Typed names env tables P) {name : String}
    (hname : names name = some (.proc sp)) (hvalues : Passed P values sp.params)
    {v : Option Operand} (hcode : InvokeCode (env.setting names tables) n sp values code v) :
    YieldsResult P n code v sp.result := by
  cases hcode with
  | builtin hbuiltin hcode =>
    exact hcode.yields (h.builtin name sp hname hbuiltin) h.constant hvalues
  | @function index callee hbuiltin hindex hcallee =>
    obtain ⟨-, index', callee', hindex', hcallee', hresult⟩ := h.proc name sp hname hbuiltin
    cases hindex.symm.trans hindex'
    cases hcallee.symm.trans hcallee'
    obtain ⟨hparams, hvariadic, -⟩ := h.params name sp index callee hname hbuiltin hindex hcallee
    have htyped : Instr.WellTyped (.call callee values) := by
      rw [Instr.WellTyped, Signature.Accepts, hvariadic]
      exact hvalues.types hparams
    split
    · exact .none (.single htyped hvalues.usable)
    · exact (instr _ htyped hvalues.usable hresult).result

/-! ## Parts of expressions -/

def Expr.Yielding (names : Names) (env : Env) (tables : Tables) (e : Expr) (t : DataType) : Prop :=
  ∀ ⦃P n code v⦄, Typed names env tables P → ExprCode (env.setting names tables) e n code v →
    Yields P n code v t

theorem NegateCode.yields (hconstants : HasConstants strings P) (hv : P v)
    (hty : t.target = .ok v.ty) (hcode : NegateCode n v t code r) : Yields P n code r t := by
  cases hcode with
  | integer =>
    refine .instr _ ⟨rfl, (Except.ok.inj hty).symm⟩ ?_ rfl
    exact List.forall_mem_cons.mpr ⟨hconstants _ trivial, List.forall_mem_singleton.mpr hv⟩
  | real => exact .instr _ (Except.ok.inj hty).symm (List.forall_mem_singleton.mpr hv) hty

theorem BinOp.domain_instr {op : BinOp} {instr : BinaryOp} (hinstr : op.instr? t = some instr)
    (hty : t.target = .ok ty) : instr.domain = ty := by
  cases t <;> cases op <;> cases hinstr <;> cases hty <;> rfl

theorem ChainCode.yields (h : Typed names env tables P) {rest : List (BinOp × Expr)}
    (hrest : ∀ pair ∈ rest, pair.2.Yielding names env tables t) (hv : P v)
    (hty : t.target = .ok v.ty)
    {w : Operand} (hcode : ChainCode (env.setting names tables) t v rest n code w) :
    Yields P n code w t := by
  induction rest generalizing P n v code with
  | nil =>
    cases hcode
    exact .given hv hty
  | cons pair rest ih =>
    rw [List.forall_mem_cons] at hrest
    cases hcode with
    | @cons _ _ r _ op instr operand _ _ front back hoperand hinstr hback =>
    have hr := hrest.1 h hoperand
    have hbinary : Closed (Behind P n front) (n + front.length) [.binary instr v r] := by
      refine .single ⟨(BinOp.domain_instr hinstr hty).symm,
        (BinOp.domain_instr hinstr hr.type).symm⟩ ?_
      exact List.forall_mem_cons.mpr ⟨.inl hv, List.forall_mem_singleton.mpr hr.behind⟩
    have hchain := ih ((h.behind n front).behind (n + front.length) [.binary instr v r]) hrest.2
      (.of_last []) hty hback
    exact after (hchain.after hbinary) hr.closed

/-- Code is closed and leaves an address for values of a type in an operand. -/
structure YieldsAddress (P : Operand → Prop) (n : Nat) (code : List Instr) (address : Operand)
    (t : DataType) : Prop where
  closed : Closed P n code
  behind : Behind P n code address
  type : ∃ content, t.target = .ok content ∧ address.ty = .ptr content

theorem SelectorsCode.yields (h : Typed names env tables P) {selectors : List Expr} {u : DataType}
    {base : Operand} {content : Ty}
    (hselectors : ∀ selector ∈ selectors, selector.Yielding names env tables .integer)
    (hbase : P base) (hty : base.ty = .ptr content) (hcontent : t.target = .ok content)
    (helem : t.Element selectors.length u)
    (hcode : SelectorsCode (env.setting names tables) base content selectors n code address) :
    YieldsAddress P n code address u := by
  induction selectors generalizing P n t base content code with
  | nil =>
    cases hcode
    cases helem
    exact ⟨trivial, .inl hbase, content, hcontent, hty⟩
  | cons selector rest ih =>
    rw [List.forall_mem_cons] at hselectors
    cases helem with
    | @index size elem _ _ helem =>
    obtain ⟨ty, hty', rfl⟩ := DataType.target_array hcontent
    cases hcode with
    | @cons _ index _ _ _ _ _ _ front back hselector hback =>
    have hindex := hselectors.1 h hselector
    have hptr : Closed (Behind P n front) (n + front.length)
        [.elementPtr (size % DataType.sizeCount).toNat ty base index] := by
      refine .single ⟨hty, (Except.ok.inj hindex.type).symm⟩ ?_
      exact List.forall_mem_cons.mpr ⟨.inl hbase, List.forall_mem_singleton.mpr hindex.behind⟩
    have hreg : Behind (Behind P n front) (n + front.length)
        [.elementPtr (size % DataType.sizeCount).toNat ty base index]
        (.reg (n + front.length) (.ptr ty)) := .of_last []
    have hrest := ih ((h.behind n front).behind _ _) hselectors.2 hreg rfl hty' helem hback
    exact ⟨hindex.closed.append (hptr.append hrest.closed), .append (.append hrest.behind),
      hrest.type⟩

theorem AddressCode.yields (h : Typed names env tables P) {d : Designator Expr}
    (ht : HasType names (.designator d) t)
    (hselectors : ∀ selector ∈ d.selectors, selector.Yielding names env tables .integer)
    (hcode : AddressCode (env.setting names tables) d n code address) :
    YieldsAddress P n code address t := by
  cases hcode with
  | intro hname hbinding hcode =>
  cases ht with
  | designator hname' _ helem =>
  cases hname.symm.trans hname'
  obtain ⟨-, base, content, hbinding', hcontent, hbase⟩ := h.var _ _ hname
  cases hbinding.symm.trans hbinding'
  exact hcode.yields h hselectors (h.storage _ _ _ _ hname hbinding) hbase hcontent helem

theorem ArgsCode.yields (h : Typed names env tables P) {args : List Expr}
    (hlength : args.length = params.length)
    (hargs : ∀ pair ∈ args.zip params, pair.1.Yielding names env tables pair.2.type)
    (hcode : ArgsCode (env.setting names tables) args n code values) :
    Closed P n code ∧ Passed (Behind P n code) values params := by
  induction args generalizing P n params code values with
  | nil =>
    cases hcode
    obtain rfl := List.length_eq_zero_iff.mp hlength.symm
    exact ⟨trivial, .nil⟩
  | cons arg rest ih =>
    cases params with
    | nil => cases hlength
    | cons param params =>
      rw [List.zip_cons_cons, List.forall_mem_cons] at hargs
      cases hcode with
      | @cons _ _ _ front back v values harg hrest =>
      have hv := hargs.1 h harg
      obtain ⟨hclosed, hvalues⟩ := ih (h.behind n front) (Nat.succ.inj hlength) hargs.2 hrest
      refine ⟨hv.closed.append hclosed, .cons ⟨.append (.inl hv.behind), hv.type⟩ ?_⟩
      exact hvalues.imp fun _ _ hvalue => ⟨hvalue.1.append, hvalue.2⟩

/-- The code for a call yields what the subprogram returns. -/
theorem CallCode.yields (h : Typed names env tables P) (ht : c.HasResult names t)
    (hargs : ∀ sp, names c.callee.name = some (.proc sp) → ∀ pair ∈ c.args.zip sp.params,
      pair.1.Yielding names env tables pair.2.type)
    {v : Option Operand} (hcode : CallCode (env.setting names tables) c n code v) :
    YieldsResult P n code v t := by
  cases hcode with
  | intro hname hfront hback =>
  cases ht with
  | intro hname' hlength =>
  cases hname.symm.trans hname'
  obtain ⟨hclosed, hvalues⟩ := hfront.yields h hlength (hargs _ hname)
  exact (hback.yields (h.behind _ _) hname hvalues).after hclosed

/-! ## Whole expressions -/

theorem Literal.yielding (node : Node) (value : Literal) :
    (Expr.literal node value).Yielding names env tables value.type := by
  intro P n code v h hcode
  cases hcode with
  | integer | real | boolean => exact .given (h.constant _ trivial) rfl
  | string htext =>
    refine .given (h.constant _ htext.operand_constant) ?_
    rw [htext.type]
    rfl

/-- The code leaves a value of the target type in its operand. -/
theorem HasType.yielding {e : Expr} (ht : HasType names e t) : e.Yielding names env tables t := by
  induction ht with
  | @literal node value => exact Literal.yielding node value
  | paren _ ih =>
    intro P n code v h hcode
    cases hcode with
    | paren hcode => exact ih h hcode
  | not _ ih =>
    intro P n code v h hcode
    cases hcode with
    | not hcode => exact (ih h hcode).invert h.constant
  | @designator node name selectors x t hname hselectors helem ih =>
    intro P n code v h hcode
    cases hcode with
    | @designator _ _ t' ty _ address ht' hty hcode =>
    have ht : HasType names (.designator ⟨node, name, selectors⟩) t :=
      .designator hname hselectors helem
    cases ht.unique ht'
    have haddress := hcode.yields h ht ih
    obtain ⟨content, hcontent, hptr⟩ := haddress.type
    cases hty.symm.trans hcontent
    exact after (.instr _ hptr (List.forall_mem_singleton.mpr haddress.behind) hty)
      haddress.closed
  | @call node callee args sp hname hlength hargs hvoid ih =>
    intro P n code v h hcode
    cases hcode with
    | call hcode =>
    refine (hcode.yields h (.intro hname hlength hargs) ?_).value v rfl
    intro sp' hname'
    cases hname.symm.trans hname'
    exact ih
  | @comparison node left right op t hleft hright hop ihl ihr =>
    intro P n code v h hcode
    cases hcode with
    | @comparison _ _ _ _ _ t' front mid back l r _ hleft' hfront hmid hback =>
    cases hleft.unique hleft'
    have hl := ihl h hfront
    have hr := ihr (h.behind n front) hmid
    have hcompare := hback.yields (hleft.proper h.toReady)
      ((h.behind n front).behind (n + front.length) mid).constant (.inl hl.behind) hr.behind hl.type
      hr.type
    exact after (after hcompare hr.closed) hl.closed
  | @sum node negate first rest t hfirst hsign hops hoperands ih ihs =>
    intro P n code v h hcode
    cases hcode with
    | @sum _ _ _ _ _ front back _ _ hfirst' hfront hback =>
      cases hfirst.unique hfirst'
      have hv := ih h hfront
      exact (hback.yields (h.behind _ _) ihs hv.behind hv.type).after hv.closed
    | @negated _ _ _ _ _ front sign back v v' _ hfirst' hfront hnegate hback =>
      cases hfirst.unique hfirst'
      have hv := ih h hfront
      have hv' := hnegate.yields (h.behind n front).constant hv.behind hv.type
      have hchain := hback.yields ((h.behind n front).behind _ _) ihs hv'.behind hv'.type
      exact after (hchain.after hv'.closed) hv.closed
  | @product node first rest t hfirst hops hoperands ih ihs =>
    intro P n code v h hcode
    cases hcode with
    | @product _ _ _ _ _ front back _ _ hfirst' hfront hback =>
    cases hfirst.unique hfirst'
    have hv := ih h hfront
    exact (hback.yields (h.behind _ _) ihs hv.behind hv.type).after hv.closed

/-! ## Assignments and calls -/

theorem AddressCode.closed_assign (h : Typed names env tables P) {target : Designator Expr}
    {value : Expr} (htarget : HasType names (.designator target) t) (hvalue : HasType names value t)
    (hfront : AddressCode (env.setting names tables) target n front address)
    (hback : ExprCode (env.setting names tables) value (n + front.length) back v) :
    Closed P n (front ++ (back ++ [.store v address])) := by
  have hselectors : ∀ selector ∈ target.selectors, selector.Yielding names env tables .integer := by
    cases htarget with
    | designator _ hselectors => exact fun selector hmem => (hselectors selector hmem).yielding
  have haddress := hfront.yields h htarget hselectors
  have hv := hvalue.yielding (h.behind n front) hback
  obtain ⟨content, hcontent, hptr⟩ := haddress.type
  cases hcontent.symm.trans hv.type
  refine haddress.closed.append (hv.closed.append (.single hptr ?_))
  exact List.forall_mem_cons.mpr ⟨hv.behind, List.forall_mem_singleton.mpr (.inl haddress.behind)⟩

theorem Call.HasResult.closed (h : Typed names env tables P) (ht : c.HasResult names t)
    {v : Option Operand} (hcode : CallCode (env.setting names tables) c n code v) :
    Closed P n code := by
  refine (hcode.yields h ht ?_).closed
  cases ht with
  | intro hname _ hargs =>
  intro sp hname' pair hpair
  cases hname.symm.trans hname'
  exact (hargs pair hpair).yielding

end

/-! ## Stack slots -/

theorem closed_slotCode (hvalues : ∀ v ∈ values, P v) : Closed P n (slotCode n values) := by
  induction values generalizing P n with
  | nil => trivial
  | cons value rest ih =>
    rw [List.forall_mem_cons] at hvalues
    refine ⟨trivial, by simp [Instr.operands], rfl, ?_, ih fun v hv => .inl (.inl (hvalues.2 v hv))⟩
    exact List.forall_mem_cons.mpr ⟨.inl hvalues.1, List.forall_mem_singleton.mpr (.inr rfl)⟩

theorem getElem?_slotCode {k : Nat} (hvalue : values[k]? = some value) :
    (number n (slotCode n values))[2 * k]? = some ⟨n + 2 * k, .alloca value.ty⟩ ∧
      (number n (slotCode n values))[2 * k + 1]? =
        some ⟨n + 2 * k + 1, .store value (.reg (n + 2 * k) (.ptr value.ty))⟩ := by
  induction values generalizing n k with
  | nil => cases hvalue
  | cons first rest ih =>
    cases k with
    | zero =>
      cases hvalue
      exact ⟨rfl, rfl⟩
    | succ k =>
      have hn : n + 2 * (k + 1) = n + 2 + 2 * k := by omega
      rw [hn]
      exact ih hvalue

theorem getElem?_paramValues (i : Nat) (tys : List Ty) (k : Nat) :
    (paramValues i tys)[k]? = tys[k]?.map (.param (i + k)) := by
  induction tys generalizing i k with
  | nil => rfl
  | cons ty rest ih =>
    cases k with
    | zero => rfl
    | succ k => rw [paramValues, List.getElem?_cons_succ, ih, List.getElem?_cons_succ,
      Nat.add_right_comm,
        Nat.add_assoc]

theorem DataType.constant_of_zeroValue (h : t.zeroValue = .ok value) (strings : List String) :
    value.Constant strings := by
  cases t with
  | void | unknown => cases h
  | integer | real | string | boolean =>
    cases h
    trivial
  | array size elem =>
    obtain ⟨ty, -, rfl⟩ := eq_zero_of_zeroValue_array h
    trivial

end Oberlet
