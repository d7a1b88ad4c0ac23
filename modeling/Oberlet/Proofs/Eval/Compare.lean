import Oberlet.Proofs.Eval.Logic

/-!
# Comparisons
-/

namespace Oberlet

open Llvm Lowering Eval

variable {π : Primitives} {σ : Type} {c : Context π σ} {n : Nat} {code : List Instr}
    {l r v : Operand}

/-! ## Strings -/

variable {strings : List String} {as bs : List (Value π)} {a b : Value π} {index : Nat}
  {elem : DataType}

theorem IsText.is {text : String} (h : IsText strings text v) (regs : Regs π) :
    v.Is strings (.str (some (π.text text))) regs := by
  obtain ⟨index, hindex, rfl⟩ := h
  simp [Operand.Is, Operand.datum?, hindex]

theorem NonNullCode.below (h : NonNullCode strings n l code v) : v.Below (n + code.length) := by
  cases h with
  | text => trivial
  | select => exact Nat.lt_succ_self _

/-- The empty string takes the place of none. -/
theorem NonNullCode.computes (h : NonNullCode c.strings n l code v) (hl : l.Below n)
    (s : Option π.Str) :
    c.Computes (l.Is c.strings (.str s)) n code
      (v.Is c.strings (.str (some (s.getD (π.text ""))))) := by
  cases h with
  | text =>
    refine .pure fun regs hregs => ?_
    obtain ⟨_, -, heq⟩ := Option.bind_eq_some_iff.mp hregs
    cases heq
    exact hregs
  | @select _ empty _ hempty =>
    have hnull : c.Computes (l.Is c.strings (.str s)) n [.icmp .eq l .null]
        ((Operand.reg n .i1).Is c.strings (.bool s.isNone)) :=
      (Context.Computes.icmp rfl).imp (fun regs hregs => ⟨hregs, rfl⟩) fun _ h => h
    refine (hnull.keep hl.stable_is fun _ h => h).seq
      (.value .charPtr rfl fun regs ⟨hcond, hregs⟩ => ?_)
    rw [Instr.exec, hcond.value, pure_bind, (hempty.is regs).value, hregs.value]
    cases s with
    | none => rfl
    | some text => rfl

theorem Context.computes_order {l' r' : Operand} {front back : List Instr} (hl : l.Below n)
    (hr : r.Below n) (hfront : NonNullCode c.strings n l front l')
    (hback : NonNullCode c.strings (n + front.length) r back r') (s t : Option π.Str) :
    c.Computes (Operand.Are c.strings l r (.str s) (.str t)) n
      (front ++ (back ++ [.call Runtime.strcmp.function.signature [l', r']]))
      ((Operand.reg (n + front.length + back.length) .i32).Is c.strings
        (.int (π.order (s.getD (π.text "")) (t.getD (π.text ""))))) := by
  have hr' : r.Below (n + front.length) := hr.mono (Nat.le_add_right _ _)
  have hleft : c.Computes (Operand.Are c.strings l r (.str s) (.str t)) n front
      (l'.Is c.strings (.str (some (s.getD (π.text ""))))) :=
    (hfront.computes hl s).imp (fun _ h => h.1) fun _ h => h
  have hboth := hleft.both ((hback.computes hr' t).imp (fun _ h => h.2) fun _ h => h)
    (hl.stable_are hr) hfront.below.stable_is
  have hcall : c.Computes (fun regs => l'.Is c.strings (.str (some (s.getD (π.text "")))) regs ∧
        r'.Is c.strings (.str (some (t.getD (π.text "")))) regs) (n + (front ++ back).length)
      [.call Runtime.strcmp.function.signature [l', r']]
      ((Operand.reg (n + (front ++ back).length) .i32).Is c.strings
        (.int (π.order (s.getD (π.text "")) (t.getD (π.text ""))))) := by
    refine .value .i32 rfl fun regs ⟨hl', hr'⟩ => ?_
    rw [Instr.exec, Signature.exec_runtime, Runtime.exec, hl'.value, pure_bind, hr'.value,
      pure_bind]
  simpa [Nat.add_assoc] using hboth.seq hcall

/-! ## Equality -/

theorem Eval.Value.equalAll_concat (h : as.length = bs.length) (a b : Value π) :
    Value.equalAll (as ++ [a]) (bs ++ [b]) = (Value.equalAll as bs && a.equal b) := by
  induction as generalizing bs with
  | nil =>
    obtain rfl := List.length_eq_zero_iff.mp h.symm
    simp [Value.equalAll]
  | cons x as ih =>
    obtain ⟨y, bs, rfl⟩ := List.exists_cons_of_length_eq_add_one h.symm
    simp [Value.equalAll, ih (Nat.succ.inj h), Bool.and_assoc]

theorem Eval.Value.equalAll_take_succ (ha : as[index]? = some a) (hb : bs[index]? = some b) :
    Value.equalAll (as.take (index + 1)) (bs.take (index + 1)) =
      (Value.equalAll (as.take index) (bs.take index) && a.equal b) := by
  obtain ⟨hindex, rfl⟩ := List.getElem?_eq_some_iff.mp ha
  obtain ⟨hindex', rfl⟩ := List.getElem?_eq_some_iff.mp hb
  rw [← List.take_append_getElem hindex, ← List.take_append_getElem hindex']
  refine Value.equalAll_concat ?_ _ _
  rw [List.length_take_of_le hindex.le, List.length_take_of_le hindex'.le]

/-- The code that compares values of a type computes whether they are equal. -/
def DataType.Compared (c : Context π σ) (t : DataType) : Prop :=
  ∀ ⦃n : Nat⦄ ⦃l r : Operand⦄ ⦃code : List Instr⦄ ⦃v : Operand⦄,
    EqualsCode c.strings t n l r code v → l.Below n → r.Below n → v.Below (n + code.length) ∧
      ∀ a b : Value π, a.Fits t → b.Fits t →
        c.Computes (Operand.Are c.strings l r a b) n code (v.Is c.strings (.bool (a.equal b)))

theorem Context.computes_extract (ty : Ty) (h : as[index]? = some a) :
    c.Computes (v.Is c.strings (.array as)) n [.extractValue v ty index]
      ((Operand.reg n ty).Is c.strings a) := by
  refine .value ty rfl fun regs hregs => ?_
  rw [Instr.exec, hregs.value, pure_bind]
  simp only [h]

theorem DataType.Compared.element (h : elem.Compared c) {ty : Ty}
    (hcode : EqualsCode c.strings elem (n + 2) (.reg n ty) (.reg (n + 1) ty) code v)
    (ha : as[index]? = some a) (hb : bs[index]? = some b) (hfits : a.Fits elem)
    (hfits' : b.Fits elem) (hl : l.Below n) (hr : r.Below n) :
    c.Computes (Operand.Are c.strings l r (.array as) (.array bs)) n
      ([.extractValue l ty index] ++ ([.extractValue r ty index] ++ code))
      (v.Is c.strings (.bool (a.equal b))) := by
  have hreg : (Operand.reg n ty).Below (n + 1) := Nat.lt_succ_self n
  have hleft : c.Computes (Operand.Are c.strings l r (.array as) (.array bs)) n _ _ :=
    (Context.computes_extract ty ha).imp (fun _ h => h.1) fun _ h => h
  have hboth := hleft.both ((Context.computes_extract ty hb).imp (fun _ h => h.2) fun _ h => h)
    (hl.stable_are hr) hreg.stable_is
  exact hboth.seq ((h hcode (hreg.mono (Nat.le_succ _)) (Nat.lt_succ_self _)).2 a b hfits hfits')

/-- Arrays are compared element by element. -/
theorem DataType.Compared.elements (h : elem.Compared c) {count : Nat}
    (hcode : ElemsCode c.strings elem count n l r code v) (hl : l.Below n) (hr : r.Below n) :
    v.Below (n + code.length) ∧ ∀ as bs : List (Value π), as.length = bs.length →
      count ≤ as.length → (∀ a ∈ as, a.Fits elem) → (∀ b ∈ bs, b.Fits elem) →
        c.Computes (Operand.Are c.strings l r (.array as) (.array bs)) n code
          (v.Is c.strings (.bool (Value.equalAll (as.take count) (bs.take count)))) := by
  induction count generalizing code v with
  | zero => cases hcode
  | succ index ih =>
    have helem (as : List (Value π)) (hlength : index < as.length) (has : ∀ a ∈ as, a.Fits elem) :
        ∃ a, as[index]? = some a ∧ a.Fits elem :=
      ⟨as[index], List.getElem?_eq_getElem hlength, has _ (List.getElem_mem hlength)⟩
    cases hcode with
    | @one _ _ ty _ _ _ code _ hcode =>
      refine ⟨(h hcode (Nat.lt_succ_of_lt (Nat.lt_succ_self n)) (Nat.lt_succ_self _)).1.mono ?_,
        fun as bs hlength hcount has hbs => ?_⟩
      · simp only [List.length_append, List.length_singleton]
        omega
      obtain ⟨a, ha, hfits⟩ := helem as hcount has
      obtain ⟨b, hb, hfits'⟩ := helem bs (hlength ▸ hcount) hbs
      have := h.element hcode ha hb hfits hfits' hl hr
      rw [Value.equalAll_take_succ ha hb]
      simpa [Value.equalAll] using this
    | @more _ k index _ ty _ _ v w before code hbefore hk _ hcode =>
      subst hk
      obtain ⟨hv, hbefore⟩ := ih hbefore
      refine ⟨Nat.lt_succ_self _ |>.trans_le ?_, fun as bs hlength hcount has hbs => ?_⟩
      · simp only [List.length_append, List.length_singleton]
        omega
      obtain ⟨a, ha, hfits⟩ := helem as hcount has
      obtain ⟨b, hb, hfits'⟩ := helem bs (hlength ▸ hcount) hbs
      have hl' : l.Below (n + before.length) := hl.mono (Nat.le_add_right _ _)
      have hr' : r.Below (n + before.length) := hr.mono (Nat.le_add_right _ _)
      have hlast := h.element hcode ha hb hfits hfits' hl' hr'
      have hboth := (hbefore as bs hlength (Nat.le_of_lt hcount) has hbs).both hlast
        (hl.stable_are hr) hv.stable_is
      rw [Value.equalAll_take_succ ha hb]
      have hand (x y : Bool) :
          BinaryOp.exec (π := π) .and (.bool x) (.bool y) = .ok (.bool (x && y)) := rfl
      simpa [Nat.add_assoc, Nat.add_comm 2] using hboth.seq (.binary .i1 (hand _ _))

/-- The code computes whether two values are equal, and has no effects. -/
theorem DataType.compared (c : Context π σ) (t : DataType) : t.Compared c := by
  intro n l r code v hcode hl hr
  induction t generalizing n l r code v with
  | integer =>
    cases hcode
    refine ⟨Nat.lt_succ_self _, fun a b ha hb => ?_⟩
    cases ha
    cases hb
    exact .icmp rfl
  | boolean =>
    cases hcode
    refine ⟨Nat.lt_succ_self _, fun a b ha hb => ?_⟩
    cases ha
    cases hb
    exact .icmp rfl
  | real =>
    cases hcode
    refine ⟨Nat.lt_succ_self _, fun a b ha hb => ?_⟩
    cases ha
    cases hb
    exact .fcmp
  | string =>
    cases hcode with
    | @string _ _ _ _ l' r' front back hfront hback hk =>
    subst hk
    refine ⟨?_, fun a b ha hb => ?_⟩
    · change _ < _
      simp only [List.length_append, List.length_singleton]
      omega
    cases ha with | @str s =>
    cases hb with | @str t =>
    have hzero (k : Nat) (order : BitVec 32) :
        c.Computes ((Operand.reg k .i32).Is c.strings (.int order)) (k + 1)
          [.icmp .eq (.reg k .i32) (.int 0)]
          ((Operand.reg (k + 1) .i1).Is c.strings (.bool (order == 0))) :=
      (Context.Computes.icmp rfl).imp (fun regs h => ⟨h, rfl⟩) fun _ h => h
    have horder := Context.computes_order hl hr hfront hback s t
    have := horder.seq (by simpa [Nat.add_assoc] using hzero (n + front.length + back.length) _)
    rw [Value.equal]
    simpa [Nat.add_assoc] using this
  | array size elem ih =>
    cases hcode with
    | array hcode =>
    have helem : elem.Compared c := fun _ _ _ _ _ hcode hl hr => ih hcode hl hr
    obtain ⟨hv, hcompare⟩ := helem.elements hcode hl hr
    refine ⟨hv, fun a b ha hb => ?_⟩
    cases ha with | @array as _ _ hlength has =>
    cases hb with | @array bs _ _ hlength' hbs =>
    have := hcompare as bs (by omega) (by omega) has hbs
    rw [List.take_of_length_le (by omega), List.take_of_length_le (by omega)] at this
    exact this
  | void => cases hcode
  | unknown => cases hcode

end Oberlet
