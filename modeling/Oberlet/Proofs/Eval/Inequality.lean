import Oberlet.Proofs.Eval.Expr

/-!
# Equality and inequality

Two real numbers that are compared may be unordered, and then no predicate of the target language
that is used here holds of them. At all other types, arrays of real numbers among them, `#` is the
negation of `=`.
-/

namespace Oberlet

open Llvm Lowering Eval RelOp

/-! ## Real numbers -/

/-- Whether a predicate holds of real numbers that are ordered. -/
def Llvm.RealPred.ofOrdering : RealPred → Ordering → Bool
  | oeq => Ordering.isEq
  | one => Ordering.isNe
  | olt => Ordering.isLT
  | ole => Ordering.isLE
  | ogt => Ordering.isGT
  | oge => Ordering.isGE

/-- Whether a predicate holds of two real numbers, by the outcome of comparing them, which is none
if they are unordered. -/
def Llvm.RealPred.holds (pred : RealPred) (outcome : Option Ordering) : Bool :=
  outcome.any pred.ofOrdering

def Eval.Primitives.ComparesBy (π : Primitives) (outcome : π.Real → π.Real → Option Ordering) :
    Prop :=
  ∀ (pred : RealPred) a b, π.compare pred.relOp a b = pred.holds (outcome a b)

namespace Eval

variable {π : Primitives} {outcome : π.Real → π.Real → Option Ordering}

/-- Two values are real numbers that are unordered. -/
def Value.Unordered (outcome : π.Real → π.Real → Option Ordering) (a b : Value π) : Prop :=
  ∃ x y, a = .real x ∧ b = .real y ∧ outcome x y = none

theorem Primitives.ComparesBy.compare_eq (h : π.ComparesBy outcome) (a b : π.Real) :
    π.compare .eq a b = (outcome a b).any Ordering.isEq :=
  h .oeq a b

theorem Primitives.ComparesBy.compare_neq (h : π.ComparesBy outcome) (a b : π.Real) :
    π.compare .neq a b = (outcome a b).any Ordering.isNe :=
  h .one a b

theorem Primitives.ComparesBy.compare_neq_eq_not (h : π.ComparesBy outcome) {a b : π.Real}
    (hordered : outcome a b ≠ none) : π.compare .neq a b = !π.compare .eq a b := by
  rw [h.compare_eq, h.compare_neq]
  cases houtcome : outcome a b with
  | none => exact (hordered houtcome).elim
  | some order => cases order <;> rfl

end Eval

variable {π : Primitives} {outcome : π.Real → π.Real → Option Ordering} {t : DataType}
  {a b : Value π}

theorem RelOp.eval_equal (ha : a.Fits t) (hb : b.Fits t) : eq.eval a b = .ok (a.equal b) := by
  cases ha <;> cases hb <;> rfl

theorem RelOp.eval_unequal (h : π.ComparesBy outcome) (ha : a.Fits t) (hb : b.Fits t)
    (hordered : ¬ Value.Unordered outcome a b) : neq.eval a b = .ok !a.equal b := by
  by_cases hnumeric : t.Numeric
  · cases ha with
    | int =>
      cases hb
      rfl
    | @real x =>
      cases hb with | @real y =>
      have hne : outcome x y ≠ none := fun hnone => hordered ⟨x, y, rfl, rfl, hnone⟩
      exact congrArg Except.ok (h.compare_neq_eq_not hne)
    | bool | str | array => cases hnumeric
  · exact (eval_equality hnumeric ha b).2

/-- Both operators are false of numbers that are unordered. -/
theorem RelOp.eval_unordered (h : π.ComparesBy outcome) (hunordered : Value.Unordered outcome a b) :
    a.equal b = false ∧ neq.eval a b = .ok false := by
  obtain ⟨x, y, rfl, rfl, hnone⟩ := hunordered
  refine ⟨?_, congrArg Except.ok ?_⟩
  · rw [Value.equal, h.compare_eq, hnone]
    rfl
  · rw [h.compare_neq, hnone]
    rfl

/-! ## Code -/

/-- Wherever the code of a comparison is generated, for whatever operands that have the values, it
can be generated, and executing it comes to an end with the truth value as its result. -/
def RelOp.Computes (op : RelOp) (t : DataType) (a b : Value π) (value : Bool) : Prop :=
  ∀ (s : State) (l r : Operand), t.target = .ok l.ty → t.target = .ok r.ty →
    l.Below s.nextReg → r.Below s.nextReg →
    ∃ code v s', (op.lower t l r).Emits s code v s' ∧
      ∀ strings, s'.strings <+: strings →
        ∀ (σ : Type) (oracle : Oracle π σ) (w : World π σ) (regs : Regs π),
          l.Is strings a regs → r.Is strings b regs →
          ∃ regs' w', execute oracle strings (number s.nextReg code) regs w = .ok (regs', w') ∧
            v.Is strings (.bool value) regs'

/-- Code that is executed on its own. -/
def Context.plain {σ : Type} (oracle : Oracle π σ) (strings : List String) : Context π σ where
  setting := ⟨fun _ => none, fun _ => .error default, ⟨strings, []⟩⟩
  moduleName := ""
  limit := 0
  oracle := oracle
  apart := false

variable {code : List Instr} {op : RelOp} {value : Bool}

theorem Context.Computes.run_plain {σ : Type} {oracle : Oracle π σ} {strings : List String}
    {P Q : Regs π → Prop} {n : Nat} (h : (Context.plain oracle strings).Computes P n code Q)
    {regs : Regs π} (hregs : P regs) (w : World π σ) :
    ∃ regs' w', execute oracle strings (number n code) regs w = .ok (regs', w') ∧ Q regs' := by
  let seen : World π σ := { w with trace := w.trace.filter (·.visible 0) }
  have hbefore : (Context.plain oracle strings).Before n code regs seen w := by
    refine ⟨Nat.zero_le n, fun _ _ _ hname => ?_, fun hapart => ?_, ?_, fun _ _ _ hname => ?_⟩
    · cases hname
    · cases hapart
    · exact ⟨rfl, fun _ _ => rfl, rfl, rfl⟩
    · cases hname
  obtain ⟨regs', w', hrun, -, hQ⟩ := h regs seen w hregs hbefore
  exact ⟨regs', w', hrun, hQ⟩

theorem RelOp.computes_eval (hop : op.Compares t) (ht : t.Proper) (ha : a.Fits t) (hb : b.Fits t)
    (hvalue : op.eval a b = .ok value) : op.Computes t a b value := by
  intro s l r hl hr hlbelow hrbelow
  obtain ⟨code, v, s', hemits, hcode⟩ := lower_code (s := s) hop ht hl hr
  refine ⟨code, v, s', hemits, fun strings hstrings σ oracle w regs hla hrb => ?_⟩
  have hcompare : CompareCode strings s.nextReg l r op t code v :=
    (hcode ⟨strings, s'.tables.signatures⟩ ⟨hstrings, List.prefix_rfl⟩).1
  obtain ⟨-, hcomputes⟩ :=
    CompareCode.computes (c := .plain oracle strings) hcompare hlbelow hrbelow
  obtain ⟨value', hvalue', hcomputes⟩ := hcomputes a b ha hb
  cases hvalue.symm.trans hvalue'
  exact hcomputes.run_plain ⟨hla, hrb⟩ w

theorem Lower.Emits.lines {α : Type} {m : Lower α} {s s' : State} {v : α} (h : m.Emits s code v s')
    (hdone : s.done = []) : s'.block.lines = s.block.lines ++ number s.nextReg code := by
  have hplace := congrArg (fun state => state.block.lines) h.emitted.place
  rw [State.place, hdone] at hplace
  exact hplace

theorem RelOp.Computes.unique (ht : t.Proper) {x y : Bool} (hx : op.Computes t a b x)
    (hy : op.Computes t a b y) : x = y := by
  obtain ⟨ty, hty⟩ := ht.target
  -- both are about the code for two registers that have the values
  let s : State := { State.initial with nextReg := 2 }
  let regs : Regs π := fun i => some (.value (if i = 0 then a else b))
  let oracle : Oracle π Unit := ⟨fun _ _ _ _ => none, fun _ _ w => w, fun _ w => (.int 0, w)⟩
  let w : World π Unit := ⟨fun _ => .int 0, fun _ => .int 0, (), []⟩
  obtain ⟨code, v, s', hemits, hrun⟩ :=
    hx s (.reg 0 ty) (.reg 1 ty) hty hty Nat.zero_lt_two Nat.one_lt_two
  obtain ⟨code', v', s'', hemits', hrun'⟩ :=
    hy s (.reg 0 ty) (.reg 1 ty) hty hty Nat.zero_lt_two Nat.one_lt_two
  cases hemits.runs.symm.trans hemits'.runs
  have hlines : number s.nextReg code = number s.nextReg code' :=
    List.append_cancel_left ((hemits.lines rfl).symm.trans (hemits'.lines rfl))
  obtain ⟨_, _, hregs, hv⟩ := hrun _ List.prefix_rfl Unit oracle w regs rfl rfl
  obtain ⟨_, _, hregs', hv'⟩ := hrun' _ List.prefix_rfl Unit oracle w regs rfl rfl
  rw [hlines] at hregs
  cases hregs.symm.trans hregs'
  cases hv.symm.trans hv'
  rfl

/-- The code of a comparison computes its value and no other. -/
theorem RelOp.computes_iff (hop : op.Compares t) (ht : t.Proper) (ha : a.Fits t) (hb : b.Fits t)
    (hvalue : op.eval a b = .ok value) (z : Bool) : op.Computes t a b z ↔ z = value := by
  have hcomputes := computes_eval hop ht ha hb hvalue
  refine ⟨fun hz => hz.unique ht hcomputes, fun hz => ?_⟩
  rw [hz]
  exact hcomputes

theorem Eval.Value.equalAll_iff_computes (ht : t.Proper) {as bs : List (Value π)}
    (has : ∀ a ∈ as, a.Fits t) (hbs : ∀ b ∈ bs, b.Fits t) :
    Value.equalAll as bs = true ↔
      List.Forall₂ (fun a b => eq.Computes t a b true) as bs := by
  induction as generalizing bs with
  | nil => cases bs <;> simp [Value.equalAll]
  | cons a as ih =>
    cases bs with
    | nil => simp [Value.equalAll]
    | cons b bs =>
      rw [List.forall_mem_cons] at has hbs
      have hfirst := computes_iff .eq ht has.1 hbs.1 (eval_equal has.1 hbs.1) true
      rw [Value.equalAll, Bool.and_eq_true, ih has.2 hbs.2, List.forall₂_cons, hfirst, eq_comm]

/-- The code of `=` and that of `#` compute one truth value each for any two values of a type. The
second is the negation of the first, but for unordered real numbers, where both are false. For
arrays, the first is true if that of all elements is. -/
theorem inequality_negates_equality (hπ : π.ComparesBy outcome) (ht : t.Proper) (ha : a.Fits t)
    (hb : b.Fits t) :
    ∃ x y, (∀ z, RelOp.eq.Computes t a b z ↔ z = x) ∧ (∀ z, RelOp.neq.Computes t a b z ↔ z = y) ∧
      (¬ Value.Unordered outcome a b → y = !x) ∧
      (Value.Unordered outcome a b → x = false ∧ y = false) ∧
      ∀ size elem as bs, t = .array size elem → a = .array as → b = .array bs →
        (x = true ↔ List.Forall₂ (fun a b => RelOp.eq.Computes elem a b true) as bs) := by
  have heq := computes_iff .eq ht ha hb (eval_equal ha hb)
  have harray (size : Int) (elem : DataType) (as bs : List (Value π)) (hsize : t = .array size elem)
      (has : a = .array as) (hbs : b = .array bs) : a.equal b = true ↔
        List.Forall₂ (fun a b => eq.Computes elem a b true) as bs := by
    subst hsize has hbs
    cases ha with | array _ has =>
    cases hb with | array _ hbs =>
    rw [Value.equal]
    exact Value.equalAll_iff_computes ht.2 has hbs
  by_cases hunordered : Value.Unordered outcome a b
  · obtain ⟨hx, hy⟩ := eval_unordered hπ hunordered
    exact ⟨a.equal b, false, heq, computes_iff .neq ht ha hb hy,
      fun h => (h hunordered).elim, fun _ => ⟨hx, rfl⟩, harray⟩
  · have hy := eval_unequal hπ ha hb hunordered
    exact ⟨a.equal b, !a.equal b, heq, computes_iff .neq ht ha hb hy, fun _ => rfl,
      fun h => (hunordered h).elim, harray⟩

/-- Real numbers with two values only: a number, and one that is not a number. -/
def flawedReals : Primitives where
  Real := Bool
  Str := String
  real _ := true
  neg x := x
  arith _ x y := x && y
  compare op x y := op.realPred.holds (if x && y then some .eq else none)
  ofInt _ := true
  toInt _ := 0
  text s := s
  order s s' := if s = s' then 0 else 1

theorem flawedReals_comparesBy :
    flawedReals.ComparesBy fun (x y : Bool) => if x && y then some .eq else none := by
  intro pred x y
  cases pred <;> rfl

/-- A number and what is not a number are neither equal nor unequal. -/
theorem flawedReals_neither :
    RelOp.eq.Computes .real (.real true : Value flawedReals) (.real false) false ∧
      RelOp.neq.Computes .real (.real true : Value flawedReals) (.real false) false :=
  ⟨computes_eval (t := .real) .eq trivial .real .real rfl,
    computes_eval (t := .real) .neq trivial .real .real rfl⟩

/-- Arrays of what is not a number are unequal. -/
theorem flawedReals_arrays_unequal :
    ∃ x y, (∀ z, RelOp.eq.Computes (.array 1 .real) (.array [.real false] : Value flawedReals)
        (.array [.real false]) z ↔ z = x) ∧
      (∀ z, RelOp.neq.Computes (.array 1 .real) (.array [.real false] : Value flawedReals)
        (.array [.real false]) z ↔ z = y) ∧
      y = !x := by
  have hfits : (.array [.real false] : Value flawedReals).Fits (.array 1 .real) := by
    refine .array rfl fun v hv => ?_
    rw [List.mem_singleton.mp hv]
    exact .real
  have hproper : (DataType.array 1 .real).Proper := ⟨by decide, trivial⟩
  obtain ⟨x, y, hx, hy, hordered, -, -⟩ :=
    inequality_negates_equality flawedReals_comparesBy hproper hfits hfits
  refine ⟨x, y, hx, hy, hordered ?_⟩
  rintro ⟨_, _, h, -⟩
  cases h

end Oberlet
