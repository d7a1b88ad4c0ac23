import Mathlib.Data.List.TakeWhile
import Oberlet.Proofs.Eval.Inequality
import Oberlet.Proofs.Lowering.Interning

/-!
# Equality of string literals

Strings are compared byte by byte up to the first NUL, and a text may have NUL characters itself. No
other character has a zero byte.
-/

namespace Oberlet

open Llvm Lowering Lower Eval

namespace Text.Utf8

theorem encode_eq_flatMap (text : String) :
    encode text = text.toList.flatMap String.utf8EncodeChar := by
  conv_lhs => rw [encode_eq, ← String.ofList_toList (s := text), String.toByteArray_ofList]
  rw [List.utf8Encode, List.data_toByteArray]

theorem ne_zero_of_mem_encodeChar {c : Char} (hc : c ≠ Char.ofNat 0) {b : UInt8}
    (hb : b ∈ String.utf8EncodeChar c) : b ≠ 0 := by
  have hval : c.val.toNat ≠ 0 := fun h => hc (Char.ext (UInt32.toNat_inj.mp h))
  rintro rfl
  rw [String.utf8EncodeChar] at hb
  split_ifs at hb <;>
    simp only [List.mem_cons, List.not_mem_nil, or_false, ← UInt8.toNat_inj, UInt8.toNat_ofNat',
      UInt8.toNat_zero] at hb <;> omega

/-- The bytes before the first NUL are those of the characters before it. -/
theorem takeWhile_encode (text : String) : (encode text).takeWhile (· ≠ 0) =
    encode (String.ofList (text.toList.takeWhile (· ≠ Char.ofNat 0))) := by
  rw [encode_eq_flatMap, encode_eq_flatMap, String.toList_ofList]
  induction text.toList with
  | nil => rfl
  | cons c rest ih =>
    by_cases hc : c = Char.ofNat 0
    · subst hc
      rfl
    · have hbytes : ∀ b ∈ String.utf8EncodeChar c, decide (b ≠ 0) = true :=
        fun b hb => decide_eq_true (ne_zero_of_mem_encodeChar hc hb)
      rw [List.flatMap_cons, List.takeWhile_append_of_pos hbytes, ih]
      simp [hc]

end Text.Utf8

/-! ## Strings in memory -/

namespace Eval

/-- The difference of the first bytes of two strings that are not the same, or zero if there are
none before the first NUL. -/
def compareBytes : List UInt8 → List UInt8 → BitVec 32
  | a :: as, b :: bs =>
    if a = b ∧ a ≠ 0 then compareBytes as bs else a.toBitVec.setWidth 32 - b.toBitVec.setWidth 32
  | _, _ => 0

/-- Strings are the bytes of constants, of which the last one is a NUL. -/
def Primitives.inMemory (π : Primitives) : Primitives :=
  { π with
    Str := List UInt8
    text := fun text => text.toUTF8.toList ++ [0]
    order := compareBytes }

theorem compareBytes_cons (a b : UInt8) (as bs : List UInt8) :
    compareBytes (a :: as) (b :: bs) = 0 ↔ a = b ∧ (a ≠ 0 → compareBytes as bs = 0) := by
  have hsub : a.toBitVec.setWidth 32 - b.toBitVec.setWidth 32 = 0 ↔ a = b := by
    rw [← UInt8.toBitVec_inj]
    bv_omega
  rw [compareBytes]
  split
  · rename_i h
    simp [h.1, h.1 ▸ h.2]
  · rename_i h
    rw [hsub]
    exact ⟨fun hab => ⟨hab, fun ha => (h ⟨hab, ha⟩).elim⟩, fun hab => hab.1⟩

/-- What is behind the first NUL is not compared. -/
theorem compareBytes_eq_zero_iff (as bs : List UInt8) : compareBytes (as ++ [0]) (bs ++ [0]) = 0 ↔
    as.takeWhile (· ≠ 0) = bs.takeWhile (· ≠ 0) := by
  induction as generalizing bs with
  | nil =>
    cases bs with
    | nil => decide
    | cons b bs =>
      rw [List.nil_append, List.cons_append, compareBytes_cons, List.takeWhile_cons]
      by_cases hb : b = 0 <;> simp [hb, @eq_comm _ 0 b]
  | cons a as ih =>
    cases bs with
    | nil =>
      rw [List.nil_append, List.cons_append, compareBytes_cons, List.takeWhile_cons]
      by_cases ha : a = 0 <;> simp [ha]
    | cons b bs =>
      rw [List.cons_append, List.cons_append, compareBytes_cons, ih, List.takeWhile_cons,
        List.takeWhile_cons]
      by_cases ha : a = 0 <;> by_cases hb : b = 0 <;> simp [ha, hb, @eq_comm _ 0 b]

end Eval

def Text.beforeNul (text : String) : List Char := text.toList.takeWhile (· ≠ Char.ofNat 0)

theorem Text.beforeNul_eq {text : String} (h : Char.ofNat 0 ∉ text.toList) :
    beforeNul text = text.toList :=
  List.takeWhile_eq_self_iff.mpr fun _ hc => decide_eq_true fun heq => h (heq ▸ hc)

theorem order_texts_eq_zero_iff (π : Primitives) (x y : String) :
    π.inMemory.order (π.inMemory.text x) (π.inMemory.text y) = 0 ↔
      Text.beforeNul x = Text.beforeNul y := by
  refine (compareBytes_eq_zero_iff _ _).trans ?_
  change (Text.Utf8.encode x).takeWhile _ = (Text.Utf8.encode y).takeWhile _ ↔ _
  rw [Text.Utf8.takeWhile_encode, Text.Utf8.takeWhile_encode]
  refine ⟨fun h => String.ofList_injective (Text.Utf8.encode_injective h), fun h => ?_⟩
  exact congrArg (fun cs => Text.Utf8.encode (String.ofList cs)) h

/-! ## Code -/

/-- Wherever the code for `=` between the literals of two texts is generated, it can be generated,
and executing it comes to an end with the truth value as its result. -/
def LiteralsCompute (π : Primitives) (x y : String) (value : Bool) : Prop :=
  ∀ (env : Env) (s : State) (node left right : Node),
    env.annotations.typeOf left.id = .ok .string → ∃ code v s',
      ((Expr.comparison node (.literal left (.string x)) .eq
        (.literal right (.string y))).lower env).Emits s code v s' ∧
      ∀ strings, s'.strings <+: strings →
        ∀ (σ : Type) (oracle : Oracle π σ) (w : World π σ) (regs : Regs π),
          ∃ regs' w', execute oracle strings (number s.nextReg code) regs w = .ok (regs', w') ∧
            v.Is strings (.bool value) regs'

section

variable {strings : List String} {text : String} {v : Operand}

theorem IsText.target (h : IsText strings text v) : DataType.string.target = .ok v.ty := by
  obtain ⟨_, -, rfl⟩ := h
  rfl

theorem IsText.below (h : IsText strings text v) (n : Nat) : v.Below n := by
  obtain ⟨_, -, rfl⟩ := h
  trivial

end

theorem Expr.lower_literals (env : Env) (s : State) (node left right : Node) (x y : String)
    (htype : env.annotations.typeOf left.id = .ok .string) :
    Generates ((Expr.comparison node (.literal left (.string x)) .eq
      (.literal right (.string y))).lower env) s fun tables code v =>
        ∃ l r, IsText tables.strings x l ∧ IsText tables.strings y r ∧
          CompareCode tables.strings s.nextReg l r .eq .string code v := by
  rw [Expr.lower]
  refine .lift_bind htype ((Lower.string_code x s).bind ?_)
  rintro - l s₁ hs₁ ⟨rfl, hl⟩
  refine (Lower.string_code y s₁).bind ?_
  rintro - r s₂ hs₂ ⟨rfl, hr⟩
  refine (RelOp.lower_code (t := .string) .eq trivial hl.target hr.target).imp ?_
  rintro tables code v ⟨hcode, -⟩ ⟨-, hr⟩ ⟨-, hl⟩
  rw [hs₂.nextReg, hs₁.nextReg] at hcode
  exact ⟨l, r, hl, hr, hcode⟩

/-- The code of two literals computes whether their constants are equal. -/
theorem literalsCompute_equal (π : Primitives) (x y : String) :
    LiteralsCompute π x y (π.order (π.text x) (π.text y) == 0) := by
  intro env s node left right htype
  obtain ⟨code, v, s', hemits, hcode⟩ := Expr.lower_literals env s node left right x y htype
  refine ⟨code, v, s', hemits, fun strings hstrings σ oracle w regs => ?_⟩
  obtain ⟨l, r, hl, hr, hcompare⟩ :=
    hcode ⟨strings, s'.tables.signatures⟩ ⟨hstrings, List.prefix_rfl⟩
  obtain ⟨-, hcomputes⟩ :=
    CompareCode.computes (c := .plain oracle strings) hcompare (hl.below _) (hr.below _)
  obtain ⟨value, hvalue, hcomputes⟩ :=
    hcomputes (.str (some (π.text x))) (.str (some (π.text y))) .str .str
  cases hvalue
  exact hcomputes.run_plain ⟨hl.is regs, hr.is regs⟩ w

theorem literalsCompute_beforeNul (π : Primitives) (x y : String) :
    LiteralsCompute π.inMemory x y (Text.beforeNul x = Text.beforeNul y) := by
  have h := literalsCompute_equal π.inMemory x y
  rwa [beq_eq_decide, decide_eq_decide.mpr (order_texts_eq_zero_iff π x y)] at h

/-- Every text is that of a literal, and its constant is what is compared. The code for `=` between
two literals computes whether their texts are the same up to the first NUL, and so whether they are
the same, if they have no NUL. -/
theorem literals_compared_before_nul (π : Primitives) (x y : String) :
    (∀ rest pos, ∃ text, Lexer.readLexeme [] (text ++ rest) pos =
      ⟨.ok .stringLit, x.toList, rest, pos.afterAll text⟩) ∧
    (∀ index, ∃ front literal : String, (Global.str index x).text = front ++ literal ++ "\"\n" ∧
      readBytes? literal.toList = some (π.inMemory.text x)) ∧
    LiteralsCompute π.inMemory x y (Text.beforeNul x = Text.beforeNul y) ∧
    (Char.ofNat 0 ∉ x.toList → Char.ofNat 0 ∉ y.toList →
      LiteralsCompute π.inMemory x y (x = y)) := by
  have hcompute := literalsCompute_beforeNul π x y
  refine ⟨fun rest pos => ?_, fun index => ?_, hcompute, fun hx hy => ?_⟩
  · have hbody := Text.Escape.decode?_encode x.toList
    exact ⟨_, Lexer.readLexeme_of_munches (.string hbody)⟩
  · obtain ⟨literal, htext, hbytes⟩ := Global.text_str index x
    exact ⟨_, literal, htext, hbytes⟩
  · rw [Text.beforeNul_eq hx, Text.beforeNul_eq hy] at hcompute
    simpa only [String.toList_inj] using hcompute

/-- Literals without NUL are equal if and only if they have the same text. -/
theorem plain_literals_compared :
    LiteralsCompute flawedReals.inMemory "abc" "abc" true ∧
      LiteralsCompute flawedReals.inMemory "abc" "abd" false := by
  constructor
  · have hcompute := (literals_compared_before_nul flawedReals "abc" "abc").2.2.2 (by decide)
      (by decide)
    rwa [decide_eq_true rfl] at hcompute
  · have hcompute := (literals_compared_before_nul flawedReals "abc" "abd").2.2.2 (by decide)
      (by decide)
    rwa [decide_eq_false (by decide)] at hcompute

/-- Literals with different texts are equal if these differ behind a NUL only. -/
theorem literals_equal_behind_nul :
    "a\x00b" ≠ "a\x00c" ∧ LiteralsCompute flawedReals.inMemory "a\x00b" "a\x00c" true := by
  refine ⟨by decide, ?_⟩
  have hsame : Text.beforeNul "a\x00b" = Text.beforeNul "a\x00c" := by decide
  have hcompute := literalsCompute_beforeNul flawedReals "a\x00b" "a\x00c"
  rwa [decide_eq_true hsame] at hcompute

end Oberlet
