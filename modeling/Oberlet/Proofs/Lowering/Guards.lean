import Oberlet.Proofs.Flow.Simulation

/-!
# Strings that are passed to the host
-/

namespace Oberlet

open Llvm Lowering

def Llvm.Instr.isSelect : Instr → Bool
  | select .. => true
  | _ => false

/-- An instruction neither compares nor prints. -/
def Llvm.Instr.Apart : Instr → Prop
  | call callee _ => callee.name ≠ "strcmp" ∧ callee.name ≠ "printf"
  | _ => True

/-- An operand is a string constant, or what one of the lines computes that put the empty string in
place of null. -/
inductive Shielded (strings : List String) (lines : List Line) : Operand → Prop
  | text {index size : Nat} : Shielded strings lines (.text index size)
  | select {k : Nat} {v empty : Operand} : ⟨k, .icmp .eq v .null⟩ ∈ lines →
    IsText strings "" empty →
      ⟨k + 1, .select (.reg k .i1) empty v⟩ ∈ lines → Shielded strings lines (.reg (k + 1) .charPtr)

/-- An operand is not a register, or one that a line computes without choosing it. -/
def Direct (lines : List Line) (v : Operand) : Prop :=
  ∀ reg ty, v = .reg reg ty →
    ∃ instr, ⟨reg, instr⟩ ∈ lines ∧ instr.isSlot = false ∧ instr.isSelect = false

/-- What an instruction among lines passes to the host. -/
structure Passes (strings : List String) (lines : List Line) (instr : Instr) : Prop where
  strcmp : ∀ callee args, instr = .call callee args → callee.name = "strcmp" →
    ∃ l r, args = [l, r] ∧ Shielded strings lines l ∧ Shielded strings lines r
  printf : ∀ callee args, instr = .call callee args → callee.name = "printf" →
    ∃ index size v, args = [.text index size, v] ∧ Direct lines v

/-- Lines pass no string to be compared that may be null. -/
def Guards (strings : List String) (lines : List Line) : Prop :=
  ∀ line ∈ lines, Passes strings lines line.instr

/-- Functions of the module are not those of the host. -/
def CodeSetting.Foreign (k : CodeSetting) : Prop :=
  ∀ name sp index callee, k.names name = some (.proc sp) → sp.builtin = false →
    k.binding sp.name = .ok (.function index) → k.tables.signatures[index]? = some callee →
    ∀ r : Runtime, callee.name ≠ r.function.name

section

variable {strings : List String} {lines lines' : List Line} {n : Nat} {code front back : List Instr}
  {v w l r : Operand}

/-- Only lines that are no stack slots matter. -/
abbrev KeptIn (lines lines' : List Line) : Prop :=
  ∀ line ∈ lines, line.instr.isSlot = false → line ∈ lines'

theorem KeptIn.append_left (lines lines' : List Line) : KeptIn lines (lines ++ lines') :=
  fun _ hline _ => List.mem_append_left _ hline

theorem KeptIn.append_right (lines lines' : List Line) : KeptIn lines' (lines ++ lines') :=
  fun _ hline _ => List.mem_append_right _ hline

theorem Shielded.mono (h : Shielded strings lines v) (hkept : KeptIn lines lines') :
    Shielded strings lines' v := by
  cases h with
  | text => exact .text
  | select hnull hempty hselect => exact .select (hkept _ hnull rfl) hempty (hkept _ hselect rfl)

theorem Direct.mono (h : Direct lines v) (hkept : KeptIn lines lines') : Direct lines' v := by
  intro reg ty hreg
  obtain ⟨instr, hmem, hslot, hselect⟩ := h reg ty hreg
  exact ⟨instr, hkept _ hmem hslot, hslot, hselect⟩

theorem Passes.mono {instr : Instr} (h : Passes strings lines instr) (hkept : KeptIn lines lines') :
    Passes strings lines' instr where
  strcmp callee args hcall hname := by
    obtain ⟨l, r, rfl, hl, hr⟩ := h.strcmp callee args hcall hname
    exact ⟨l, r, rfl, hl.mono hkept, hr.mono hkept⟩
  printf callee args hcall hname := by
    obtain ⟨index, size, v, rfl, hv⟩ := h.printf callee args hcall hname
    exact ⟨index, size, v, rfl, hv.mono hkept⟩

theorem Llvm.Instr.Apart.passes {instr : Instr} (h : instr.Apart) : Passes strings lines instr := by
  refine ⟨?_, ?_⟩
  · rintro callee args rfl hname
    exact (h.1 hname).elim
  · rintro callee args rfl hname
    exact (h.2 hname).elim

theorem Guards.append (h : Guards strings lines) (h' : Guards strings lines') :
    Guards strings (lines ++ lines') :=
  List.forall_mem_append.mpr ⟨fun line hline => (h line hline).mono (.append_left _ _),
    fun line hline => (h' line hline).mono (.append_right _ _)⟩

theorem Guards.concat (h : Guards strings (number n code)) {instr : Instr}
    (hinstr : Passes strings (number n code) instr) :
    Guards strings (number n (code ++ [instr])) := by
  rw [number_append]
  exact List.forall_mem_append.mpr ⟨fun line hline => (h line hline).mono (.append_left _ _),
    List.forall_mem_singleton.mpr (hinstr.mono (.append_left _ _))⟩

theorem Guards.nil : Guards strings [] := List.forall_mem_nil _

theorem Guards.single {instr : Instr} (h : instr.Apart) : Guards strings (number n [instr]) :=
  List.forall_mem_singleton.mpr h.passes

theorem Guards.work (h : Guards strings lines) : Guards strings (workOf lines) :=
  fun line hline => (h line (List.mem_of_mem_filter hline)).mono fun _ hmem hslot =>
    List.mem_filter.mpr ⟨hmem, by simp [hslot]⟩

theorem guards_slotsOf (lines : List Line) : Guards strings (slotsOf lines) := by
  intro line hline
  refine Instr.Apart.passes ?_
  have hslot := (List.mem_filter.mp hline).2
  cases hinstr : line.instr with
  | call =>
    rw [hinstr] at hslot
    cases hslot
  | _ => trivial

/-! ## Values -/

/-- Code passes no string to be compared that may be null, and the values that it computes are not
chosen. -/
structure Computed (strings : List String) (n : Nat) (code : List Instr) (values : List Operand) :
    Prop where
  guards : Guards strings (number n code)
  direct : ∀ v ∈ values, Direct (number n code) v

variable {values values' : List Operand} {t : DataType}

namespace Computed

theorem given (h : ∀ reg ty, v ≠ .reg reg ty) : Computed strings n [] [v] :=
  ⟨.nil, List.forall_mem_singleton.mpr fun reg ty hreg => (h reg ty hreg).elim⟩

theorem instr (instr : Instr) (ty : Ty) (h : instr.Apart)
    (hinstr : (instr.isSlot || instr.isSelect) = false) :
    Computed strings n [instr] [.reg n ty] := by
  refine ⟨.single h, List.forall_mem_singleton.mpr ?_⟩
  rintro _ _ ⟨⟩
  exact ⟨instr, List.mem_singleton_self _, Bool.or_eq_false_iff.mp hinstr⟩

theorem both (h : Computed strings n front values)
    (h' : Computed strings (n + front.length) back values') :
    Computed strings n (front ++ back) (values ++ values') := by
  constructor <;> rw [number_append]
  · exact h.guards.append h'.guards
  · exact List.forall_mem_append.mpr ⟨fun v hv => (h.direct v hv).mono (.append_left _ _),
      fun v hv => (h'.direct v hv).mono (.append_right _ _)⟩

theorem after (h : Computed strings (n + front.length) back values)
    (hfront : Guards strings (number n front)) : Computed strings n (front ++ back) values :=
  @both strings n front back [] values ⟨hfront, List.forall_mem_nil _⟩ h

end Computed

/-! ## Comparisons -/

/-- Before a string is compared, null is replaced by the empty string. -/
theorem NonNullCode.shielded (h : NonNullCode strings n l code v) :
    Guards strings (number n code) ∧ Shielded strings (number n code) v := by
  cases h with
  | text => exact ⟨.nil, .text⟩
  | @select _ empty _ hempty =>
    refine ⟨?_, .select (v := l) (by simp [number]) hempty (by simp [number])⟩
    rw [number_append]
    exact Guards.append (.single trivial) (.single trivial)

theorem EqualsCode.computed (h : EqualsCode strings t n l r code v) :
    Computed strings n code [v] := by
  induction t generalizing n l r code v with
  | integer | boolean | real =>
    cases h
    exact .instr _ _ trivial rfl
  | string =>
    cases h with
    | @string _ k _ _ l' r' front back hfront hback hk =>
    subst hk
    obtain ⟨hl, hl'⟩ := hfront.shielded
    obtain ⟨hr, hr'⟩ := hback.shielded
    have hboth : Guards strings (number n (front ++ back)) := by
      rw [number_append]
      exact hl.append hr
    have hpasses : Passes strings (number n (front ++ back))
        (.call Runtime.strcmp.function.signature [l', r']) := by
      constructor
      · rintro _ _ ⟨⟩ -
        rw [number_append]
        exact ⟨l', r', rfl, hl'.mono (.append_left _ _), hr'.mono (.append_right _ _)⟩
      · rintro _ _ ⟨⟩ hname
        exact absurd hname (by decide)
    have hzero := Computed.after (.instr (.icmp .eq (.reg (n + front.length + back.length) .i32)
      (.int 0)) .i1 trivial rfl) (hboth.concat hpasses)
    simpa [Nat.add_assoc] using hzero
  | array size elem ih =>
    cases h with | array h =>
    generalize size.toNat = count at h
    induction count generalizing n code v with
    | zero => cases h
    | succ count ihcount =>
      cases h with
      | one _ h =>
        refine Computed.after (Computed.after (ih h) ?_) ?_ <;> exact .single trivial
      | @more _ _ count _ ty _ _ v w before code hbefore hk _ h =>
        subst hk
        have hand := Computed.after (.instr (.binary .and v w) .i1 trivial rfl) (ih h).guards
        have hright := @Computed.after _ _ [.extractValue r ty (count + 1)] _ _ hand
          (.single trivial)
        have hleft := @Computed.after _ _ [.extractValue l ty (count + 1)] _ _ hright
          (.single trivial)
        have hlast := hleft.after (ihcount hbefore).guards
        simpa [Nat.add_assoc, Nat.add_comm 2] using hlast
  | void | unknown => cases h

/-- Only shielded strings are compared. -/
theorem CompareCode.computed {op : RelOp} {t : DataType}
    (h : CompareCode strings n l r op t code v) : Computed strings n code [v] := by
  cases h with
  | integer | real => exact .instr _ _ trivial rfl
  | eq _ h => exact h.computed
  | neq _ h => exact Computed.after (.instr _ _ trivial rfl) h.computed.guards

theorem NegateCode.computed (h : NegateCode n v t code w) :
    Computed strings n code [w] := by
  cases h <;> exact .instr _ _ trivial rfl

/-! ## Calls -/

/-- A value that is printed goes to the host as it is. -/
theorem BuiltinCode.computed {name : String} {result : Option Operand}
    (hvalues : Computed strings n front values)
    (h : BuiltinCode strings (n + front.length) name values back result) :
    Computed strings n (front ++ back) result.toList := by
  cases h with
  | @print _ _ text v _ htext =>
    obtain ⟨index, -, rfl⟩ := htext
    refine ⟨hvalues.guards.concat ⟨?_, ?_⟩, List.forall_mem_nil _⟩
    · rintro _ _ ⟨⟩ hname
      exact absurd hname (by decide)
    · rintro _ _ ⟨⟩ -
      exact ⟨_, _, v, rfl, hvalues.direct v (List.mem_singleton_self v)⟩
  | @read _ _ ty text =>
    have hapart : Instr.Apart (.call Runtime.scanf.function.signature
      [text, .reg (n + front.length) (.ptr ty)]) := ⟨by decide, by decide⟩
    refine Computed.after (Computed.after (Computed.after (.instr _ _ trivial rfl)
      (.single hapart)) (.single trivial)) hvalues.guards
  | toReal | toInteger => exact Computed.after (.instr _ _ trivial rfl) hvalues.guards
  | @halt v =>
    have hapart : Instr.Apart (.call Runtime.exit.function.signature [v]) := ⟨by decide, by decide⟩
    exact Computed.after ⟨.single hapart, List.forall_mem_nil _⟩ hvalues.guards

variable {k : CodeSetting} (hk : k.Foreign)

include hk

theorem InvokeCode.computed {name : String} {sp : Subprogram}
    {result : Option Operand} (hname : k.names name = some (.proc sp))
    (hvalues : Computed k.tables.strings n front values)
    (h : InvokeCode k (n + front.length) sp values back result) :
    Computed k.tables.strings n (front ++ back) result.toList := by
  cases h with
  | builtin _ h => exact h.computed hvalues
  | @function _ callee hbuiltin hindex hcallee =>
    have hforeign := hk name sp _ _ hname hbuiltin hindex hcallee
    have hcall := Computed.after (.instr (.call callee values) callee.result
      ⟨hforeign .strcmp, hforeign .printf⟩ rfl) hvalues.guards
    split
    · exact ⟨hcall.guards, List.forall_mem_nil _⟩
    · exact hcall

/-! ## Expressions -/

set_option linter.unusedSectionVars false

mutual

theorem ExprCode.computed {e : Expr} {n : Nat} {code : List Instr} {v : Operand}
    (h : ExprCode k e n code v) : Computed k.tables.strings n code [v] := by
  cases h with
  | integer | real | boolean => exact .given nofun
  | string htext =>
    obtain ⟨_, -, rfl⟩ := htext
    exact .given nofun
  | paren h => exact h.computed
  | not h => exact Computed.after (.instr _ _ trivial rfl) h.computed.guards
  | designator _ _ h => exact Computed.after (.instr _ _ trivial rfl) h.guards
  | call h => exact h.computed
  | comparison _ hleft hright h =>
    exact Computed.after (h.computed.after hright.computed.guards) hleft.computed.guards
  | sum _ hfirst h => exact h.computed hfirst.computed
  | negated _ hfirst hsign h =>
    exact (h.computed hsign.computed).after hfirst.computed.guards
  | product _ hfirst h => exact h.computed hfirst.computed

theorem ChainCode.computed {t : DataType} {v w : Operand}
    {rest : List (BinOp × Expr)} {n : Nat} {front back : List Instr}
    (h : ChainCode k t v rest (n + front.length) back w)
    (hv : Computed k.tables.strings n front [v]) :
    Computed k.tables.strings n (front ++ back) [w] := by
  generalize hm : n + front.length = m at h
  cases h with
  | nil => rwa [List.append_nil]
  | @cons _ _ r _ op instr operand _ _ mid back hoperand _ hback =>
    subst hm
    have hnext := Computed.after (.instr (.binary instr v r) v.ty trivial rfl)
      (hoperand.computed.after hv.guards).guards
    have hchain : Computed k.tables.strings n (front ++ mid ++ [.binary instr v r] ++ back) [w] :=
      ChainCode.computed (by simpa [Nat.add_assoc] using hback)
        (by simpa [Nat.add_assoc] using hnext)
    simpa using hchain

theorem AddressCode.guards {d : Designator Expr} {n : Nat} {code : List Instr}
    {address : Operand} (h : AddressCode k d n code address) :
    Guards k.tables.strings (number n code) := by
  cases h with
  | intro _ _ h => exact h.guards

theorem SelectorsCode.guards {base address : Operand} {ty : Ty}
    {selectors : List Expr} {n : Nat} {code : List Instr}
    (h : SelectorsCode k base ty selectors n code address) :
    Guards k.tables.strings (number n code) := by
  cases h with
  | nil => exact .nil
  | cons hselector h =>
    rw [number_append, number_append]
    exact hselector.computed.guards.append (.append (.single trivial) h.guards)

theorem CallCode.computed {c : Call Expr} {n : Nat} {code : List Instr}
    {v : Option Operand} (h : CallCode k c n code v) :
    Computed k.tables.strings n code v.toList := by
  cases h with
  | intro hname hargs h => exact h.computed hk hname hargs.computed

theorem ArgsCode.computed {args : List Expr} {n : Nat} {code : List Instr}
    {values : List Operand} (h : ArgsCode k args n code values) :
    Computed k.tables.strings n code values := by
  cases h with
  | nil => exact ⟨.nil, List.forall_mem_nil _⟩
  | cons harg h => exact harg.computed.both h.computed

end

/-- All code of a statement is guarded. -/
theorem EventCode.guards {isMain : Bool} {event : Event} {items : List Item}
    (h : EventCode k isMain event n code items) : Guards k.tables.strings (number n code) := by
  cases h with
  | guard h | retValue _ h => exact (h.computed hk).guards
  | assign haddress hvalue =>
    rw [number_append, number_append]
    exact (haddress.guards hk).append ((hvalue.computed hk).guards.append (.single trivial))
  | call h => exact (h.computed hk).guards
  | ret => exact .nil

end

end Oberlet
