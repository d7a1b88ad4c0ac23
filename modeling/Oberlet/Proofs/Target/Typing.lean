import Oberlet.Proofs.Lowering.Emit

/-!
# Typing of the target language

In a function with several blocks, the stack slots of the first block may be used everywhere, and
other registers only further down in their own block.
-/

namespace Oberlet

open Llvm Lowering

/-- What the code of a function refers to besides its registers: string constants, functions,
variables of the module and parameters. Also the type of what it returns. -/
structure FunctionSetting where
  tables : Tables
  vars : List (String × Operand)
  params : List Ty
  result : Ty

namespace Llvm

/-- What the code of a function refers to, given the tables and the variables of its module. -/
def Function.setting (f : Function) (tables : Tables) (vars : List (String × Operand)) :
    FunctionSetting :=
  ⟨tables, vars, f.params.map (·.ty), f.result⟩

/-! ## Types -/

/-- The type of the values that a binary operation works on. -/
def BinaryOp.domain : BinaryOp → Ty
  | add | sub | mul | sdiv | srem => .i32
  | fadd | fsub | fmul | fdiv | frem => .double
  | and | or | xor => .i1

/-- Values of a type can be compared as integers are. -/
def Ty.Discrete : Ty → Prop
  | i1 | i8 | i32 | ptr _ => True
  | double | void | array _ _ => False

/-- A function can be called with arguments of given types: those of its parameters, and any others
behind them if it is variadic. -/
def Signature.Accepts (f : Signature) (tys : List Ty) : Prop :=
  if f.variadic then f.params <+: tys else tys = f.params

/-- The operands of an instruction have the types that it asks for. -/
def Instr.WellTyped : Instr → Prop
  | alloca _ => True
  | load content address => address.ty = .ptr content
  | store value address => address.ty = .ptr value.ty
  | binary op left right => left.ty = op.domain ∧ right.ty = op.domain
  | fneg operand => operand.ty = .double
  | icmp _ left right => left.ty = right.ty ∧ left.ty.Discrete
  | fcmp _ left right => left.ty = .double ∧ right.ty = .double
  | select cond left right => cond.ty = .i1 ∧ left.ty = right.ty
  | extractValue aggregate elem index => ∃ size, aggregate.ty = .array size elem ∧ index < size
  | elementPtr size elem address index => address.ty = .ptr (.array size elem) ∧ index.ty = .i32
  | sitofp operand => operand.ty = .i32
  | fptosi operand => operand.ty = .double
  | call callee args => callee.Accepts (args.map (·.ty))

/-- A block of a function with a given result can end so. -/
def Terminator.WellTyped (result : Ty) : Terminator → Prop
  | br _ => True
  | condBr cond _ _ => cond.ty = .i1
  | ret none => result = .void
  | ret (some value) => value.ty = result ∧ result ≠ .void
  | unreachable => True

def Terminator.operands : Terminator → List Operand
  | condBr cond _ _ => [cond]
  | ret (some value) => [value]
  | _ => []

def Terminator.targets : Terminator → List Nat
  | br target => [target]
  | condBr _ ifTrue ifFalse => [ifTrue, ifFalse]
  | _ => []

/-! ## Operands -/

/-- A constant. If it is a text, there is a string constant with that number and size. -/
def Operand.Constant (strings : List String) : Operand → Prop
  | text index size => ∃ content, strings[index]? = some content ∧ size = content.utf8ByteSize + 1
  | int _ | bool _ | real _ | null | zero _ => True
  | global _ _ | param _ _ | reg _ _ => False

/-- An operand that is no register refers to something that is there and has its type. -/
def Operand.Known (Γ : FunctionSetting) : Operand → Prop
  | global name content => ∃ init, (name, init) ∈ Γ.vars ∧ init.ty = content
  | param index ty => Γ.params[index]? = some ty
  | v => v.Constant Γ.tables.strings

/-- An operand is the register of one of some lines, with its type. -/
def Operand.Among (lines : List Line) (v : Operand) : Prop :=
  ∃ line ∈ lines, v = .reg line.reg line.instr.ty

variable {v : Operand}

theorem Operand.Constant.known {Γ : FunctionSetting} (h : v.Constant Γ.tables.strings) :
    v.Known Γ := by
  cases v with
  | global | param => exact h.elim
  | _ => exact h

theorem Operand.Among.mono {lines lines' : List Line} (h : v.Among lines)
    (hsubset : lines ⊆ lines') : v.Among lines' := by
  obtain ⟨line, hline, rfl⟩ := h
  exact ⟨line, hsubset hline, rfl⟩

end Llvm

/-! ## Straight-line code -/

/-- Instructions from register `n` on are well typed, and use only what `P` says and the registers
of instructions before. -/
def Closed : (Operand → Prop) → Nat → List Instr → Prop
  | _, _, [] => True
  | P, n, instr :: rest => instr.WellTyped ∧ (∀ v ∈ instr.operands, P v) ∧
      Closed (fun v => P v ∨ v = .reg n instr.ty) (n + 1) rest

/-- What may be used behind code. -/
def Behind (P : Operand → Prop) (n : Nat) (code : List Instr) (v : Operand) : Prop :=
  P v ∨ v.Among (number n code)

section

variable {P Q : Operand → Prop} {n : Nat} {front back code : List Instr} {v : Operand}

theorem Behind.of_last (code : List Instr) {instr : Instr} :
    Behind P n (code ++ [instr]) (.reg (n + code.length) instr.ty) := by
  refine .inr ⟨⟨n + code.length, instr⟩, ?_, rfl⟩
  rw [number_append]
  exact List.mem_append_right _ (List.mem_singleton_self _)

theorem Behind.append (h : Behind (Behind P n front) (n + front.length) back v) :
    Behind P n (front ++ back) v := by
  rw [Behind, number_append]
  rcases h with (h | h) | h
  · exact .inl h
  · exact .inr (h.mono (List.subset_append_left _ _))
  · exact .inr (h.mono (List.subset_append_right _ _))

theorem Closed.mono (h : Closed P n code) (hPQ : ∀ v, P v → Q v) : Closed Q n code := by
  induction code generalizing P Q n with
  | nil => trivial
  | cons instr rest ih =>
    exact ⟨h.1, fun v hv => hPQ v (h.2.1 v hv), ih h.2.2 fun v hv => hv.imp_left (hPQ v)⟩

/-- Code may use what the code before it computes. -/
theorem Closed.append (hfront : Closed P n front)
    (hback : Closed (Behind P n front) (n + front.length) back) : Closed P n (front ++ back) := by
  induction front generalizing P n with
  | nil => exact hback.mono fun v hv => hv.resolve_right (by simp [Operand.Among, number])
  | cons instr rest ih =>
    refine ⟨hfront.1, hfront.2.1, ih hfront.2.2 ?_⟩
    rw [List.length_cons, Nat.add_comm rest.length, ← Nat.add_assoc] at hback
    refine hback.mono fun v hv => ?_
    rcases hv with hv | ⟨line, hline, rfl⟩
    · exact .inl (.inl hv)
    · rcases List.mem_cons.mp hline with rfl | hline
      · exact .inl (.inr rfl)
      · exact .inr ⟨line, hline, rfl⟩

theorem Closed.single {instr : Instr} (htyped : instr.WellTyped)
    (hoperands : ∀ v ∈ instr.operands, P v) : Closed P n [instr] :=
  ⟨htyped, hoperands, trivial⟩

/-- Code is closed, and leaves a value of a type in an operand that may be used behind it. -/
structure Yields (P : Operand → Prop) (n : Nat) (code : List Instr) (v : Operand) (t : DataType) :
    Prop where
  closed : Closed P n code
  behind : Behind P n code v
  type : t.target = .ok v.ty

variable {t : DataType}

theorem Yields.given (hv : P v) (ht : t.target = .ok v.ty) : Yields P n [] v t :=
  ⟨trivial, .inl hv, ht⟩

theorem Yields.instr (instr : Instr) (htyped : instr.WellTyped)
    (hoperands : ∀ v ∈ instr.operands, P v) (ht : t.target = .ok instr.ty) :
    Yields P n [instr] (.reg n instr.ty) t :=
  ⟨.single htyped hoperands, .of_last [], ht⟩

theorem Yields.after (h : Yields (Behind P n front) (n + front.length) back v t)
    (hfront : Closed P n front) : Yields P n (front ++ back) v t :=
  ⟨hfront.append h.closed, h.behind.append, h.type⟩

end

/-! ## Blocks -/

/-- An instruction is well typed, and if it calls a function, that is one of the module. -/
structure Llvm.Instr.Valid (Γ : FunctionSetting) (instr : Instr) : Prop where
  typed : instr.WellTyped
  callee : ∀ callee args, instr = .call callee args → callee ∈ Γ.tables.signatures

/-- An operand may be used where the registers of some lines are known. -/
def Llvm.Operand.Usable (Γ : FunctionSetting) (lines : List Line) (v : Operand) : Prop :=
  v.Known Γ ∨ v.Among lines

theorem Llvm.Operand.Usable.mono {Γ : FunctionSetting} {lines lines' : List Line} {v : Operand}
    (h : v.Usable Γ lines) (hsubset : lines ⊆ lines') : v.Usable Γ lines' :=
  h.imp_right fun h => h.mono hsubset

def LinesValid (Γ : FunctionSetting) : List Line → List Line → Prop
  | _, [] => True
  | before, line :: rest => line.instr.Valid Γ ∧ (∀ v ∈ line.instr.operands, v.Usable Γ before) ∧
      LinesValid Γ (before ++ [line]) rest

/-- A block is valid if `outer` are the lines that it sees of another. -/
structure Llvm.Block.Valid (Γ : FunctionSetting) (outer : List Line) (b : Block) : Prop where
  lines : LinesValid Γ outer b.lines
  term : ∀ term, b.term = some term → term.WellTyped Γ.result ∧
    ∀ v ∈ term.operands, v.Usable Γ (outer ++ b.lines)

/-- The blocks of a function are valid. All of them see the stack slots of the first. -/
def BlocksValid (Γ : FunctionSetting) : List Block → Prop
  | [] => True
  | entry :: rest => entry.Valid Γ [] ∧ ∀ b ∈ rest, b.Valid Γ (slotsOf entry.lines)

section

variable {Γ : FunctionSetting} {before before' front back lines : List Line} {P : Operand → Prop}
  {n : Nat} {code : List Instr}

theorem LinesValid.mono (h : LinesValid Γ before lines) (hsubset : before ⊆ before') :
    LinesValid Γ before' lines := by
  induction lines generalizing before before' with
  | nil => trivial
  | cons line rest ih =>
    refine ⟨h.1, fun v hv => (h.2.1 v hv).mono hsubset, ih h.2.2 ?_⟩
    exact List.append_subset.mpr ⟨List.Subset.trans hsubset (List.subset_append_left _ _),
      List.subset_append_right _ _⟩

theorem linesValid_append : LinesValid Γ before (front ++ back) ↔
    LinesValid Γ before front ∧ LinesValid Γ (before ++ front) back := by
  induction front generalizing before with
  | nil => simp [LinesValid]
  | cons line rest ih => simp [LinesValid, ih, and_assoc]

theorem Llvm.Block.Valid.mono {b : Block} (h : b.Valid Γ before) (hsubset : before ⊆ before') :
    b.Valid Γ before' where
  lines := h.lines.mono hsubset
  term term hterm := by
    obtain ⟨htyped, hoperands⟩ := h.term term hterm
    refine ⟨htyped, fun v hv => (hoperands v hv).mono ?_⟩
    exact List.append_subset.mpr ⟨List.Subset.trans hsubset (List.subset_append_left _ _),
      List.subset_append_right _ _⟩

/-- Closed code is valid where its operands can be used. -/
theorem Closed.linesValid (h : Closed P n code)
    (hcallees : ∀ callee args, .call callee args ∈ code → callee ∈ Γ.tables.signatures)
    (hP : ∀ v, P v → v.Usable Γ before) : LinesValid Γ before (number n code) := by
  induction code generalizing P n before with
  | nil => trivial
  | cons instr rest ih =>
    refine ⟨⟨h.1, ?_⟩, fun v hv => hP v (h.2.1 v hv), ih h.2.2 ?_ fun v hv => ?_⟩
    · rintro callee args rfl
      exact hcallees callee args List.mem_cons_self
    · exact fun callee args hcall => hcallees callee args (List.mem_cons_of_mem _ hcall)
    · rcases hv with hv | rfl
      · exact (hP v hv).mono (List.subset_append_left _ _)
      · exact .inr ⟨⟨n, instr⟩, by simp, rfl⟩

theorem Closed.linesValid_work (h : Closed P n code)
    (hcallees : ∀ callee args, .call callee args ∈ code → callee ∈ Γ.tables.signatures)
    (hP : ∀ v, P v → v.Usable Γ before) (hslots : slotsOf (number n code) ⊆ before) :
    LinesValid Γ before (workOf (number n code)) := by
  induction code generalizing P n before with
  | nil => trivial
  | cons instr rest ih =>
    have hrest (callee : Signature) (args : List Operand) (hcall : .call callee args ∈ rest) :=
      hcallees callee args (List.mem_cons_of_mem _ hcall)
    have hnext : slotsOf (number (n + 1) rest) ⊆ before := by
      intro line hline
      refine hslots (List.mem_filter.mpr ⟨List.mem_cons_of_mem _ ?_, (List.mem_filter.mp hline).2⟩)
      exact List.mem_of_mem_filter hline
    cases hslot : instr.isSlot with
    | true =>
      have hwork : workOf (number n (instr :: rest)) = workOf (number (n + 1) rest) := by
        simp [number, workOf, hslot]
      rw [hwork]
      refine ih h.2.2 hrest (fun v hv => ?_) hnext
      rcases hv with hv | rfl
      · exact hP v hv
      · exact .inr ⟨⟨n, instr⟩, hslots (by simp [number, slotsOf, hslot]), rfl⟩
    | false =>
      have hwork : workOf (number n (instr :: rest)) =
          ⟨n, instr⟩ :: workOf (number (n + 1) rest) := by
        simp [number, workOf, hslot]
      rw [hwork]
      refine ⟨⟨h.1, ?_⟩, fun v hv => hP v (h.2.1 v hv), ih h.2.2 hrest (fun v hv => ?_)
        (List.Subset.trans hnext (List.subset_append_left _ _))⟩
      · rintro callee args rfl
        exact hcallees callee args List.mem_cons_self
      · rcases hv with hv | rfl
        · exact (hP v hv).mono (List.subset_append_left _ _)
        · exact .inr ⟨⟨n, instr⟩, by simp, rfl⟩

end

end Oberlet
