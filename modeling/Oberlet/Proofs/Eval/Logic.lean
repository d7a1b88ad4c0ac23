import Oberlet.Proofs.Eval.Machine
import Oberlet.Proofs.Lowering.Code

/-!
# Code that does what an evaluation does

The code of an expression is compared with its evaluation step by step. There is a rule for each way
in which actions are put together, and one for each kind of instruction. The two worlds differ only
in stack slots from a limit on, which code uses on its own, and in the loads from them.
-/

namespace Oberlet

open Llvm Lowering Eval

namespace Eval

variable {π : Primitives} {σ α β : Type}

/-! ## Worlds -/

/-- A stack slot that a program does not know of has a register from a limit on. -/
def Root.visible (limit : Nat) : Root → Bool
  | .global _ => true
  | .slot reg => reg < limit

/-- Loads of variables and calls are seen, loads of other stack slots are not. -/
def Access.visible (limit : Nat) : Access π → Bool
  | .load address => address.root.visible limit
  | _ => true

theorem World.get_set (w : World π σ) (v : Value π) (root other : Root) :
    (w.set v root).get other = if other = root then v else w.get other := by
  cases root <;> cases other <;> simp [World.set, World.get]

/-- The world of the machine looks like that of the evaluation. -/
structure Seen (limit : Nat) (w w' : World π σ) : Prop where
  globals : w'.globals = w.globals
  slots : ∀ i < limit, w'.slots i = w.slots i
  outside : w'.outside = w.outside
  trace : w.trace = w'.trace.filter (·.visible limit)

namespace Seen

variable {limit : Nat} {w w' : World π σ}

theorem get (h : Seen limit w w') {root : Root} (hroot : root.visible limit = true) :
    w'.get root = w.get root := by
  cases root with
  | global name => exact congrFun h.globals name
  | slot reg => exact h.slots reg (of_decide_eq_true hroot)

theorem log (h : Seen limit w w') {access : Access π} (haccess : access.visible limit = true) :
    Seen limit (w.log access) (w'.log access) := by
  refine ⟨h.globals, h.slots, h.outside, ?_⟩
  simp [World.log, List.filter_append, haccess, h.trace]

theorem log_right (h : Seen limit w w') {access : Access π}
    (haccess : access.visible limit = false) : Seen limit w (w'.log access) := by
  refine ⟨h.globals, h.slots, h.outside, ?_⟩
  simp [World.log, List.filter_append, haccess, h.trace]

theorem set (h : Seen limit w w') (v : Value π) (root : Root) :
    Seen limit (w.set v root) (w'.set v root) := by
  cases root with
  | global name =>
    refine ⟨?_, h.slots, h.outside, h.trace⟩
    simp only [World.set, h.globals]
  | slot reg =>
    refine ⟨h.globals, fun i hi => ?_, h.outside, h.trace⟩
    simp only [World.set, h.slots i hi]

theorem set_right (h : Seen limit w w') (v : Value π) {root : Root}
    (hroot : root.visible limit = false) : Seen limit w (w'.set v root) := by
  cases root with
  | global name => cases hroot
  | slot reg =>
    refine ⟨h.globals, fun i hi => ?_, h.outside, h.trace⟩
    have hreg : ¬ reg < limit := of_decide_eq_false hroot
    have hne : i ≠ reg := fun heq => hreg (heq ▸ hi)
    simp only [World.set, if_neg hne, h.slots i hi]

end Seen

/-- The machine comes to an end of which `Q` holds, or does not return as the evaluation does not.
An evaluation that is undefined says nothing about the machine, but it is never one of operands of
the wrong types. -/
def Agrees (limit : Nat) (x : Except (Halt π σ) (α × World π σ))
    (y : Except (Halt π σ) (β × World π σ)) (Q : α → World π σ → β → World π σ → Prop) : Prop :=
  match x with
  | .ok (a, w) => ∃ b w', y = .ok (b, w') ∧ Q a w b w'
  | .error (.left w) => ∃ w', y = .error (.left w') ∧ Seen limit w w'
  | .error (.trap reason) => reason ≠ .illTyped

/-- Actions that agree can be put together. -/
theorem Agrees.bind {α' β' : Type} {limit : Nat} {m : Action π σ α} {f : α → Action π σ α'}
    {m' : Action π σ β} {f' : β → Action π σ β'} {w w' : World π σ}
    {Q : α → World π σ → β → World π σ → Prop} {R : α' → World π σ → β' → World π σ → Prop}
    (hm : Agrees limit (m w) (m' w') Q)
    (hf : ∀ a w₁ b w₁', Q a w₁ b w₁' → Agrees limit (f a w₁) (f' b w₁') R) :
    Agrees limit ((m >>= f) w) ((m' >>= f') w') R := by
  have hbind {γ δ : Type} (m : Action π σ γ) (f : γ → Action π σ δ) (w : World π σ) :
      (m >>= f) w = Except.bind (m w) fun r => f r.1 r.2 := rfl
  rw [hbind, hbind]
  cases hx : m w with
  | ok r =>
    rw [hx] at hm
    obtain ⟨b, w₁', hy, hQ⟩ := hm
    rw [hy]
    exact hf _ _ _ _ hQ
  | error stop =>
    rw [hx] at hm
    cases stop with
    | trap reason => exact hm
    | left w₁ =>
      obtain ⟨w₁', hy, hseen⟩ := hm
      rw [hy]
      exact ⟨w₁', rfl, hseen⟩

theorem Agrees.imp {limit : Nat} {x : Except (Halt π σ) (α × World π σ)}
    {y : Except (Halt π σ) (β × World π σ)} {Q R : α → World π σ → β → World π σ → Prop}
    (h : Agrees limit x y Q) (himp : ∀ a w b w', Q a w b w' → R a w b w') : Agrees limit x y R := by
  match x with
  | .ok (a, w) =>
    obtain ⟨b, w', hy, hQ⟩ := h
    exact ⟨b, w', hy, himp _ _ _ _ hQ⟩
  | .error (.left w) => exact h
  | .error (.trap reason) => exact h

end Eval

/-! ## Actions -/

variable {π : Primitives} {σ α β : Type} {a : Address} {n : Nat}

theorem Eval.Action.run_map {m : Action π σ α} {f : α → β} {w w' : World π σ} {a : α}
    (h : m w = .ok (a, w')) : (f <$> m) w = .ok (f a, w') := by
  change (Except.bind (m w) fun r => .ok (f r.1, r.2)) = _
  rw [h]
  rfl

theorem Eval.Action.run_get_bind {w : World π σ} (f : World π σ → Action π σ α) :
    (get >>= f) w = f w w := rfl

theorem Eval.Action.run_load {w : World π σ} {v : Value π}
    (h : (w.get a.root).part? a.path = some v) :
    (Action.load a : Action π σ (Value π)) w = .ok (v, w.log (.load a)) := by
  rw [Action.load, run_get_bind, h]
  rfl

theorem Eval.Action.run_store {w : World π σ} {v whole : Value π}
    (h : (w.get a.root).replace? a.path v = some whole) :
    (Action.store a v : Action π σ Unit) w = .ok ((), w.set whole a.root) := by
  rw [Action.store, run_get_bind, h]
  rfl

/-! ## Types -/

namespace Eval.Reference

/-- The variables that are seen hold values of their types. -/
def Typed (r : Reference π σ) (w : World π σ) : Prop :=
  ∀ name v root, r.names name = some (.var v) → r.place v.name = some root →
    (w.get root).Fits v.type

theorem Typed.log {r : Reference π σ} {w : World π σ} (h : r.Typed w) (access : Access π) :
    r.Typed (w.log access) := by
  intro name v root hname hroot
  have hget : (w.log access).get root = w.get root := by cases root <;> rfl
  rw [hget]
  exact h name v root hname hroot

def Holds (r : Reference π σ) (a : Address) (t : DataType) : Prop :=
  ∀ w, r.Typed w → ∃ v, (w.get a.root).part? a.path = some v ∧ v.Fits t

/-- A value of the right type can be stored. -/
theorem Holds.store {r : Reference π σ} {a : Address} {t : DataType} (h : r.Holds a t)
    {v : Value π} (hv : v.Fits t) {w : World π σ} (hw : r.Typed w) :
    ∃ whole, (w.get a.root).replace? a.path v = some whole ∧ r.Typed (w.set whole a.root) := by
  obtain ⟨u, hpart, hu⟩ := h w hw
  obtain ⟨whole, hreplace, hwhole⟩ := Value.exists_replace? hpart fun t' ht' => hu.same hv ht'
  refine ⟨whole, hreplace, fun name x root hname hroot => ?_⟩
  rw [World.get_set]
  split
  · rename_i heq
    subst heq
    exact hwhole _ (hw name x _ hname hroot)
  · exact hw name x root hname hroot

/-- The oracle respects types: functions that are called with arguments of the right types return
results of theirs, and leave values of the right types in globals. -/
structure Respected (r : Reference π σ) : Prop where
  call : ∀ name s, r.names name = some (.proc s) → s.builtin = false →
    ∀ args globals outside result globals' outside',
      List.Forall₂ (fun a (v : Variable) => Value.Fits a v.type) args s.params →
      r.oracle.call (r.callee s.name) args globals outside = some (result, globals', outside') →
      (s.result ≠ .void → ∃ value, result = some value ∧ value.Fits s.result) ∧
      ∀ name v global, r.names name = some (.var v) → r.place v.name = some (.global global) →
        (globals global).Fits v.type → (globals' global).Fits v.type
  readInteger : ∀ outside, (r.oracle.read "%d" outside).1.Fits .integer
  readReal : ∀ outside, (r.oracle.read "%lf" outside).1.Fits .real

end Eval.Reference

/-! ## Code and actions -/

/-- Whether something holds of registers is decided by the first `n`. -/
def Eval.Stable {π : Primitives} (n : Nat) (P : Regs π → Prop) : Prop :=
  ∀ regs regs' : Regs π, (∀ i < n, regs' i = regs i) → P regs → P regs'

theorem Eval.Stable.and {P Q : Regs π → Prop} (hP : Stable n P) (hQ : Stable n Q) :
    Stable n fun regs => P regs ∧ Q regs :=
  fun regs regs' hregs h => ⟨hP regs regs' hregs h.1, hQ regs regs' hregs h.2⟩

theorem Eval.Stable.mono {m : Nat} {P : Regs π → Prop} (hP : Stable n P) (hle : n ≤ m) :
    Stable m P :=
  fun regs regs' hregs => hP regs regs' fun i hi => hregs i (Nat.lt_of_lt_of_le hi hle)

/-- The variable that an address of storage belongs to. -/
def Llvm.Operand.root? : Operand → Option Root
  | global name _ => some (.global name)
  | reg id _ => some (.slot id)
  | _ => none

/-- Where the variable of a name is kept. -/
def CodeSetting.place (k : CodeSetting) (name : String) : Option Root :=
  match k.binding name with
  | .ok (.storage address _) => address.root?
  | _ => none

/-- What the names of a body stand for when its code is executed. -/
def CodeSetting.reference {π : Primitives} {σ : Type} (k : CodeSetting) (moduleName : String)
    (oracle : Oracle π σ) : Reference π σ :=
  ⟨k.names, k.place, functionName moduleName, oracle⟩

/-- What the code of a body is executed with. Stack slots from `limit` on are not variables. Unless
code is in the first block of its function, they are made apart from it. -/
structure Context (π : Primitives) (σ : Type) where
  setting : CodeSetting
  moduleName : String
  limit : Nat
  oracle : Oracle π σ
  apart : Bool

namespace Context

abbrev reference (c : Context π σ) : Reference π σ := c.setting.reference c.moduleName c.oracle

def strings (c : Context π σ) : List String := c.setting.tables.strings

def lines (c : Context π σ) (n : Nat) (code : List Instr) : List Line :=
  if c.apart then workOf (number n code) else number n code

theorem lines_nil (c : Context π σ) (n : Nat) : c.lines n [] = [] := by
  rw [lines]
  split <;> rfl

theorem lines_append (c : Context π σ) (n : Nat) (front back : List Instr) :
    c.lines n (front ++ back) = c.lines n front ++ c.lines (n + front.length) back := by
  rw [lines, lines, lines, number_append]
  split
  · exact workOf_append _ _
  · rfl

theorem lines_singleton (c : Context π σ) (n : Nat) {instr : Instr} (h : instr.isSlot = false) :
    c.lines n [instr] = [⟨n, instr⟩] := by
  rw [lines]
  split <;> simp [number, workOf, h]

/-- Code can be executed: the stack slots of variables have been made, and so have those that the
code uses on its own without making them. -/
structure Before (c : Context π σ) (n : Nat) (code : List Instr) (regs : Regs π)
    (w w' : World π σ) : Prop where
  limit : c.limit ≤ n
  slots : ∀ name v reg, c.setting.names name = some (.var v) →
    c.setting.place v.name = some (.slot reg) →
    reg < c.limit ∧ regs reg = some (.address ⟨.slot reg, []⟩)
  scratch : c.apart = true → ∀ line ∈ slotsOf (number n code),
    regs line.reg = some (.address ⟨.slot line.reg, []⟩)
  seen : Seen c.limit w w'
  typed : c.reference.Typed w

/-- Code has been executed: it has only changed registers of its own. -/
structure After (c : Context π σ) (n : Nat) (code : List Instr) (regs : Regs π) (w : World π σ)
    (regs' : Regs π) (w' : World π σ) : Prop where
  kept : ∀ i, i < n ∨ n + code.length ≤ i → regs' i = regs i
  seen : Seen c.limit w w'
  typed : c.reference.Typed w

variable {c : Context π σ} {front back code : List Instr} {regs regs₁ regs₂ : Regs π}
  {w w' w₁ w₁' w₂ w₂' : World π σ}

theorem Before.left (h : c.Before n (front ++ back) regs w w') : c.Before n front regs w w' := by
  refine ⟨h.limit, h.slots, fun hapart line hline => h.scratch hapart line ?_, h.seen, h.typed⟩
  rw [number_append, slotsOf_append]
  exact List.mem_append_left _ hline

theorem number_reg {line : Line} (h : line ∈ number n code) :
    n ≤ line.reg := by
  induction code generalizing n with
  | nil => cases h
  | cons instr rest ih =>
    rcases List.mem_cons.mp h with rfl | h
    · exact Nat.le_refl _
    · exact Nat.le_of_succ_le (ih h)

theorem Before.right (h : c.Before n (front ++ back) regs w w')
    (h₁ : c.After n front regs w₁ regs₁ w₁') :
    c.Before (n + front.length) back regs₁ w₁ w₁' := by
  refine ⟨Nat.le_trans h.limit (Nat.le_add_right _ _), ?_, ?_, h₁.seen, h₁.typed⟩
  · intro name v reg hname hplace
    obtain ⟨hlimit, hreg⟩ := h.slots name v reg hname hplace
    refine ⟨hlimit, ?_⟩
    rw [h₁.kept reg (.inl (Nat.lt_of_lt_of_le hlimit h.limit))]
    exact hreg
  · intro hapart line hline
    rw [h₁.kept line.reg (.inr (number_reg (List.mem_of_mem_filter hline)))]
    refine h.scratch hapart line ?_
    rw [number_append, slotsOf_append]
    exact List.mem_append_right _ hline

theorem After.trans (h : c.After n front regs w₁ regs₁ w₁')
    (h' : c.After (n + front.length) back regs₁ w₂ regs₂ w₂') :
    c.After n (front ++ back) regs w₂ regs₂ w₂' := by
  refine ⟨fun i hi => ?_, h'.seen, h'.typed⟩
  rw [List.length_append] at hi
  rw [h'.kept i (by omega), h.kept i (by omega)]

/-- From registers in which `P` holds, code does what an action does, and then `Q` holds of the
value of the action and the registers. -/
def Executes (c : Context π σ) (P : Regs π → Prop) (n : Nat) (code : List Instr)
    (m : Action π σ α) (Q : α → Regs π → Prop) : Prop :=
  ∀ regs w w', P regs → c.Before n code regs w w' →
    Agrees c.limit (m w) (execute c.oracle c.strings (c.lines n code) regs w')
      fun a w₁ regs₁ w₁' => c.After n code regs w₁ regs₁ w₁' ∧ Q a regs₁

/-- From registers in which `P` holds, code without effects leads to registers in which `Q` does. -/
def Computes (c : Context π σ) (P : Regs π → Prop) (n : Nat) (code : List Instr)
    (Q : Regs π → Prop) : Prop :=
  c.Executes P n code (pure ()) fun _ => Q

end Context

theorem execute_append (o : Oracle π σ) (strings : List String) (front back : List Line)
    (regs : Regs π) :
    execute o strings (front ++ back) regs = (do
      let regs ← execute o strings front regs
      execute o strings back regs) := by
  induction front generalizing regs with
  | nil => rfl
  | cons line rest ih =>
    rw [List.cons_append, execute, execute, bind_assoc]
    simp only [ih]

namespace Context.Executes

variable {c : Context π σ} {P P' F : Regs π → Prop} {code front back : List Instr}
  {m : Action π σ α} {Q Q' : α → Regs π → Prop}

theorem pure {a : α} (h : ∀ regs, P regs → Q a regs) : c.Executes P n [] (Pure.pure a) Q := by
  intro regs w w' hP hbefore
  rw [c.lines_nil]
  exact ⟨regs, w', rfl, ⟨fun _ _ => rfl, hbefore.seen, hbefore.typed⟩, h regs hP⟩

/-- One code after the other does what the actions do. -/
theorem bind {f : α → Action π σ β} {R : β → Regs π → Prop} (hm : c.Executes P n front m Q)
    (hf : ∀ a, c.Executes (Q a) (n + front.length) back (f a) R) :
    c.Executes P n (front ++ back) (m >>= f) R := by
  intro regs w w' hP hbefore
  rw [c.lines_append, execute_append]
  refine (hm regs w w' hP hbefore.left).bind fun a w₁ regs₁ w₁' ⟨hafter, hQ⟩ => ?_
  refine (hf a regs₁ w₁ w₁' hQ (hbefore.right hafter)).imp fun b w₂ regs₂ w₂' ⟨hafter', hR⟩ => ?_
  exact ⟨hafter.trans hafter', hR⟩

theorem imp (h : c.Executes P n code m Q) (hpre : ∀ regs, P' regs → P regs)
    (hpost : ∀ a regs, Q a regs → Q' a regs) : c.Executes P' n code m Q' := by
  intro regs w w' hP hbefore
  exact (h regs w w' (hpre regs hP) hbefore).imp fun a w₁ regs₁ w₁' ⟨hafter, hQ⟩ =>
    ⟨hafter, hpost a regs₁ hQ⟩

/-- What depends on earlier registers only stays true. -/
theorem keep (h : c.Executes P n code m Q) (hF : Stable n F) (hP : ∀ regs, F regs → P regs) :
    c.Executes F n code m (fun a regs => Q a regs ∧ F regs) := by
  intro regs w w' hregs hbefore
  refine (h regs w w' (hP regs hregs) hbefore).imp fun a w₁ regs₁ w₁' ⟨hafter, hQ⟩ =>
    ⟨hafter, hQ, ?_⟩
  exact hF regs regs₁ (fun i hi => hafter.kept i (.inl hi)) hregs

theorem trap {reason : Trap} (h : reason ≠ .illTyped) :
    c.Executes P n code (Action.trap reason) Q :=
  fun _ _ _ _ _ => h

theorem map {g : α → β} {R : β → Regs π → Prop}
    (h : c.Executes P n code m fun a regs => R (g a) regs) :
    c.Executes P n code (do return g (← m)) R := by
  have hreturn (a : α) : c.Executes (fun regs => R (g a) regs) (n + code.length) []
      (Pure.pure (g a)) R := pure fun _ h => h
  have := h.bind hreturn
  rwa [List.append_nil] at this

end Context.Executes

namespace Context.Computes

variable {c : Context π σ} {P P' F Q Q' R : Regs π → Prop} {code front back : List Instr}
  {m : Action π σ α} {A : α → Regs π → Prop}

theorem andThen (h : c.Computes P n front Q) (hm : c.Executes Q (n + front.length) back m A) :
    c.Executes P n (front ++ back) m A :=
  h.bind fun _ => hm

theorem seq (h : c.Computes P n front Q) (h' : c.Computes Q (n + front.length) back R) :
    c.Computes P n (front ++ back) R :=
  h.andThen h'

theorem returns {a : α} (h : c.Computes P n code Q) (hpost : ∀ regs, Q regs → A a regs) :
    c.Executes P n code (pure a) A := by
  have := h.andThen (.pure hpost)
  rwa [List.append_nil] at this

theorem imp (h : c.Computes P n code Q) (hpre : ∀ regs, P' regs → P regs)
    (hpost : ∀ regs, Q regs → Q' regs) : c.Computes P' n code Q' :=
  Executes.imp h hpre fun _ => hpost

theorem keep (h : c.Computes P n code Q) (hF : Stable n F) (hP : ∀ regs, F regs → P regs) :
    c.Computes F n code (fun regs => Q regs ∧ F regs) :=
  Executes.keep h hF hP

/-- Two values can be computed next to each other. -/
theorem both (h : c.Computes P n front Q) (h' : c.Computes P (n + front.length) back R)
    (hP : Stable n P) (hQ : Stable (n + front.length) Q) :
    c.Computes P n (front ++ back) (fun regs => Q regs ∧ R regs) := by
  have hfirst := h.keep hP fun _ h => h
  have hsecond := h'.keep (hQ.and (hP.mono (Nat.le_add_right n front.length))) fun _ h => h.2
  exact hfirst.seq (hsecond.imp (fun _ h => h) fun _ h => ⟨h.2.1, h.1⟩)

end Context.Computes

/-! ## Operands -/

namespace Llvm.Operand

variable {strings : List String} {regs regs' : Regs π} {v : Operand} {a : Value π}
  {location : Address} {m : Nat}

def Is (strings : List String) (v : Operand) (a : Value π) (regs : Regs π) : Prop :=
  v.datum? strings regs = some (.value a)

def IsAt (strings : List String) (v : Operand) (location : Address) (regs : Regs π) : Prop :=
  v.datum? strings regs = some (.address location)

/-- An operand that is a register is one of the first `n`. -/
def Below (n : Nat) : Operand → Prop
  | reg id _ => id < n
  | _ => True

theorem Below.mono (h : v.Below n) (hle : n ≤ m) : v.Below m := by
  cases v with
  | reg id ty => exact Nat.lt_of_lt_of_le h hle
  | _ => trivial

theorem Below.datum? (h : v.Below n) (hregs : ∀ i < n, regs' i = regs i) :
    v.datum? strings regs' = v.datum? strings regs := by
  cases v with
  | reg id ty => exact hregs id h
  | _ => rfl

theorem Below.stable_is (h : v.Below n) : Stable n (v.Is strings a) :=
  fun _ _ hregs hv => (h.datum? hregs).trans hv

theorem Below.stable_isAt (h : v.Below n) : Stable n (v.IsAt (π := π) strings location) :=
  fun _ _ hregs hv => (h.datum? hregs).trans hv

def Are (strings : List String) (l r : Operand) (a b : Value π) (regs : Regs π) : Prop :=
  l.Is strings a regs ∧ r.Is strings b regs

theorem Below.stable_are {l r : Operand} {b : Value π} (hl : l.Below n) (hr : r.Below n) :
    Stable n (Are strings l r a b) :=
  hl.stable_is.and hr.stable_is

theorem Is.value (h : v.Is strings a regs) :
    v.value strings regs = (Pure.pure a : Action π σ (Value π)) := by
  rw [Operand.value, h]

theorem IsAt.address (h : v.IsAt strings location regs) :
    v.address strings regs = (Pure.pure location : Action π σ Address) := by
  rw [Operand.address, h]

theorem is_put (ty : Ty) (regs : Regs π) (n : Nat) (a : Value π) :
    (Operand.reg n ty).Is strings a (regs.put n (some (.value a))) := by
  simp [Is, Operand.datum?, Regs.put]

theorem isAt_put (ty : Ty) (regs : Regs π) (n : Nat) (location : Address) :
    (Operand.reg n ty).IsAt strings location (regs.put n (some (.address location))) := by
  simp [IsAt, Operand.datum?, Regs.put]

end Llvm.Operand

/-! ## Instructions -/

namespace Context

variable {c : Context π σ} {P : Regs π → Prop} {instr : Instr} {x : Except Trap α}

theorem After.put (datum : Option (Datum π)) (regs : Regs π) {w w' : World π σ}
    (hseen : Seen c.limit w w') (htyped : c.reference.Typed w) :
    c.After n [instr] regs w (regs.put n datum) w' := by
  refine ⟨fun i hi => if_neg ?_, hseen, htyped⟩
  rw [List.length_singleton] at hi
  omega

theorem execute_singleton (c : Context π σ) (regs : Regs π) (h : instr.isSlot = false) :
    execute c.oracle c.strings (c.lines n [instr]) regs =
      regs.put n <$> instr.exec c.oracle c.strings regs n := by
  rw [c.lines_singleton n h]
  rfl

/-- An instruction sets its register to what it computes. -/
theorem Executes.compute {g : α → Datum π} {Q : α → Regs π → Prop} (hslot : instr.isSlot = false)
    (hx : x ≠ .error .illTyped) (hexec : ∀ regs a, P regs → x = .ok a →
      instr.exec c.oracle c.strings regs n = (Pure.pure (some (g a)) : Action π σ _))
    (hpost : ∀ regs a, P regs → x = .ok a → Q a (regs.put n (some (g a)))) :
    c.Executes P n [instr] (Action.ofExcept x) Q := by
  intro regs w w' hP hbefore
  rw [c.execute_singleton regs hslot]
  cases x with
  | error reason => exact fun hreason => hx (hreason ▸ rfl)
  | ok a =>
    rw [hexec regs a hP rfl]
    exact ⟨_, w', rfl, .put _ _ hbefore.seen hbefore.typed, hpost regs a hP rfl⟩

theorem Executes.value {g : α → Value π} (ty : Ty) (hslot : instr.isSlot = false)
    (hx : x ≠ .error .illTyped) (hexec : ∀ regs a, P regs → x = .ok a →
      instr.exec c.oracle c.strings regs n = (Pure.pure (some (.value (g a))) : Action π σ _)) :
    c.Executes P n [instr] (Action.ofExcept x) fun a => (Operand.reg n ty).Is c.strings (g a) :=
  .compute hslot hx hexec fun regs a _ _ => Operand.is_put ty regs n (g a)

theorem Computes.value {a : Value π} (ty : Ty) (hslot : instr.isSlot = false)
    (hexec : ∀ regs, P regs →
      instr.exec c.oracle c.strings regs n = (Pure.pure (some (.value a)) : Action π σ _)) :
    c.Computes P n [instr] ((Operand.reg n ty).Is c.strings a) :=
  Executes.value (x := .ok ()) (g := fun _ => a) ty hslot nofun fun regs _ hP _ => hexec regs hP

theorem Executes.binary {op : BinaryOp} {l r : Operand} {a b : Value π} (ty : Ty)
    (h : op.exec a b ≠ .error .illTyped) :
    c.Executes (Operand.Are c.strings l r a b) n [.binary op l r] (Action.ofExcept (op.exec a b))
      fun value regs => op.exec a b = .ok value ∧ (Operand.reg n ty).Is c.strings value regs := by
  refine .compute (g := .value) rfl h (fun regs value hregs hvalue => ?_) fun regs value _ hvalue =>
    ⟨hvalue, Operand.is_put ty regs n value⟩
  rw [Instr.exec, hregs.1.value, pure_bind, hregs.2.value, pure_bind, hvalue]
  rfl

theorem Computes.binary {op : BinaryOp} {l r : Operand} {a b value : Value π} (ty : Ty)
    (h : op.exec a b = .ok value) :
    c.Computes (Operand.Are c.strings l r a b) n [.binary op l r]
      ((Operand.reg n ty).Is c.strings value) := by
  refine .value ty rfl fun regs hregs => ?_
  rw [Instr.exec, hregs.1.value, pure_bind, hregs.2.value, pure_bind, h]
  rfl

theorem Computes.icmp {pred : IntPred} {l r : Operand} {a b : Value π} {value : Bool}
    (h : pred.exec a b = .ok value) :
    c.Computes (Operand.Are c.strings l r a b) n [.icmp pred l r]
      ((Operand.reg n .i1).Is c.strings (.bool value)) := by
  refine .value .i1 rfl fun regs hregs => ?_
  rw [Instr.exec, hregs.1.value, pure_bind, hregs.2.value, pure_bind, h]
  rfl

theorem Computes.fcmp {pred : RealPred} {l r : Operand} {a b : π.Real} :
    c.Computes (Operand.Are c.strings l r (.real a) (.real b)) n [.fcmp pred l r]
      ((Operand.reg n .i1).Is c.strings (.bool (π.compare pred.relOp a b))) := by
  refine .value .i1 rfl fun regs hregs => ?_
  rw [Instr.exec, hregs.1.value, pure_bind, hregs.2.value, pure_bind]

theorem Computes.elementPtr {base index : Operand} {a : Address} {i : BitVec 32} {size : Nat}
    (ty : Ty) (h : 0 ≤ i.toInt ∧ i.toInt < size) :
    c.Computes (fun regs => index.Is c.strings (.int i) regs ∧ base.IsAt c.strings a regs) n
      [.elementPtr size ty base index]
      ((Operand.reg n (.ptr ty)).IsAt c.strings (a.element i.toInt.toNat)) := by
  refine Executes.compute (x := .ok ()) (g := fun _ => .address (a.element i.toInt.toNat)) rfl nofun
    (fun regs _ hregs _ => ?_) fun regs _ _ _ => Operand.isAt_put (.ptr ty) regs n _
  rw [Instr.exec, hregs.2.address, pure_bind, hregs.1.value, pure_bind]
  exact if_pos h

theorem Executes.load {address : Operand} {a : Address} {t : DataType} (ty : Ty)
    (hP : ∀ regs, P regs → address.IsAt c.strings a regs)
    (hvisible : a.root.visible c.limit = true) (hholds : c.reference.Holds a t) :
    c.Executes P n [.load ty address] (Action.load a) fun v regs =>
      v.Fits t ∧ (Operand.reg n ty).Is c.strings v regs := by
  intro regs w w' hregs hbefore
  obtain ⟨v, hpart, hfits⟩ := hholds w hbefore.typed
  have hpart' : (w'.get a.root).part? a.path = some v := by rw [hbefore.seen.get hvisible, hpart]
  rw [c.execute_singleton regs rfl, Action.run_load hpart]
  refine ⟨regs.put n (some (.value v)), w'.log (.load a), ?_, ?_, hfits, Operand.is_put ty regs n v⟩
  · refine Action.run_map ?_
    rw [Instr.exec, (hP regs hregs).address, pure_bind, run_bind (Action.run_load hpart')]
    rfl
  · exact .put _ _ (hbefore.seen.log hvisible) (hbefore.typed.log _)

theorem Executes.store {address v : Operand} {a : Address} {t : DataType} {value : Value π}
    (hP : ∀ regs, P regs → address.IsAt c.strings a regs ∧ v.Is c.strings value regs)
    (hvisible : a.root.visible c.limit = true) (hholds : c.reference.Holds a t)
    (hfits : value.Fits t) :
    c.Executes P n [.store v address] (Action.store a value) fun _ _ => True := by
  intro regs w w' hregs hbefore
  obtain ⟨whole, hreplace, htyped⟩ := hholds.store hfits hbefore.typed
  have hreplace' : (w'.get a.root).replace? a.path value = some whole := by
    rw [hbefore.seen.get hvisible, hreplace]
  obtain ⟨haddress, hvalue⟩ := hP regs hregs
  rw [c.execute_singleton regs rfl, Action.run_store hreplace]
  refine ⟨regs.put n none, w'.set whole a.root, Action.run_map ?_, ?_, trivial⟩
  · rw [Instr.exec, haddress.address, pure_bind, hvalue.value, pure_bind,
      run_bind (Action.run_store hreplace')]
    rfl
  · exact .put _ _ (hbefore.seen.set whole a.root) htyped

end Context

end Oberlet
