import Oberlet.Proofs.Flow.Blocks
import Oberlet.Proofs.Lowering.Code

/-!
# Blocks that do what statements do

There is one rule for each way in which behaviors are put together.
-/

namespace Oberlet

open Llvm Lowering

/-- The lines of code, as they are met. -/
def itemsOf (n : Nat) (code : List Instr) : List Item := (workOf (number n code)).map .line

/-- The code of an event, and what is met at the end of the block that the code is in. The module
itself always returns success. -/
inductive EventCode (k : CodeSetting) (isMain : Bool) :
    Event → Nat → List Instr → List Item → Prop
  | guard {cond : Expr} {n : Nat} {code : List Instr} {v : Operand} : ExprCode k cond n code v →
      EventCode k isMain (.guard cond) n code [.branch v]
  | assign {target : Designator Expr} {value : Expr} {n : Nat} {front back : List Instr}
      {address v : Operand} :
      AddressCode k target n front address → ExprCode k value (n + front.length) back v →
      EventCode k isMain (.assign target value) n (front ++ (back ++ [.store v address])) []
  | call {c : Call Expr} {n : Nat} {code : List Instr} {v : Option Operand} :
    CallCode k c n code v →
      EventCode k isMain (.call c) n code []
  | ret {n : Nat} :
      EventCode k isMain (.ret none) n [] [.ret (if isMain then some (.int 0) else none)]
  | retValue {value : Expr} {n : Nat} {code : List Instr} {v : Operand} : isMain = false →
      ExprCode k value n code v → EventCode k isMain (.ret (some value)) n code [.ret (some v)]

/-- The code of a sequence of events. -/
inductive Renders (k : CodeSetting) (isMain : Bool) : List Event → List Item → Prop
  | nil : Renders k isMain [] []
  | cons {event : Event} {events : List Event} {n : Nat} {code : List Instr}
    {last items : List Item} :
      EventCode k isMain event n code last → Renders k isMain events items →
      Renders k isMain (event :: events) (itemsOf n code ++ last ++ items)

variable {k : CodeSetting} {isMain : Bool} {blocks : List Block} {items items' : List Item}

theorem Renders.one {event : Event} {n : Nat} {code : List Instr} {last : List Item}
    (h : EventCode k isMain event n code last) :
    Renders k isMain [event] (itemsOf n code ++ last) := by
  have := Renders.cons h .nil
  rwa [List.append_nil] at this

/-- The codes of events are met one after the other. -/
theorem Renders.append {events events' : List Event} (h : Renders k isMain events items)
    (h' : Renders k isMain events' items') :
    Renders k isMain (events ++ events') (items ++ items') := by
  induction h with
  | nil => exact h'
  | cons hevent _ ih =>
    rw [List.append_assoc]
    exact .cons hevent ih

/-- Where one arrives at the end of a behavior: at the place `next`, at the block `exit` behind the
innermost loop, or at the end of the body. -/
def Arrives (blocks : List Block) (place : Place) (answers : List Bool) (items : List Item)
    (next : Option Place) (exit : Option Nat) : Ending → Prop
  | .next rest => ∃ place', next = some place' ∧ Leads blocks place answers items place' rest
  | .exit rest => ∃ id, exit = some id ∧ Leads blocks place answers items (.start id) rest
  | .stop outcome => Follows blocks place answers items outcome

theorem Arrives.after {place place' : Place} {answers answers' : List Bool} {next : Option Place}
    {exit : Option Nat} {ending : Ending} (h : Leads blocks place answers items place' answers')
    (h' : Arrives blocks place' answers' items' next exit ending) :
    Arrives blocks place answers (items ++ items') next exit ending := by
  cases ending with
  | next rest =>
    obtain ⟨place'', hnext, hleads⟩ := h'
    exact ⟨place'', hnext, h.trans hleads⟩
  | exit rest =>
    obtain ⟨id, hexit, hleads⟩ := h'
    exact ⟨id, hexit, h.trans hleads⟩
  | stop outcome => exact h _ _ h'

/-- From a place on, blocks behave as `behavior` says. A behavior that never ends as usual needs no
place to arrive at. -/
def Simulates (k : CodeSetting) (isMain : Bool) (blocks : List Block) (behavior : Behavior)
    (place : Place) (next : Option Place) (exit : Option Nat) : Prop :=
  ∀ answers events ending, behavior answers events ending →
    ∃ items, Renders k isMain events items ∧ Arrives blocks place answers items next exit ending

namespace Simulates

variable {behavior first second : Behavior} {place place' : Place} {next : Option Place}
  {exit : Option Nat} {event : Event} {n : Nat} {code : List Instr}

theorem skip (place : Place) (exit : Option Nat) :
    Simulates k isMain blocks .Skip place (some place) exit := by
  rintro answers events ending ⟨⟩
  exact ⟨[], .nil, place, rfl, .refl place answers⟩

theorem step (h : EventCode k isMain event n code []) (rest : List Line) (term : Option Terminator)
    (exit : Option Nat) :
    Simulates k isMain blocks (.Step event) (.point (workOf (number n code) ++ rest) term)
      (some (.point rest term)) exit := by
  rintro answers events ending ⟨⟩
  refine ⟨_, .one h, _, rfl, ?_⟩
  rw [List.append_nil]
  exact .lines _ rest term answers

theorem halt (h : EventCode k isMain event n code []) (next : Option Place) (exit : Option Nat) :
    Simulates k isMain blocks (.Last event .halted)
      (.point (workOf (number n code)) (some .unreachable)) next exit := by
  rintro answers events ending ⟨⟩
  refine ⟨_, .one h, ?_⟩
  have hlines := @Leads.lines blocks (workOf (number n code)) [] (some .unreachable) answers
  rw [List.append_nil] at hlines
  exact hlines _ _ .unreachable

theorem ret {v : Option Operand} (h : EventCode k isMain event n code [.ret v])
    (next : Option Place) (exit : Option Nat) :
    Simulates k isMain blocks (.Last event .returned)
      (.point (workOf (number n code)) (some (.ret v))) next exit := by
  rintro answers events ending ⟨⟩
  refine ⟨_, .one h, ?_⟩
  have hlines := @Leads.lines blocks (workOf (number n code)) [] (some (.ret v)) answers
  rw [List.append_nil] at hlines
  exact hlines _ _ .ret

theorem leave (id : Nat) (next : Option Place) :
    Simulates k isMain blocks .Exit (.point [] (some (.br id))) next (some id) := by
  rintro answers events ending ⟨⟩
  exact ⟨[], .nil, id, rfl, .jump id answers⟩

theorem before (h : Simulates k isMain blocks behavior place next exit)
    (hleads : ∀ answers, Leads blocks place' answers [] place answers) :
    Simulates k isMain blocks behavior place' next exit := by
  intro answers events ending hrun
  obtain ⟨items, hrenders, harrives⟩ := h answers events ending hrun
  exact ⟨items, hrenders, harrives.after (hleads answers)⟩

theorem of_none (h : Simulates k isMain blocks behavior place none exit) (next : Option Place) :
    Simulates k isMain blocks behavior place next exit := by
  intro answers events ending hrun
  obtain ⟨items, hrenders, harrives⟩ := h answers events ending hrun
  refine ⟨items, hrenders, ?_⟩
  cases ending with
  | next rest =>
    obtain ⟨_, ⟨⟩, -⟩ := harrives
  | exit rest => exact harrives
  | stop outcome => exact harrives

/-- What follows is simulated from where the first part leads. -/
theorem seq (h : Simulates k isMain blocks first place (some place') exit)
    (h' : Simulates k isMain blocks second place' next exit) :
    Simulates k isMain blocks (.Seq first second) place next exit := by
  intro answers events ending hrun
  cases hrun with
  | next h₁ h₂ =>
    obtain ⟨items, hrenders, _, ⟨⟩, hleads⟩ := h _ _ _ h₁
    obtain ⟨items', hrenders', harrives⟩ := h' _ _ _ h₂
    exact ⟨items ++ items', hrenders.append hrenders', harrives.after hleads⟩
  | exit h₁ => exact h _ _ _ h₁
  | stop h₁ => exact h _ _ _ h₁

theorem seq_dead (h : Simulates k isMain blocks first place none exit) (next : Option Place) :
    Simulates k isMain blocks (.Seq first second) place next exit := by
  intro answers events ending hrun
  cases hrun with
  | next h₁ _ =>
    obtain ⟨_, -, _, ⟨⟩, -⟩ := h _ _ _ h₁
  | exit h₁ => exact h _ _ _ h₁
  | stop h₁ => exact h _ _ _ h₁

theorem behind (h : Simulates k isMain blocks behavior place (some place') exit) {place'' : Place}
    (hleads : ∀ answers, Leads blocks place' answers [] place'' answers) :
    Simulates k isMain blocks behavior place (some place'') exit := by
  intro answers events ending hrun
  obtain ⟨items, hrenders, harrives⟩ := h answers events ending hrun
  refine ⟨items, hrenders, ?_⟩
  cases ending with
  | next rest =>
    obtain ⟨_, ⟨⟩, hleads'⟩ := harrives
    have := hleads'.trans (hleads rest)
    rw [List.append_nil] at this
    exact ⟨place'', rfl, this⟩
  | exit rest => exact harrives
  | stop outcome => exact harrives

section Guard

variable {cond : Expr} {v : Operand} {id id' : Nat}

theorem leads_guard (term : Option Terminator) (answers : List Bool) :
    Leads blocks (.point (workOf (number n code)) term) answers (itemsOf n code) (.point [] term)
      answers := by
  have := @Leads.lines blocks (workOf (number n code)) [] term answers
  rwa [List.append_nil] at this

/-- A branch leads to either part, by the answer of the guard. -/
theorem choice (h : EventCode k isMain (.guard cond) n code [.branch v])
    (hyes : Simulates k isMain blocks first (.start id) next exit)
    (hno : Simulates k isMain blocks second (.start id') next exit) :
    Simulates k isMain blocks (.Choice cond first second)
      (.point (workOf (number n code)) (some (.condBr v id id'))) next exit := by
  intro answers events ending hrun
  cases hrun with
  | wait => exact ⟨_, .one h, leads_guard _ _ _ _ .wait⟩
  | yes hrun =>
    obtain ⟨items, hrenders, harrives⟩ := hyes _ _ _ hrun
    exact ⟨_, .cons h hrenders, harrives.after ((leads_guard _ _).trans (.yes v id id' _))⟩
  | no hrun =>
    obtain ⟨items, hrenders, harrives⟩ := hno _ _ _ hrun
    exact ⟨_, .cons h hrenders, harrives.after ((leads_guard _ _).trans (.no v id id' _))⟩

theorem loop {test : Nat} (h : EventCode k isMain (.guard cond) n code [.branch v])
    (htest : ∀ answers, Leads blocks (.start test) answers []
      (.point (workOf (number n code)) (some (.condBr v id id'))) answers)
    (hbody : Simulates k isMain blocks behavior (.start id) (some (.start test)) (some id')) :
    Simulates k isMain blocks (.While cond behavior) (.start test) (some (.start id')) exit := by
  intro answers events ending hrun
  have hguard (answers : List Bool) := (htest answers).trans
    (leads_guard (some (.condBr v id id')) answers)
  induction hrun with
  | wait => exact ⟨_, .one h, hguard _ _ _ .wait⟩
  | leave => exact ⟨_, .one h, _, rfl, (hguard _).trans (.no v id id' _)⟩
  | again hrun _ ih =>
    obtain ⟨items, hrenders, _, ⟨⟩, hleads⟩ := hbody _ _ _ hrun
    obtain ⟨items', hrenders', harrives⟩ := ih
    refine ⟨_, .cons h (hrenders.append hrenders'), ?_⟩
    exact (harrives.after hleads).after ((hguard _).trans (.yes v id id' _))
  | exit hrun =>
    obtain ⟨items, hrenders, _, ⟨⟩, hleads⟩ := hbody _ _ _ hrun
    refine ⟨_, .cons h hrenders, _, rfl, ?_⟩
    exact ((hguard _).trans (.yes v id id' _)).trans hleads
  | stop hrun =>
    obtain ⟨items, hrenders, hfollows⟩ := hbody _ _ _ hrun
    exact ⟨_, .cons h hrenders, ((hguard _).trans (.yes v id id' _)) _ _ hfollows⟩

end Guard

end Simulates

end Oberlet
