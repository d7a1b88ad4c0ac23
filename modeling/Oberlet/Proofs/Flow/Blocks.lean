import Mathlib.Data.List.Nodup
import Oberlet.Proofs.Flow.Structured
import Oberlet.Proofs.Lowering.Emit

/-!
# Control flow of blocks

Following the blocks of a function yields the instructions that are met, and the operands on which
branches depend. The answers of the branches are given beforehand.
-/

namespace Oberlet

open Llvm

/-- What is met by following blocks. -/
inductive Item
  | line (line : Line)
  | branch (cond : Operand)
  | ret (value : Option Operand)

/-- A place in a function: the start of a block, or what is left of one. -/
inductive Place
  | start (id : Nat)
  | point (lines : List Line) (term : Option Terminator)

/-- Following blocks from a place up to the end. A block without end is the last one of a body. -/
inductive Follows (blocks : List Block) : Place → List Bool → List Item → Outcome → Prop
  | enter {b : Block} {answers : List Bool} {items : List Item} {outcome : Outcome} : b ∈ blocks →
      Follows blocks (.point (workOf b.lines) b.term) answers items outcome →
      Follows blocks (.start b.id) answers items outcome
  | line {line : Line} {lines : List Line} {term : Option Terminator} {answers : List Bool}
      {items : List Item} {outcome : Outcome} :
      Follows blocks (.point lines term) answers items outcome →
      Follows blocks (.point (line :: lines) term) answers (.line line :: items) outcome
  | jump {id : Nat} {answers : List Bool} {items : List Item} {outcome : Outcome} :
      Follows blocks (.start id) answers items outcome →
      Follows blocks (.point [] (some (.br id))) answers items outcome
  | yes {cond : Operand} {id id' : Nat} {answers : List Bool} {items : List Item}
      {outcome : Outcome} : Follows blocks (.start id) answers items outcome →
      Follows blocks (.point [] (some (.condBr cond id id'))) (true :: answers)
        (.branch cond :: items) outcome
  | no {cond : Operand} {id id' : Nat} {answers : List Bool} {items : List Item}
      {outcome : Outcome} : Follows blocks (.start id') answers items outcome →
      Follows blocks (.point [] (some (.condBr cond id id'))) (false :: answers)
        (.branch cond :: items) outcome
  | wait {cond : Operand} {id id' : Nat} :
      Follows blocks (.point [] (some (.condBr cond id id'))) [] [.branch cond] .waiting
  | ret {value : Option Operand} {answers : List Bool} :
      Follows blocks (.point [] (some (.ret value))) answers [.ret value] .returned
  | unreachable {answers : List Bool} :
      Follows blocks (.point [] (some .unreachable)) answers [] .halted
  | fellOff {answers : List Bool} : Follows blocks (.point [] none) answers [] .fellOff

/-- There is one way through blocks with different ids. -/
theorem Follows.unique {blocks : List Block} (hids : (blocks.map (·.id)).Nodup) {place : Place}
    {answers : List Bool} {items items' : List Item} {outcome outcome' : Outcome}
    (h : Follows blocks place answers items outcome)
    (h' : Follows blocks place answers items' outcome') : items = items' ∧ outcome = outcome' := by
  induction h generalizing items' with
  | @enter b _ _ _ hb _ ih =>
    generalize hid : b.id = id at h'
    cases h' with
    | enter hb' h' =>
      obtain rfl := List.inj_on_of_nodup_map hids hb hb' hid
      exact ih h'
  | line _ ih =>
    cases h' with
    | line h' =>
      obtain ⟨rfl, rfl⟩ := ih h'
      exact ⟨rfl, rfl⟩
  | jump _ ih =>
    cases h' with
    | jump h' => exact ih h'
  | yes _ ih =>
    cases h' with
    | yes h' =>
      obtain ⟨rfl, rfl⟩ := ih h'
      exact ⟨rfl, rfl⟩
  | no _ ih =>
    cases h' with
    | no h' =>
      obtain ⟨rfl, rfl⟩ := ih h'
      exact ⟨rfl, rfl⟩
  | wait | ret | unreachable | fellOff =>
    cases h'
    exact ⟨rfl, rfl⟩

/-- Following blocks from one place leads to another, with some items on the way and answers left.
-/
def Leads (blocks : List Block) (place : Place) (answers : List Bool) (items : List Item)
    (place' : Place) (rest : List Bool) : Prop :=
  ∀ items' outcome, Follows blocks place' rest items' outcome →
    Follows blocks place answers (items ++ items') outcome

namespace Leads

variable {blocks : List Block} {place place' place'' : Place} {answers answers' rest : List Bool}
  {items items' : List Item}

theorem refl (place : Place) (answers : List Bool) : Leads blocks place answers [] place answers :=
  fun _ _ h => h

theorem trans (h : Leads blocks place answers items place' answers')
    (h' : Leads blocks place' answers' items' place'' rest) :
    Leads blocks place answers (items ++ items') place'' rest := by
  intro items'' outcome hfollows
  rw [List.append_assoc]
  exact h _ _ (h' _ _ hfollows)

theorem enter {b : Block} (hb : b ∈ blocks) (answers : List Bool) :
    Leads blocks (.start b.id) answers [] (.point (workOf b.lines) b.term) answers :=
  fun _ _ h => .enter hb h

theorem lines (lines rest : List Line) (term : Option Terminator) (answers : List Bool) :
    Leads blocks (.point (lines ++ rest) term) answers (lines.map .line) (.point rest term)
      answers := by
  induction lines with
  | nil => exact refl _ _
  | cons line lines ih => exact fun items outcome h => .line (ih items outcome h)

theorem jump (id : Nat) (answers : List Bool) :
    Leads blocks (.point [] (some (.br id))) answers [] (.start id) answers :=
  fun _ _ h => .jump h

theorem yes (cond : Operand) (id id' : Nat) (answers : List Bool) :
    Leads blocks (.point [] (some (.condBr cond id id'))) (true :: answers) [.branch cond]
      (.start id) answers :=
  fun _ _ h => .yes h

theorem no (cond : Operand) (id id' : Nat) (answers : List Bool) :
    Leads blocks (.point [] (some (.condBr cond id id'))) (false :: answers) [.branch cond]
      (.start id') answers :=
  fun _ _ h => .no h

end Leads

end Oberlet
