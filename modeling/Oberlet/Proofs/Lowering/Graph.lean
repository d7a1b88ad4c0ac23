import Oberlet.Proofs.Flow.Blocks
import Oberlet.Proofs.Tree.Parts

/-!
# The blocks of a function while they are generated

What a statement generates stays: later on, instructions are only added to the last block while it
is open, and stack slots to the first. So a finished function `Extends` each state on the way to it.
-/

namespace Oberlet

open Llvm Lowering

namespace Lowering.State

abbrev blocks (s : State) : List Block := s.done ++ [s.block]

def ids (s : State) : List Nat := s.blocks.map (·.id)

def started (s : State) (id : Nat) (stem : String) : State :=
  { s with
    done := s.done ++ [s.block]
    block := .empty id stem
    edits := s.edits ++ [(id, .start)] }

def ended (s : State) (term : Terminator) : State :=
  { s with
    block := { s.block with term := some term }
    edits := s.edits ++ [(s.block.id, .finish term)] }

def reserved (s : State) : State := { s with nextBlock := s.nextBlock + 1 }

end Lowering.State

/-- The place behind what has been generated of a block. -/
inductive Llvm.Block.At (blocks : List Block) (b : Block) : Place → Prop
  | intro {b' : Block} {lines : List Line} : b' ∈ blocks → b'.id = b.id →
      workOf b'.lines = workOf b.lines ++ lines → At blocks b (.point lines b'.term)

/-- A block is among others, stack slots aside. -/
def Present (blocks : List Block) (b : Block) : Prop :=
  ∃ b' ∈ blocks, b'.id = b.id ∧ workOf b'.lines = workOf b.lines ∧ b'.term = b.term

/-- The blocks of a function come from those of a state. Only the last block may have got more,
unless it was ended. -/
structure Extends (blocks : List Block) (s : State) : Prop where
  done : ∀ b ∈ s.done, Present blocks b
  block : ∃ place, s.block.At blocks place
  ended : s.block.term.isSome → Present blocks s.block

/-- A state comes from another by generating code, with new blocks. -/
structure Continues (s : State) (new : List Nat) (s' : State) : Prop extends Grown s s' where
  function : s'.function = s.function
  nextBlock : s.nextBlock ≤ s'.nextBlock
  ids : s'.ids = s.ids ++ new
  before : ∀ blocks, Extends blocks s' → Extends blocks s

namespace Continues

variable {s s' s'' : State} {new new' : List Nat}

theorem trans (h : Continues s new s') (h' : Continues s' new' s'') :
    Continues s (new ++ new') s'' where
  toGrown := h.toGrown.trans h'.toGrown
  function := h'.function.trans h.function
  nextBlock := Nat.le_trans h.nextBlock h'.nextBlock
  ids := by rw [h'.ids, h.ids, List.append_assoc]
  before blocks hextends := h.before blocks (h'.before blocks hextends)

theorem refl (s : State) : Continues s [] s :=
  ⟨.refl s, rfl, Nat.le_refl _, (List.append_nil _).symm, fun _ h => h⟩

theorem reserve (s : State) : Continues s [] s.reserved :=
  ⟨.of_eq rfl rfl rfl, rfl, Nat.le_succ _, (List.append_nil _).symm,
    fun _ h => ⟨h.done, h.block, h.ended⟩⟩

end Continues

/-! ## The place of a state -/

section

variable {blocks : List Block} {s s' : State}

theorem Present.at {term : Terminator} (h : Present blocks (s.ended term).block) :
    s.block.At blocks (.point [] (some term)) := by
  obtain ⟨b, hb, hid, hlines, hterm⟩ := h
  have hterm : b.term = some term := hterm
  rw [← hterm]
  exact .intro hb hid (hlines.trans (List.append_nil _).symm)

theorem Continues.finish (hopen : s.block.term = none) (term : Terminator) :
    Continues s [] (s.ended term) := by
  refine ⟨.of_eq rfl rfl rfl, rfl, Nat.le_refl _, ?_, ?_⟩
  · simp [State.ids, State.ended]
  · intro blocks h
    exact ⟨h.done, ⟨_, (h.ended rfl).at⟩, by simp [hopen]⟩

variable {id : Nat} {stem : String} {code : List Instr}

theorem Extends.of_started (h : Extends blocks (s.started id stem)) : Present blocks s.block :=
  h.done s.block (List.mem_append_right _ (List.mem_singleton_self _))

theorem Continues.start (s : State) (id : Nat) (stem : String) :
    Continues s [id] (s.started id stem) := by
  refine ⟨.of_eq rfl rfl rfl, rfl, Nat.le_refl _, ?_, ?_⟩
  · simp [State.ids, State.started, Block.empty]
  · intro blocks h
    have hpresent := h.of_started
    obtain ⟨b, hb, hid, hlines, hterm⟩ := h.of_started
    refine ⟨fun b hb => h.done b (List.mem_append_left _ hb), ⟨.point [] b.term, .intro hb hid ?_⟩,
      fun _ => hpresent⟩
    exact hlines.trans (List.append_nil _).symm

theorem Llvm.Block.At.leads {place : Place} (h : (Block.empty id stem).At blocks place)
    (answers : List Bool) : Leads blocks (.start id) answers [] place answers := by
  cases h with
  | @intro b lines hb hid hlines =>
    have hlines : workOf b.lines = lines := hlines
    have hid : b.id = id := hid
    subst hlines hid
    exact .enter hb answers

theorem Lowering.Emitted.block {code : List Instr} (h : Emitted s code s') :
    s'.block.id = s.block.id ∧ s'.block.term = s.block.term ∧
      workOf s'.block.lines = workOf s.block.lines ++ workOf (number s.nextReg code) := by
  have hblock : s'.block = (s.place code).block := congrArg (·.block) h.place
  rw [hblock]
  obtain ⟨_, _, _, _, _, _, done, _, _⟩ := s
  cases done with
  | nil => exact ⟨rfl, rfl, workOf_append _ _⟩
  | cons entry rest =>
    refine ⟨rfl, rfl, (workOf_append _ _).trans ?_⟩
    simp [workOf]

/-- Code that was added is met where it was added. -/
theorem Lowering.Emitted.at (h : Emitted s code s') {lines : List Line} {term : Option Terminator}
    (hat : s'.block.At blocks (.point lines term)) :
    s.block.At blocks (.point (workOf (number s.nextReg code) ++ lines) term) := by
  obtain ⟨hid, -, hlines⟩ := h.block
  cases hat with
  | intro hb hid' hlines' =>
    refine .intro hb (hid'.trans hid) ?_
    rw [hlines', hlines, List.append_assoc]

theorem Lowering.Emitted.present (h : Emitted s code s') {b : Block} (hb : b ∈ s.done) :
    ∃ b' ∈ s'.done, b'.id = b.id ∧ workOf b'.lines = workOf b.lines ∧
      b'.term = b.term := by
  have hdone : s'.done = (s.place code).done := congrArg (·.done) h.place
  rw [hdone]
  obtain ⟨_, _, _, _, _, _, done, _, _⟩ := s
  cases done with
  | nil => cases hb
  | cons entry rest =>
    rcases List.mem_cons.mp hb with rfl | hb
    · refine ⟨_, List.mem_cons_self, rfl, (workOf_append _ _).trans ?_, rfl⟩
      simp [workOf, slotsOf]
    · exact ⟨b, List.mem_cons_of_mem _ hb, rfl, rfl, rfl⟩

/-- Code without jumps stays in the block at hand. -/
theorem Lowering.Emitted.continues (h : Emitted s code s') (hopen : s.block.term = none) :
    Continues s [] s' := by
  refine ⟨h.toGrown, ?_, Nat.le_of_eq h.nextBlock.symm, ?_, ?_⟩
  · have := congrArg State.function h.place
    rcases s with ⟨_, _, _, _, _, _, _ | _, _, _⟩ <;> exact this
  · have hdone : s'.done = (s.place code).done := congrArg (·.done) h.place
    have hblock : s'.block = (s.place code).block := congrArg (·.block) h.place
    rw [State.ids, State.ids, State.blocks, hdone, hblock, List.append_nil]
    rcases s with ⟨_, _, _, _, _, _, _ | _, _, _⟩ <;> simp [State.place]
  · intro blocks hextends
    refine ⟨fun b hb => ?_, ?_, by simp [hopen]⟩
    · obtain ⟨b', hb', hid, hlines, hterm⟩ := h.present hb
      obtain ⟨b'', hb'', hid', hlines', hterm'⟩ := hextends.done b' hb'
      exact ⟨b'', hb'', hid'.trans hid, hlines'.trans hlines, hterm'.trans hterm⟩
    · obtain ⟨_, hat⟩ := hextends.block
      cases hat with
      | intro hb hid hlines => exact ⟨_, h.at (.intro hb hid hlines)⟩

end

end Oberlet
