import Mathlib.Logic.Relation
import Oberlet.Proofs.Lowering.Graph
import Oberlet.Proofs.Lowering.Guards
import Oberlet.Proofs.Target.Code

/-!
# The steps of code generation

Within a function, code generation takes steps of four kinds. What is true of a function at any time
follows from that.
-/

namespace Oberlet

open Llvm Lowering Lower

namespace Lowering.State

def entry (s : State) : Block :=
  match s.done with
  | [] => s.block
  | entry :: _ => entry

def slots (s : State) : List Line := slotsOf s.entry.lines

/-- The lines whose registers can be used at the end of the last block: those of the block itself,
and the stack slots of the first. -/
def visible (s : State) : List Line :=
  match s.done with
  | [] => s.block.lines
  | entry :: _ => slotsOf entry.lines ++ s.block.lines

end Lowering.State

theorem Lowering.State.head?_blocks (s : State) : s.blocks.head? = some s.entry := by
  rw [State.blocks, State.entry]
  cases s.done <;> rfl

/-! ## Where code is added -/

/-- Where the lines of added code are: in the only block, or in the last block apart from the stack
slots, which are in the first. -/
inductive Added (s : State) (lines : List Line) (s' : State) : Prop
  | first : s.done = [] → s'.done = [] →
      s'.block = { s.block with lines := s.block.lines ++ lines } →
      s'.edits = s.edits ++ lines.map (fun line => (s.block.id, .append line)) → Added s lines s'
  | later {entry : Block} {rest : List Block} : s.done = entry :: rest →
      s'.done = { entry with lines := entry.lines ++ slotsOf lines } :: rest →
      s'.block = { s.block with lines := s.block.lines ++ workOf lines } →
      s'.edits = s.edits ++ lines.map (fun line =>
        (if line.instr.isSlot then entry.id else s.block.id, .append line)) → Added s lines s'

theorem Lowering.Emitted.added {s s' : State} {code : List Instr} (h : Emitted s code s') :
    Added s (number s.nextReg code) s' := by
  have hdone : s'.done = (s.place code).done := congrArg (·.done) h.place
  have hblock : s'.block = (s.place code).block := congrArg (·.block) h.place
  have hedits : s'.edits = (s.place code).edits := congrArg (·.edits) h.place
  cases hs : s.done with
  | nil =>
    rw [State.place, hs] at hdone hblock hedits
    exact .first hs hdone hblock hedits
  | cons entry rest =>
    rw [State.place, hs] at hdone hblock hedits
    exact .later hs hdone hblock hedits

theorem mem_slotsOf_or_workOf {lines : List Line} {line : Line} (h : line ∈ lines) :
    line ∈ slotsOf lines ∨ line ∈ workOf lines := by
  cases hslot : line.instr.isSlot with
  | true => exact .inl (List.mem_filter.mpr ⟨h, hslot⟩)
  | false => exact .inr (List.mem_filter.mpr ⟨h, by simp [hslot]⟩)

theorem slotsOf_slotsOf (lines : List Line) : slotsOf (slotsOf lines) = slotsOf lines := by
  simp [slotsOf]

theorem Added.visible {s s' : State} {lines : List Line} (h : Added s lines s') :
    s.visible ++ lines ⊆ s'.visible := by
  cases h with
  | first hdone hdone' hblock =>
    rw [State.visible, State.visible, hdone, hdone', hblock]
    exact List.Subset.refl _
  | later hdone hdone' hblock =>
    rw [State.visible, State.visible, hdone, hdone', hblock]
    simp only [slotsOf_append, slotsOf_slotsOf]
    intro line hline
    simp only [List.mem_append] at hline ⊢
    rcases hline with (hline | hline) | hline
    · exact .inl (.inl hline)
    · exact .inr (.inl hline)
    · exact (mem_slotsOf_or_workOf hline).imp .inr .inr

/-! ## Steps -/

/-- One step of code generation within a function. Branches lead to blocks that `T` allows. -/
inductive Step (Γ : FunctionSetting) (T : Nat → Prop) : State → State → Prop
  | code {s s' : State} {code : List Instr} : s.block.term = none → Emitted s code s' →
      s'.tables.Le Γ.tables → Closed (·.Usable Γ s.visible) s.nextReg code →
      Guards Γ.tables.strings (number s.nextReg code) → Step Γ T s s'
  | reserve {s : State} : Step Γ T s s.reserved
  | finish {s : State} {term : Terminator} : s.block.term = none → term.WellTyped Γ.result →
      (∀ v ∈ term.operands, v.Usable Γ s.visible) → (∀ target ∈ term.targets, T target) →
      Step Γ T s (s.ended term)
  | start {s : State} {id : Nat} {stem : String} : s.block.term.isSome →
    Step Γ T s (s.started id stem)

abbrev Steps (Γ : FunctionSetting) (T : Nat → Prop) : State → State → Prop :=
  Relation.ReflTransGen (Step Γ T)

section

variable {Γ : FunctionSetting} {T : Nat → Prop} {s s' : State} {code : List Instr}

theorem Behind.usable (h : Emitted s code s') {v : Operand}
    (hv : Behind (·.Usable Γ s.visible) s.nextReg code v) : v.Usable Γ s'.visible := by
  have hvisible := List.append_subset.mp h.added.visible
  rcases hv with hv | hv
  · exact hv.mono hvisible.1
  · exact .inr (hv.mono hvisible.2)

theorem Steps.last {term : Terminator} (hopen : s.block.term = none) (h : Emitted s code s')
    (hle : s'.tables.Le Γ.tables) (hclosed : Closed (·.Usable Γ s.visible) s.nextReg code)
    (hguards : Guards Γ.tables.strings (number s.nextReg code)) (hterm : term.WellTyped Γ.result)
    (hoperands : ∀ v ∈ term.operands, Behind (·.Usable Γ s.visible) s.nextReg code v)
    (htargets : ∀ target ∈ term.targets, T target) : Steps Γ T s (s'.ended term) := by
  refine (Relation.ReflTransGen.single (.code hopen h hle hclosed hguards)).tail
    (.finish ?_ hterm ?_ htargets)
  · exact h.block.2.1.trans hopen
  · exact fun v hv => (hoperands v hv).usable h

theorem Steps.start (hended : s.block.term.isSome) (id : Nat) (stem : String) :
    Steps Γ T s (s.started id stem) :=
  .single (.start hended)

/-- What each step keeps is kept by all of them. -/
theorem Steps.keeps {Q : State → Prop} (hstep : ∀ ⦃s s'⦄, Step Γ T s s' → Q s → Q s')
    (h : Steps Γ T s s') (hs : Q s) : Q s' := by
  induction h with
  | refl => exact hs
  | tail _ hlast ih => exact hstep hlast ih

theorem Steps.allow {T' : Nat → Prop} (h : Steps Γ T s s') (hT : ∀ target, T target → T' target) :
    Steps Γ T' s s' := by
  refine Relation.ReflTransGen.mono (fun s s' hstep => ?_) _ _ h
  cases hstep with
  | code hopen hemitted hle hclosed hguards => exact .code hopen hemitted hle hclosed hguards
  | reserve => exact .reserve
  | finish hopen htyped hoperands htargets =>
    exact .finish hopen htyped hoperands fun target htarget => hT target (htargets target htarget)
  | start hended => exact .start hended

theorem Step.entry (h : Step Γ T s s') : s.entry.lines <+: s'.entry.lines := by
  cases h with
  | code _ hemitted =>
    cases hemitted.added with
    | first hdone hdone' hblock =>
      rw [State.entry, State.entry, hdone, hdone', hblock]
      exact List.prefix_append _ _
    | later hdone hdone' =>
      rw [State.entry, State.entry, hdone, hdone']
      exact List.prefix_append _ _
  | reserve => exact List.prefix_rfl
  | finish =>
    rw [State.entry, State.entry, State.ended]
    cases s.done <;> exact List.prefix_rfl
  | start =>
    rw [State.entry, State.entry, State.started]
    cases s.done <;> exact List.prefix_rfl

theorem Steps.entry (h : Steps Γ T s s') : s.entry.lines <+: s'.entry.lines := by
  induction h with
  | refl => exact List.prefix_rfl
  | tail _ hstep ih => exact ih.trans hstep.entry

theorem Steps.slots (h : Steps Γ T s s') : s.slots ⊆ s'.slots :=
  List.filter_subset _ h.entry.subset

theorem Lowering.State.slots_subset_visible (s : State) : s.slots ⊆ s.visible := by
  cases hdone : s.done with
  | nil =>
    rw [slots, entry, visible, hdone]
    exact List.filter_subset_self _
  | cons entry rest =>
    rw [slots, State.entry, visible, hdone]
    exact List.subset_append_left _ _

end

/-! ## Validity -/

/-- What a body returns is what its function returns. The body of the module returns a number. -/
structure FunctionSetting.Returns (Γ : FunctionSetting) (env : Env) (result : DataType) : Prop where
  main : env.isMain = true → Γ.result = .i32
  result : env.isMain = false → result.target = .ok Γ.result

/-- All that the code of a body may use is in place: its constants and functions, and storage for
its variables, in the given stack slots or as globals. -/
structure Suits (Γ : FunctionSetting) (slots : List Line) (names : Names) (env : Env)
    (result : DataType) : Prop extends Γ.Returns env result where
  typed : Typed names env Γ.tables (·.Usable Γ slots)

section

variable {Γ : FunctionSetting} {slots : List Line} {names : Names} {env : Env} {result : DataType}

theorem Suits.visible (h : Suits Γ slots names env result) {s : State} (hslots : slots ⊆ s.slots) :
    Typed names env Γ.tables (·.Usable Γ s.visible) :=
  h.typed.mono fun _ hv => hv.mono (List.Subset.trans hslots s.slots_subset_visible)

theorem Typed.foreign {P : Operand → Prop} {tables : Tables} (h : Typed names env tables P) :
    (env.setting names tables).Foreign :=
  fun name sp index callee hname hbuiltin hindex hcallee =>
    (h.params name sp index callee hname hbuiltin hindex hcallee).2.2

theorem Suits.inside (h : Suits Γ slots names env result) (behind : Nat) :
    Suits Γ slots names { env with loopExits := behind :: env.loopExits } result where
  main := h.main
  result := h.result
  typed := ⟨h.typed.toReady.inside _, h.typed.constant, h.typed.storage, h.typed.params⟩

end

section

variable {Γ : FunctionSetting} {T : Nat → Prop} {s s' : State}

theorem linesValid_slotsOf (before lines : List Line) : LinesValid Γ before (slotsOf lines) := by
  induction lines generalizing before with
  | nil => trivial
  | cons line rest ih =>
    obtain ⟨reg, instr⟩ := line
    cases instr with
    | alloca content => exact ⟨⟨trivial, nofun⟩, nofun, ih _⟩
    | _ => exact ih before

/-- The lines that a block behind others sees of them. -/
def slotsAhead : List Block → List Line
  | [] => []
  | entry :: _ => slotsOf entry.lines

theorem Lowering.State.visible_eq (s : State) :
    s.visible = slotsAhead s.done ++ s.block.lines := by
  rw [State.visible]
  cases s.done <;> rfl

theorem blocksValid_concat {front : List Block} {b : Block} :
    BlocksValid Γ (front ++ [b]) ↔ BlocksValid Γ front ∧ b.Valid Γ (slotsAhead front) := by
  cases front with
  | nil => simp [BlocksValid, slotsAhead]
  | cons entry rest =>
    rw [List.cons_append, BlocksValid, BlocksValid, List.forall_mem_append,
      List.forall_mem_singleton, and_assoc, slotsAhead]

theorem BlocksValid.appendSlots {entry : Block} {rest : List Block}
    (h : BlocksValid Γ (entry :: rest)) (lines : List Line) :
    BlocksValid Γ ({ entry with lines := entry.lines ++ slotsOf lines } :: rest) := by
  refine ⟨⟨linesValid_append.mpr ⟨h.1.lines, linesValid_slotsOf _ _⟩, fun term hterm => ?_⟩,
    fun b hb => (h.2 b hb).mono (List.filter_subset _ (List.subset_append_left _ _))⟩
  obtain ⟨htyped, hoperands⟩ := h.1.term term hterm
  exact ⟨htyped, fun v hv => (hoperands v hv).mono (List.subset_append_left _ _)⟩

theorem Llvm.Block.Valid.append {b : Block} {outer lines : List Line} (h : b.Valid Γ outer)
    (hopen : b.term = none) (hlines : LinesValid Γ (outer ++ b.lines) lines) :
    Block.Valid Γ outer { b with lines := b.lines ++ lines } :=
  ⟨linesValid_append.mpr ⟨h.lines, hlines⟩, fun _ hterm => by cases hopen.symm.trans hterm⟩

/-- A step adds valid code only. -/
theorem Step.blocksValid (h : Step Γ T s s') (hvalid : BlocksValid Γ s.blocks) :
    BlocksValid Γ s'.blocks := by
  obtain ⟨hfront, hlast⟩ := blocksValid_concat.mp hvalid
  cases h with
  | @code _ code hopen hemitted hle hclosed =>
    have hcallees (callee : Signature) (args : List Operand) (hcall : .call callee args ∈ code) :
        callee ∈ Γ.tables.signatures :=
      hle.signatures.subset (hemitted.callees callee args hcall)
    rw [s.visible_eq] at hclosed
    cases hemitted.added with
    | first hdone hdone' hblock =>
      rw [hdone] at hlast hclosed
      rw [State.blocks, hdone', hblock]
      exact blocksValid_concat.mpr
        ⟨trivial, hlast.append hopen (hclosed.linesValid hcallees fun v hv => hv)⟩
    | @later entry rest hdone hdone' hblock =>
      rw [hdone] at hfront hlast hclosed
      rw [State.blocks, hdone', hblock]
      have hslots : slotsOf entry.lines ⊆
          slotsOf (entry.lines ++ slotsOf (number s.nextReg code)) :=
        List.filter_subset _ (List.subset_append_left _ _)
      refine blocksValid_concat.mpr ⟨hfront.appendSlots _, (hlast.mono hslots).append hopen ?_⟩
      refine hclosed.linesValid_work hcallees (fun v hv => hv.mono ?_) ?_
      · exact List.append_subset.mpr ⟨List.Subset.trans hslots (List.subset_append_left _ _),
          List.subset_append_right _ _⟩
      · rw [slotsOf_append, slotsOf_slotsOf, List.append_assoc]
        exact List.Subset.trans (List.subset_append_left _ _) (List.subset_append_right _ _)
  | reserve => exact hvalid
  | @finish term hopen htyped hoperands =>
    rw [s.visible_eq] at hoperands
    refine blocksValid_concat.mpr ⟨hfront, hlast.lines, ?_⟩
    rintro _ ⟨⟩
    exact ⟨htyped, hoperands⟩
  | start => exact blocksValid_concat.mpr ⟨hvalid, trivial, fun _ hterm => by cases hterm⟩

theorem Steps.blocksValid (h : Steps Γ T s s') (hvalid : BlocksValid Γ s.blocks) :
    BlocksValid Γ s'.blocks :=
  h.keeps (Q := fun s => BlocksValid Γ s.blocks) (fun _ _ => Step.blocksValid) hvalid

/-! ## Branches -/

theorem Step.forall_blocks {Q : Block → Prop} (h : Step Γ T s s')
    (hcode : ∀ b lines, Guards Γ.tables.strings lines → Q b →
      Q { b with lines := b.lines ++ lines })
    (hfinish : ∀ b term, (∀ target ∈ term.targets, T target) → Q b → Q { b with term := some term })
    (hstart : ∀ id stem, Q (.empty id stem)) (hs : ∀ b ∈ s.blocks, Q b) : ∀ b ∈ s'.blocks, Q b := by
  have hdone (b : Block) (hb : b ∈ s.done) := hs b (List.mem_append_left _ hb)
  have hblock := hs s.block (by simp)
  cases h with
  | code _ hemitted _ _ hguards =>
    cases hemitted.added with
    | first _ hdone' hblock' =>
      rw [State.blocks, hdone', hblock']
      exact List.forall_mem_singleton.mpr (hcode _ _ hguards hblock)
    | later hdone₀ hdone' hblock' =>
      rw [hdone₀, List.forall_mem_cons] at hdone
      rw [State.blocks, hdone', hblock', List.cons_append]
      exact List.forall_mem_cons.mpr ⟨hcode _ _ (guards_slotsOf _) hdone.1,
        List.forall_mem_append.mpr
        ⟨hdone.2, List.forall_mem_singleton.mpr (hcode _ _ hguards.work hblock)⟩⟩
  | reserve => exact hs
  | finish _ _ _ htargets =>
    exact List.forall_mem_append.mpr ⟨hdone, List.forall_mem_singleton.mpr
      (hfinish _ _ htargets hblock)⟩
  | start => exact List.forall_mem_append.mpr ⟨hs, List.forall_mem_singleton.mpr (hstart _ _)⟩

/-- All branches of blocks lead to where `T` allows. -/
def LeadTo (T : Nat → Prop) (blocks : List Block) : Prop :=
  ∀ b ∈ blocks, ∀ term, b.term = some term → ∀ target ∈ term.targets, T target

theorem Step.leadTo (h : Step Γ T s s') (hs : LeadTo T s.blocks) : LeadTo T s'.blocks := by
  refine h.forall_blocks (fun _ _ _ hb => hb) (fun b term htargets _ => ?_) (fun _ _ _ => nofun) hs
  rintro _ ⟨⟩
  exact htargets

/-- Branches lead only to blocks that are allowed. -/
theorem Steps.leadTo (h : Steps Γ T s s') (hs : LeadTo T s.blocks) : LeadTo T s'.blocks :=
  h.keeps (Q := fun s => LeadTo T s.blocks) (fun _ _ => Step.leadTo) hs

theorem Steps.guards (h : Steps Γ T s s') (hs : ∀ b ∈ s.blocks, Guards Γ.tables.strings b.lines) :
    ∀ b ∈ s'.blocks, Guards Γ.tables.strings b.lines := by
  refine h.keeps (Q := fun s => ∀ b ∈ s.blocks, Guards Γ.tables.strings b.lines) ?_ hs
  exact fun s s' hstep => hstep.forall_blocks (fun _ _ hlines hb => hb.append hlines)
    (fun _ _ _ hb => hb) (fun _ _ => .nil)

/-! ## Registers -/

namespace Lowering.State

def regs (s : State) : List Nat := s.blocks.flatMap fun b => b.lines.map (·.reg)

end Lowering.State

/-- No two instructions of the function at hand have one register, and no further instruction will
get one of theirs. -/
structure Numbered (s : State) : Prop where
  nodup : s.regs.Nodup
  below : ∀ reg ∈ s.regs, reg < s.nextReg

theorem map_reg_number (n : Nat) (code : List Instr) :
    (number n code).map (·.reg) = List.range' n code.length := by
  induction code generalizing n with
  | nil => rfl
  | cons instr rest ih => rw [number, List.map_cons, ih, List.length_cons, List.range'_succ]

theorem perm_slotsOf_workOf (lines : List Line) : (slotsOf lines ++ workOf lines).Perm lines :=
  List.filter_append_perm _ _

theorem Added.regs {lines : List Line} (h : Added s lines s') :
    s'.regs.Perm (s.regs ++ lines.map (·.reg)) := by
  cases h with
  | first hdone hdone' hblock => simp [State.regs, State.blocks, hdone, hdone', hblock]
  | @later entry rest hdone hdone' hblock =>
    have hlines := (perm_slotsOf_workOf lines).map (·.reg)
    rw [List.map_append] at hlines
    simp only [State.regs, State.blocks, hdone, hdone', hblock, List.cons_append, List.flatMap_cons,
      List.flatMap_append, List.flatMap_nil, List.map_append, List.append_assoc, List.append_nil]
    refine List.Perm.append_left _ ?_
    refine (List.perm_append_comm_assoc _ _ _).trans (List.Perm.append_left _ ?_)
    exact (List.perm_append_comm_assoc _ _ _).trans (hlines.append_left _)

/-- No register is set twice. -/
theorem Step.numbered (h : Step Γ T s s') (hs : Numbered s) : Numbered s' := by
  cases h with
  | @code _ code _ hemitted =>
    have hregs := hemitted.added.regs
    rw [map_reg_number] at hregs
    refine ⟨hregs.nodup_iff.mpr ?_, fun reg hreg => ?_⟩
    · refine List.nodup_append.mpr ⟨hs.nodup, List.nodup_range', fun reg hreg reg' hreg' heq => ?_⟩
      have := hs.below reg hreg
      have := List.mem_range'_1.mp hreg'
      omega
    · rw [hemitted.nextReg]
      rcases List.mem_append.mp (hregs.mem_iff.mp hreg) with hreg | hreg
      · exact Nat.lt_of_lt_of_le (hs.below reg hreg) (Nat.le_add_right _ _)
      · exact (List.mem_range'_1.mp hreg).2
  | reserve => exact ⟨hs.nodup, hs.below⟩
  | @finish term =>
    have hregs : (s.ended term).regs = s.regs := by simp [State.regs, State.ended]
    exact ⟨hregs ▸ hs.nodup, hregs ▸ hs.below⟩
  | @start id stem =>
    have hregs : (s.started id stem).regs = s.regs := by
      simp [State.regs, State.started, Block.empty]
    exact ⟨hregs ▸ hs.nodup, hregs ▸ hs.below⟩

theorem Steps.numbered (h : Steps Γ T s s') (hs : Numbered s) : Numbered s' :=
  h.keeps (fun _ _ => Step.numbered) hs

end

end Oberlet
