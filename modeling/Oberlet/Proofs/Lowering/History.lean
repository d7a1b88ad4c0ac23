import Oberlet.Proofs.Lowering.Step

/-!
# What is done to blocks

A state of code generation remembers all that was done to blocks.
-/

namespace Oberlet

open Llvm Lowering Lower

/-- What was done to the block with a given id. -/
def editsOf (edits : List (Nat × Edit)) (id : Nat) : List Edit :=
  (edits.filter fun edit => edit.1 = id).map (·.2)

section

variable {edits more : List (Nat × Edit)} {id id' : Nat} {lines : List Line}

theorem editsOf_append : editsOf (edits ++ more) id = editsOf edits id ++ editsOf more id := by
  simp [editsOf]

theorem editsOf_eq_nil (h : ∀ edit ∈ edits, edit.1 ≠ id) : editsOf edits id = [] := by
  rw [editsOf, List.map_eq_nil_iff, List.filter_eq_nil_iff]
  simpa using h

theorem editsOf_append_of_ne (h : ∀ edit ∈ more, edit.1 ≠ id) :
    editsOf (edits ++ more) id = editsOf edits id := by
  rw [editsOf_append, editsOf_eq_nil h, List.append_nil]

theorem editsOf_single (edit : Edit) : editsOf [(id, edit)] id = [edit] := by simp [editsOf]

theorem editsOf_appended :
    editsOf (lines.map fun line => (id, .append line)) id = lines.map .append := by
  induction lines with
  | nil => rfl
  | cons line rest ih => simpa [editsOf] using ih

theorem editsOf_spread (hne : id ≠ id') :
    editsOf (lines.map fun line => (if line.instr.isSlot then id else id', .append line)) id =
        (slotsOf lines).map .append ∧
      editsOf (lines.map fun line => (if line.instr.isSlot then id else id', .append line)) id' =
        (workOf lines).map .append := by
  induction lines with
  | nil => exact ⟨rfl, rfl⟩
  | cons line rest ih =>
    cases hslot : line.instr.isSlot with
    | true => simpa [editsOf, slotsOf, workOf, hslot, hne] using ih
    | false => simpa [editsOf, slotsOf, workOf, hslot, hne.symm] using ih

end

/-- What was done to a block: it was started and got its lines. If it was ended, that was once, and
only the lines `late` came after it. -/
inductive Llvm.Block.Made (b : Block) (late : List Line) : List Edit → Prop
  | still : b.term = none → late = [] → Made b late (.start :: b.lines.map .append)
  | ended {front : List Line} {term : Terminator} : b.term = some term → b.lines = front ++ late →
      Made b late (.start :: (front.map .append ++ .finish term :: late.map .append))

namespace Llvm.Block.Made

variable {b : Block} {late : List Line} {history : List Edit}

theorem append (h : b.Made late history) (hopen : b.term = none) (lines : List Line) :
    Made { b with lines := b.lines ++ lines } [] (history ++ lines.map .append) := by
  cases h with
  | still =>
    rw [List.cons_append, ← List.map_append]
    exact .still hopen rfl
  | ended hterm => cases hopen.symm.trans hterm

theorem finish (h : b.Made late history) (hopen : b.term = none) (term : Terminator) :
    Made { b with term := some term } [] (history ++ [.finish term]) := by
  cases h with
  | still => exact .ended rfl (List.append_nil _).symm
  | ended hterm => cases hopen.symm.trans hterm

/-- Only stack slots come after a block was ended. -/
theorem appendLate (h : b.Made late history) (hended : b.term.isSome) (lines : List Line) :
    Made { b with lines := b.lines ++ lines } (late ++ lines) (history ++ lines.map .append) := by
  cases h with
  | still hterm => simp [hterm] at hended
  | @ended front term hterm hlines =>
    have hhistory : Edit.start :: (front.map .append ++ .finish term :: late.map .append) ++
        lines.map .append =
          .start :: (front.map .append ++ .finish term :: (late ++ lines).map .append) := by
      simp
    rw [hhistory]
    exact .ended hterm (by rw [hlines, List.append_assoc])

end Llvm.Block.Made

/-- What was done to the blocks of a function. Only the first one got lines after its end, and those
are stack slots. -/
def Told (edits : List (Nat × Edit)) : List Block → Prop
  | [] => True
  | entry :: rest =>
    (∃ late, (∀ line ∈ late, line.instr.isSlot) ∧ entry.Made late (editsOf edits entry.id)) ∧
      ∀ b ∈ rest, b.Made [] (editsOf edits b.id)

theorem Told.append {edits more : List (Nat × Edit)} {blocks : List Block} (h : Told edits blocks)
    (hmore : ∀ edit ∈ more, ∀ b ∈ blocks, edit.1 ≠ b.id) : Told (edits ++ more) blocks := by
  have hsame (b : Block) (hb : b ∈ blocks) : editsOf (edits ++ more) b.id = editsOf edits b.id :=
    editsOf_append_of_ne fun edit hedit => hmore edit hedit b hb
  cases blocks with
  | nil => trivial
  | cons entry rest =>
    refine ⟨?_, fun b hb => ?_⟩
    · rw [hsame entry List.mem_cons_self]
      exact h.1
    · rw [hsame b (List.mem_cons_of_mem _ hb)]
      exact h.2 b hb

section

variable {edits : List (Nat × Edit)} {front rest : List Block} {b entry : Block}

theorem Told.concat (h : Told edits front) (hb : b.Made [] (editsOf edits b.id)) :
    Told edits (front ++ [b]) := by
  cases front with
  | nil => exact ⟨⟨[], List.forall_mem_nil _, hb⟩, List.forall_mem_nil _⟩
  | cons => exact ⟨h.1, List.forall_mem_append.mpr ⟨h.2, List.forall_mem_singleton.mpr hb⟩⟩

theorem Told.of_concat (h : Told edits (front ++ [b])) :
    Told edits front ∧ ∃ late, b.Made late (editsOf edits b.id) := by
  cases front with
  | nil => exact ⟨trivial, h.1.imp fun _ hlate => hlate.2⟩
  | cons =>
    obtain ⟨hrest, hb⟩ := List.forall_mem_append.mp h.2
    exact ⟨⟨h.1, hrest⟩, [], hb b (List.mem_singleton_self b)⟩

theorem Told.spread {last : Nat} (h : Told edits (entry :: rest)) (hended : entry.term.isSome)
    (hne : entry.id ≠ last) (hrest : ∀ b ∈ rest, b.id ≠ entry.id ∧ b.id ≠ last)
    (lines : List Line) :
    Told (edits ++ lines.map fun line => (if line.instr.isSlot then entry.id else last,
        .append line)) ({ entry with lines := entry.lines ++ slotsOf lines } :: rest) := by
  obtain ⟨⟨late, hlate, hmade⟩, htold⟩ := h
  refine ⟨⟨late ++ slotsOf lines, List.forall_mem_append.mpr ⟨hlate, ?_⟩, ?_⟩, fun b hb => ?_⟩
  · exact fun line hline => (List.mem_filter.mp hline).2
  · rw [editsOf_append, (editsOf_spread hne).1]
    exact hmade.appendLate hended _
  · rw [editsOf_append_of_ne]
    · exact htold b hb
    · intro edit hedit
      obtain ⟨line, -, rfl⟩ := List.mem_map.mp hedit
      dsimp only
      split
      · exact (hrest b hb).1.symm
      · exact (hrest b hb).2.symm

end

/-- All that was done to blocks from the id `base` on was done to those of the function at hand, and
all of them but the last were ended. -/
structure Chronicled (base : Nat) (s : State) : Prop where
  owners : ∀ edit ∈ s.edits, edit.1 ∈ s.ids ∨ edit.1 < base
  ended : ∀ b ∈ s.done, b.term.isSome
  told : Told s.edits s.blocks

section

variable {Γ : FunctionSetting} {T : Nat → Prop} {s s' : State} {base : Nat}

theorem Step.ids (h : Step Γ T s s') : s.ids <+: s'.ids := by
  cases h with
  | code hopen hemitted =>
    rw [(hemitted.continues hopen).ids]
    exact List.prefix_append _ _
  | reserve => exact List.prefix_rfl
  | finish hopen =>
    rw [(Continues.finish hopen _).ids]
    exact List.prefix_append _ _
  | start =>
    rw [(Continues.start s _ _).ids]
    exact List.prefix_append _ _

theorem Step.edits (h : Step Γ T s s') :
    ∃ more, s'.edits = s.edits ++ more ∧ ∀ edit ∈ more, edit.1 ∈ s'.ids := by
  have hlast (s : State) : s.block.id ∈ s.ids := by simp [State.ids]
  cases h with
  | code hopen hemitted =>
    have hids : s'.ids = s.ids := by rw [(hemitted.continues hopen).ids, List.append_nil]
    rw [hids]
    cases hemitted.added with
    | first _ _ _ hedits =>
      refine ⟨_, hedits, fun edit hedit => ?_⟩
      obtain ⟨line, -, rfl⟩ := List.mem_map.mp hedit
      exact hlast s
    | @later entry rest hdone _ _ hedits =>
      refine ⟨_, hedits, fun edit hedit => ?_⟩
      obtain ⟨line, -, rfl⟩ := List.mem_map.mp hedit
      dsimp only
      split
      · simp [State.ids, State.blocks, hdone]
      · exact hlast s
  | reserve => exact ⟨[], (List.append_nil _).symm, by simp⟩
  | @finish term => exact ⟨_, rfl, List.forall_mem_singleton.mpr (hlast (s.ended term))⟩
  | @start id stem => exact ⟨_, rfl, List.forall_mem_singleton.mpr (hlast (s.started id stem))⟩

theorem Lowering.State.block_id_ne (hnodup : s.ids.Nodup) : ∀ b ∈ s.done, s.block.id ≠ b.id := by
  rw [State.ids, State.blocks, List.map_append, List.nodup_append] at hnodup
  exact fun b hb => (hnodup.2.2 b.id (List.mem_map_of_mem hb) s.block.id (by simp)).symm

theorem Lowering.State.entry_id_ne {entry : Block} {rest : List Block}
    (hdone : s.done = entry :: rest) (hnodup : s.ids.Nodup) : ∀ b ∈ rest, b.id ≠ entry.id := by
  rw [State.ids, State.blocks, hdone, List.cons_append, List.map_cons, List.nodup_cons] at hnodup
  exact fun b hb heq => hnodup.1 (heq ▸ List.mem_map_of_mem (List.mem_append_left _ hb))

theorem Step.chronicled (h : Step Γ T s s') (hs : Chronicled base s) (hnodup : s'.ids.Nodup)
    (hbase : ∀ id ∈ s'.ids, base ≤ id) : Chronicled base s' := by
  have howners : ∀ edit ∈ s'.edits, edit.1 ∈ s'.ids ∨ edit.1 < base := by
    obtain ⟨more, hmore, hids⟩ := h.edits
    rw [hmore]
    refine List.forall_mem_append.mpr ⟨fun edit hedit => ?_, fun edit hedit => ?_⟩
    · exact (hs.owners edit hedit).imp_left fun hmem => h.ids.subset hmem
    · exact .inl (hids edit hedit)
  have hnodup' : s.ids.Nodup := h.ids.sublist.nodup hnodup
  have hne := s.block_id_ne hnodup'
  have hended := hs.ended
  obtain ⟨hfront, late, hmade⟩ := hs.told.of_concat
  cases h with
  | @code _ code hopen hemitted =>
    cases hemitted.added with
    | first _ hdone' hblock hedits =>
      refine ⟨howners, by simp [hdone'], ?_⟩
      rw [State.blocks, hdone', hblock, hedits]
      refine Told.concat trivial ?_
      rw [editsOf_append, editsOf_appended]
      exact hmade.append hopen _
    | @later entry rest hdone hdone' hblock hedits =>
      rw [hdone, List.forall_mem_cons] at hended hne
      rw [hdone] at hfront
      have hrest (b : Block) (hb : b ∈ rest) : b.id ≠ entry.id ∧ b.id ≠ s.block.id :=
        ⟨s.entry_id_ne hdone hnodup' b hb, (hne.2 b hb).symm⟩
      refine ⟨howners, ?_, ?_⟩
      · rw [hdone', List.forall_mem_cons]
        exact hended
      · rw [State.blocks, hdone', hblock, hedits]
        refine (hfront.spread hended.1 hne.1.symm hrest _).concat ?_
        dsimp only
        rw [editsOf_append, (editsOf_spread hne.1.symm).2]
        exact hmade.append hopen _
  | reserve => exact ⟨howners, hs.ended, hs.told⟩
  | @finish term hopen =>
    refine ⟨howners, hended, (hfront.append (List.forall_mem_singleton.mpr hne)).concat ?_⟩
    change (Block.mk _ _ _ _).Made [] (editsOf (s.edits ++ [(s.block.id, .finish term)]) s.block.id)
    rw [editsOf_append, editsOf_single]
    exact hmade.finish hopen term
  | @start id stem hlast =>
    have hids : (s.started id stem).ids = s.ids ++ [id] := (Continues.start s id stem).ids
    rw [hids] at hnodup hbase
    have hfresh : id ∉ s.ids := fun hmem =>
      (List.nodup_append.mp hnodup).2.2 id hmem id (by simp) rfl
    have hnone : editsOf s.edits id = [] := by
      refine editsOf_eq_nil fun edit hedit heq => ?_
      rcases hs.owners edit hedit with hmem | hlt
      · exact hfresh (heq ▸ hmem)
      · have := hbase id (by simp)
        omega
    have htold : Told (s.edits ++ [(id, .start)]) s.blocks := by
      refine hs.told.append (List.forall_mem_singleton.mpr fun b hb heq => hfresh ?_)
      have heq : id = b.id := heq
      rw [heq]
      exact List.mem_map_of_mem hb
    refine ⟨howners, List.forall_mem_append.mpr ⟨hended, List.forall_mem_singleton.mpr hlast⟩,
      htold.concat ?_⟩
    change (Block.empty id stem).Made [] (editsOf (s.edits ++ [(id, .start)]) id)
    rw [editsOf_append, hnone, editsOf_single]
    exact .still rfl rfl

theorem Steps.ids (h : Steps Γ T s s') : s.ids <+: s'.ids := by
  induction h with
  | refl => exact List.prefix_rfl
  | tail _ hstep ih => exact ih.trans hstep.ids

/-- Whatever steps are taken, each block was started, got instructions, and was ended. -/
theorem Steps.chronicled (h : Steps Γ T s s') (hs : Chronicled base s) (hnodup : s'.ids.Nodup)
    (hbase : ∀ id ∈ s'.ids, base ≤ id) : Chronicled base s' := by
  induction h with
  | refl => exact hs
  | tail _ hstep ih =>
    have hids := hstep.ids
    exact hstep.chronicled (ih (hids.sublist.nodup hnodup) fun id hid => hbase id (hids.subset hid))
      hnodup hbase

theorem Steps.edits (h : Steps Γ T s s') :
    ∃ more, s'.edits = s.edits ++ more ∧ ∀ edit ∈ more, edit.1 ∈ s'.ids := by
  induction h with
  | refl => exact ⟨[], (List.append_nil _).symm, by simp⟩
  | tail _ hstep ih =>
    obtain ⟨more, hmore, hids⟩ := ih
    obtain ⟨last, hlast, hids'⟩ := hstep.edits
    refine ⟨more ++ last, by rw [hlast, hmore, List.append_assoc], fun edit hedit => ?_⟩
    rcases List.mem_append.mp hedit with hedit | hedit
    · exact hstep.ids.subset (hids edit hedit)
    · exact hids' edit hedit

end

end Oberlet
