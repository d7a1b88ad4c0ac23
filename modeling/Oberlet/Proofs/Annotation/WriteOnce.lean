import Oberlet.Proofs.Annotation.Slots
import Oberlet.Proofs.Stepwise

/-!
# The annotation store as a write-once map
-/

namespace Oberlet

open Annotations

namespace Annotations

/-! ## Operations with their answers -/

/-- Whether an operation is about types, and not about symbols. -/
def Op.aboutTypes : Op → Bool
  | .annotateType _ _ | .hasType _ | .typeOf _ => true
  | _ => false

def Op.node : Op → Int
  | .annotateSymbols id _ | .annotateType id _ => id
  | .hasSymbols id | .hasType id => id
  | .symbolsOf _ id | .symbolOf _ id | .typeOf id => id

/-- The type that an operation with its answer has written to a node. -/
def Op.typeWritten (op : Op) (reply : Reply) (id : Int) : Option DataType :=
  match op, reply with
  | .annotateType node type, .done => if node = id then some type else none
  | _, _ => none

/-- The symbols that an operation with its answer has written to a node. -/
def Op.symbolsWritten (op : Op) (reply : Reply) (id : Int) : Option (List Symbol) :=
  match op, reply with
  | .annotateSymbols node symbols, .done => if node = id then some symbols else none
  | _, _ => none

def firstType (id : Int) (history : List (Op × Reply)) : Option DataType :=
  history.findSome? fun entry => entry.1.typeWritten entry.2 id

def firstSymbols (id : Int) (history : List (Op × Reply)) : Option (List Symbol) :=
  history.findSome? fun entry => entry.1.symbolsWritten entry.2 id

variable (a : Annotations)

def after (ops : List Op) : Annotations := Stepwise.after step a ops

def replies (ops : List Op) : List Reply := Stepwise.replies step a ops

/-- A sequence of operations, each with its answer. -/
def history (ops : List Op) : List (Op × Reply) := ops.zip (a.replies ops)

/-! ## One step -/

theorem reply_annotateType (id : Int) (type : DataType) : (a.step (.annotateType id type)).1 =
    ((a.slot id).typeRefusal id type).elim .done .broken := by
  have h := a.writeType_written id type
  rw [step]
  generalize (a.slot id).typeRefusal id type = refusal at h ⊢
  generalize a.writeType id type = written at h ⊢
  cases h <;> rfl

theorem reply_annotateSymbols (id : Int) (symbols : List Symbol) :
    (a.step (.annotateSymbols id symbols)).1 =
      ((a.slot id).symbolsRefusal id).elim .done .broken := by
  have h := a.writeSymbols_written id symbols
  rw [step]
  generalize (a.slot id).symbolsRefusal id = refusal at h ⊢
  generalize a.writeSymbols id symbols = written at h ⊢
  cases h <;> rfl

variable {id : Int} {symbols : List Symbol} {kind : Option Symbol.Kind} {found : List Symbol}

theorem type_accepted_iff {type : DataType} : (a.step (.annotateType id type)).1 = .done ↔
      0 ≤ id ∧ type ≠ .unknown ∧ (a.slot id).type = none := by
  rw [reply_annotateType, ← Slot.typeRefusal_eq_none_iff]
  cases (a.slot id).typeRefusal id type <;> simp

theorem symbols_accepted_iff :
    (a.step (.annotateSymbols id symbols)).1 = .done ↔ 0 ≤ id ∧ (a.slot id).symbols = none := by
  rw [reply_annotateSymbols, ← Slot.symbolsRefusal_eq_none_iff]
  cases (a.slot id).symbolsRefusal id <;> simp

/-- What is known is kept, and what is not known is what the step has written. -/
theorem slot_step (op : Op) (id : Int) : (a.step op).2.slot id =
    ⟨(a.slot id).symbols.or (op.symbolsWritten (a.step op).1 id),
      (a.slot id).type.or (op.typeWritten (a.step op).1 id)⟩ := by
  cases op with
  | annotateSymbols node symbols =>
    have h := a.writeSymbols_written node symbols
    rw [step]
    generalize hrefusal : (a.slot node).symbolsRefusal node = refusal at h
    generalize a.writeSymbols node symbols = written at h ⊢
    cases h with
    | refused hsame => simp [hsame, Reply.of, Op.symbolsWritten, Op.typeWritten]
    | done =>
      obtain ⟨hnode, hfree⟩ := Slot.symbolsRefusal_eq_none_iff.mp hrefusal
      rw [slot_withSymbols, Int.toNat_of_nonneg hnode]
      by_cases hid : id = node
      · simp [hid, hfree, Reply.of, Op.symbolsWritten, Op.typeWritten]
      · simp [hid, Ne.symm hid, Reply.of, Op.symbolsWritten, Op.typeWritten]
  | annotateType node type =>
    have h := a.writeType_written node type
    rw [step]
    generalize hrefusal : (a.slot node).typeRefusal node type = refusal at h
    generalize a.writeType node type = written at h ⊢
    cases h with
    | refused hsame => simp [hsame, Reply.of, Op.symbolsWritten, Op.typeWritten]
    | done =>
      obtain ⟨hnode, -, hfree⟩ := Slot.typeRefusal_eq_none_iff.mp hrefusal
      rw [slot_withType, Int.toNat_of_nonneg hnode]
      by_cases hid : id = node
      · simp [hid, hfree, Reply.of, Op.symbolsWritten, Op.typeWritten]
      · simp [hid, Ne.symm hid, Reply.of, Op.symbolsWritten, Op.typeWritten]
  | _ => simp [step, Op.symbolsWritten, Op.typeWritten]

/-- An operation that fails cannot be noticed afterwards. -/
theorem slot_step_of_broken {fault : Fault} (h : (a.step op).1 = .broken fault) (id : Int) :
    (a.step op).2.slot id = a.slot id := by
  rw [slot_step, h]
  cases op <;> simp [Op.symbolsWritten, Op.typeWritten]

/-! ## Many steps -/

theorem history_cons (op : Op) (ops : List Op) :
    a.history (op :: ops) = (op, (a.step op).1) :: (a.step op).2.history ops := rfl

theorem firstType_cons (id : Int) (op : Op) (reply : Reply) (rest : List (Op × Reply)) :
    firstType id ((op, reply) :: rest) = (op.typeWritten reply id).or (firstType id rest) := by
  rw [firstType, List.findSome?_cons]
  cases op.typeWritten reply id <;> rfl

theorem firstSymbols_cons (id : Int) (op : Op) (reply : Reply) (rest : List (Op × Reply)) :
    firstSymbols id ((op, reply) :: rest) =
      (op.symbolsWritten reply id).or (firstSymbols id rest) := by
  rw [firstSymbols, List.findSome?_cons]
  cases op.symbolsWritten reply id <;> rfl

/-- A node shows what was known of it, or what was first written to it. -/
theorem slot_after (ops : List Op) (id : Int) : (a.after ops).slot id =
    ⟨(a.slot id).symbols.or (firstSymbols id (a.history ops)),
      (a.slot id).type.or (firstType id (a.history ops))⟩ := by
  induction ops generalizing a with
  | nil => simp [after, Stepwise.after, history, firstSymbols, firstType]
  | cons op ops ih =>
    rw [history_cons, firstSymbols_cons, firstType_cons, ← Option.or_assoc, ← Option.or_assoc]
    have hrest := ih (a.step op).2
    rwa [slot_step] at hrest

theorem slot_after_ofSize (size : Nat) (ops : List Op) (id : Int) :
    ((ofSize size).after ops).slot id = ⟨firstSymbols id ((ofSize size).history ops),
      firstType id ((ofSize size).history ops)⟩ := by
  simp [slot_after, Slot.empty]

/-! ## What the answers depend on -/

variable {a} {b : Annotations} {op : Op}

/-- Types and symbols do not meddle with each other. -/
theorem reply_of_types (h : (a.slot op.node).type = (b.slot op.node).type) (hop : op.aboutTypes) :
    (a.step op).1 = (b.step op).1 := by
  rw [Op.node.eq_def] at h
  cases op with
  | annotateType id type => simp only [reply_annotateType, Slot.typeRefusal, h]
  | hasType id => simp only [step, hasType, h]
  | typeOf id => simp only [step, typeOf, h]
  | annotateSymbols | hasSymbols | symbolsOf | symbolOf => cases hop

theorem reply_of_symbols (h : (a.slot op.node).symbols = (b.slot op.node).symbols)
    (hop : op.aboutTypes = false) : (a.step op).1 = (b.step op).1 := by
  rw [Op.node.eq_def] at h
  cases op with
  | annotateSymbols id symbols => simp only [reply_annotateSymbols, Slot.symbolsRefusal, h]
  | hasSymbols id => simp only [step, hasSymbols, h]
  | symbolsOf kind id => simp only [step, symbolsOf, h]
  | symbolOf kind id => simp only [step, symbolOf, symbolsOf, h]
  | annotateType | hasType | typeOf => cases hop

theorem type_step (hop : op.aboutTypes = false) (id : Int) :
    ((a.step op).2.slot id).type = (a.slot id).type := by
  rw [slot_step]
  cases op <;> simp_all [Op.typeWritten, Op.aboutTypes]

theorem symbols_step (hop : op.aboutTypes) (id : Int) :
    ((a.step op).2.slot id).symbols = (a.slot id).symbols := by
  rw [slot_step]
  cases op <;> simp_all [Op.symbolsWritten, Op.aboutTypes]

theorem slot_step_of_ne (h : op.node ≠ id) : (a.step op).2.slot id = a.slot id := by
  rw [slot_step]
  cases op with
  | annotateSymbols node symbols =>
    cases (a.step (.annotateSymbols node symbols)).1 <;>
      simp_all [Op.node, Op.symbolsWritten, Op.typeWritten]
  | annotateType node type =>
    cases (a.step (.annotateType node type)).1 <;>
      simp_all [Op.node, Op.symbolsWritten, Op.typeWritten]
  | _ => simp [Op.symbolsWritten, Op.typeWritten]

theorem reply_of_slot (h : a.slot op.node = b.slot op.node) : (a.step op).1 = (b.step op).1 := by
  cases hop : op.aboutTypes with
  | true => exact reply_of_types (by rw [h]) hop
  | false => exact reply_of_symbols (by rw [h]) hop

theorem step_of_slots {P : Int → Prop} (h : ∀ id, P id → a.slot id = b.slot id) (hop : P op.node) :
    (a.step op).1 = (b.step op).1 ∧ ∀ id, P id → (a.step op).2.slot id = (b.step op).2.slot id := by
  have hreply := reply_of_slot (h op.node hop)
  exact ⟨hreply, fun id hid => by rw [slot_step, slot_step, h id hid, hreply]⟩

/-- The size of a store cannot be observed. -/
theorem replies_of_slots (h : ∀ id, a.slot id = b.slot id) (ops : List Op) :
    a.replies ops = b.replies ops :=
  Stepwise.replies_eq_of_simulation
    (R := fun a b : Annotations => ∀ id, True → a.slot id = b.slot id)
    (fun _ _ op hslots => @step_of_slots _ _ op _ hslots trivial) (fun id _ => h id) ops

theorem history_filter (P : Int → Bool) (a : Annotations) (ops : List Op) :
    a.history (ops.filter fun op => P op.node) =
      (a.history ops).filter fun entry => P entry.1.node := by
  refine Stepwise.history_filter (P := fun op : Op => P op.node)
    (Q := fun a b : Annotations => ∀ id, P id → a.slot id = b.slot id) ?_ ?_ (fun _ _ => rfl) ops
  · exact fun a b op hop h => step_of_slots (P := fun id => P id) h hop
  · intro a b op hop h id hid
    have hne : op.node ≠ id := by
      rintro rfl
      simp [hop] at hid
    rw [slot_step_of_ne hne, h id hid]

theorem replies_types (a : Annotations) (ops : List Op) : a.replies (ops.filter Op.aboutTypes) =
    ((a.history ops).filter fun entry => entry.1.aboutTypes).map Prod.snd := by
  refine Stepwise.replies_filter
    (Q := fun a b : Annotations => ∀ id, (a.slot id).type = (b.slot id).type) ?_ ?_
    (fun _ => rfl) ops
  · intro a b op hop h
    have hreply := reply_of_types (h _) hop
    exact ⟨hreply, fun id => by rw [slot_step, slot_step, h, hreply]⟩
  · exact fun a b op hop h id => (type_step hop id).trans (h id)

theorem replies_symbols (a : Annotations) (ops : List Op) :
    a.replies (ops.filter fun op => !op.aboutTypes) =
      ((a.history ops).filter fun entry => !entry.1.aboutTypes).map Prod.snd := by
  refine Stepwise.replies_filter (P := fun op => !op.aboutTypes)
    (Q := fun a b : Annotations => ∀ id, (a.slot id).symbols = (b.slot id).symbols) ?_ ?_
    (fun _ => rfl) ops
  · intro a b op hop h
    have hreply := reply_of_symbols (h _) (by simpa using hop)
    exact ⟨hreply, fun id => by rw [slot_step, slot_step, h, hreply]⟩
  · exact fun a b op hop h id => (symbols_step (by simpa using hop) id).trans (h id)

/-! ## Observations -/

theorem ofKind?_eq_some_iff {s found : Symbol} :
    Symbol.ofKind? kind s = some found ↔ s = found ∧ ∀ k ∈ kind, found.kind = k := by
  rw [Symbol.ofKind?]
  cases kind with
  | none => simp
  | some k =>
    simp only [Option.all_some, beq_iff_eq, Option.mem_some_iff, forall_eq']
    grind

theorem map_ofKind?_eq_iff : symbols.map (Symbol.ofKind? kind) = found.map some ↔
      symbols = found ∧ ∀ s ∈ found, ∀ k ∈ kind, s.kind = k := by
  induction symbols generalizing found with
  | nil => cases found <;> simp
  | cons s symbols ih =>
    cases found with
    | nil => simp
    | cons s' found =>
      simp only [List.map_cons, List.cons.injEq, List.forall_mem_cons, ih, ofKind?_eq_some_iff]
      grind

theorem symbolsOf_kind_eq_ok_iff : a.symbolsOf (Symbol.ofKind? kind) id = .ok found ↔
      (a.slot id).symbols = some found ∧ ∀ s ∈ found, ∀ k ∈ kind, s.kind = k := by
  simp only [symbolsOf_eq_ok_iff, map_ofKind?_eq_iff]
  constructor
  · rintro ⟨_, hslot, rfl, hkind⟩
    exact ⟨hslot, hkind⟩
  · rintro ⟨hslot, hkind⟩
    exact ⟨found, hslot, rfl, hkind⟩

/-- What can be observed of a node: its type and its symbols, or that it has none. -/
structure Shows (a : Annotations) (id : Int) (type : Option DataType)
    (symbols : Option (List Symbol)) : Prop where
  hasType : a.hasType id = type.isSome
  typeOf : ∀ t, a.typeOf id = .ok t ↔ type = some t
  hasSymbols : a.hasSymbols id = symbols.isSome
  /-- Symbols are given if there are any and all of them are of the kind asked for. There may be an
  empty list of them. -/
  symbolsOfKind : ∀ kind found, a.symbolsOf (Symbol.ofKind? kind) id = .ok found ↔
    symbols = some found ∧ ∀ s ∈ found, ∀ k ∈ kind, s.kind = k
  /-- The same through any view, as of variables or subprograms: each symbol is in its place. -/
  symbolsOf : ∀ {α : Type} (view : Symbol → Option α) (values : List α),
    a.symbolsOf view id = .ok values ↔
      ∃ found, symbols = some found ∧ found.map view = values.map some

theorem shows_slot (a : Annotations) (id : Int) : a.Shows id (a.slot id).type (a.slot id).symbols :=
  ⟨rfl, fun _ => typeOf_eq_ok_iff, rfl, fun _ _ => symbolsOf_kind_eq_ok_iff,
    fun _ _ => symbolsOf_eq_ok_iff⟩

/-- What is true of a store of some initial size behind a sequence of operations. -/
structure WrittenOnce (size : Nat) (ops : List Op) : Prop where
  /-- Every node shows what was first written to it. -/
  first : ∀ id, ((ofSize size).after ops).Shows id (firstType id ((ofSize size).history ops))
    (firstSymbols id ((ofSize size).history ops))
  /-- A type can be written if and only if none was written to the node before. -/
  types : ∀ id type, (((ofSize size).after ops).step (.annotateType id type)).1 = .done ↔
    0 ≤ id ∧ type ≠ .unknown ∧ firstType id ((ofSize size).history ops) = none
  /-- Symbols can be written if and only if none were written to the node before. -/
  symbols : ∀ id symbols, (((ofSize size).after ops).step (.annotateSymbols id symbols)).1 = .done ↔
    0 ≤ id ∧ firstSymbols id ((ofSize size).history ops) = none
  /-- An operation that fails cannot be noticed afterwards. -/
  failed : ∀ op fault, (((ofSize size).after ops).step op).1 = .broken fault → ∀ later,
    (((ofSize size).after ops).step op).2.replies later = ((ofSize size).after ops).replies later
  /-- Types are what they are without the operations about symbols, -/
  types_apart : (ofSize size).replies (ops.filter Op.aboutTypes) =
    (((ofSize size).history ops).filter fun entry => entry.1.aboutTypes).map Prod.snd
  /-- and symbols are what they are without the operations about types. -/
  symbols_apart : (ofSize size).replies (ops.filter fun op => !op.aboutTypes) =
    (((ofSize size).history ops).filter fun entry => !entry.1.aboutTypes).map Prod.snd
  /-- The initial size cannot be noticed. -/
  any_size : ∀ other, (ofSize other).replies ops = (ofSize size).replies ops

end Annotations

/-- Whatever operations are carried out on a new annotation store, and whatever its size, it is a
write-once map from nodes to types and to symbols. -/
theorem annotations_written_once (size : Nat) (ops : List Annotations.Op) :
    Annotations.WrittenOnce size ops := by
  have hslot := slot_after_ofSize size ops
  refine ⟨fun id => ?_, fun id type => ?_, fun id symbols => ?_, fun op fault hop later => ?_,
    replies_types _ ops, replies_symbols _ ops, fun other => ?_⟩
  · have hshows := ((ofSize size).after ops).shows_slot id
    rwa [hslot id] at hshows
  · rw [type_accepted_iff, hslot id]
  · rw [symbols_accepted_iff, hslot id]
  · exact replies_of_slots (slot_step_of_broken _ hop) later
  · exact replies_of_slots (fun id => by simp) ops

-- the store is a larger one although the operation fails
example : ((ofSize 0).step (.annotateType 1 .unknown)).2 = ofSize 2 := by
  decide

end Oberlet
