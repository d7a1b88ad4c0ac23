import Oberlet.Annotation

/-!
# What a store knows about a node

The operations of a store are seen through `Annotations.slot`.
-/

namespace Oberlet

/-- Why a node about which something is known cannot be given a type, if so. -/
def Slot.typeRefusal (slot : Slot) (id : Int) (type : DataType) : Option Fault :=
  if id < 0 then some (.invalidNode id)
  else if type = .unknown then some (.unknownType id)
  else if slot.type.isSome then some (.typeTwice id)
  else none

/-- Why a node about which something is known cannot be given symbols, if so. -/
def Slot.symbolsRefusal (slot : Slot) (id : Int) : Option Fault :=
  if id < 0 then some (.invalidNode id)
  else if slot.symbols.isSome then some (.symbolsTwice id)
  else none

theorem Slot.typeRefusal_eq_none_iff {slot : Slot} {id : Int} {type : DataType} :
    slot.typeRefusal id type = none ↔ 0 ≤ id ∧ type ≠ .unknown ∧ slot.type = none := by
  rw [Slot.typeRefusal]
  cases slot.type <;> grind

theorem Slot.symbolsRefusal_eq_none_iff {slot : Slot} {id : Int} :
    slot.symbolsRefusal id = none ↔ 0 ≤ id ∧ slot.symbols = none := by
  rw [Slot.symbolsRefusal]
  cases slot.symbols <;> grind

namespace Annotations

theorem join_getElem?_append_replicate {α : Type} (entries : Array (Option α)) (count i : Nat) :
    (entries ++ Array.replicate count none)[i]?.join = entries[i]?.join := by
  by_cases hi : i < entries.size
  · rw [Array.getElem?_append_left hi]
  · have hsize : entries.size ≤ i := Nat.le_of_not_lt hi
    rw [Array.getElem?_append_right hsize, Array.getElem?_eq_none hsize, Array.getElem?_replicate]
    split <;> rfl

variable (a : Annotations)

theorem slot_of_neg {id : Int} (h : id < 0) : a.slot id = .empty := if_pos h

theorem slot_natCast (i : Nat) : a.slot i = ⟨a.symbols[i]?.join, a.types[i]?.join⟩ :=
  if_neg (by omega)

@[simp] theorem slot_ofSize (size : Nat) (id : Int) : (ofSize size).slot id = .empty := by
  by_cases h : id < 0
  · exact slot_of_neg _ h
  · obtain ⟨i, rfl⟩ := Int.eq_ofNat_of_zero_le (Int.not_lt.mp h)
    rw [slot_natCast, Slot.empty]
    simp only [ofSize, Array.getElem?_replicate, Slot.mk.injEq]
    constructor <;> split <;> rfl

/-- Making room changes nothing. -/
@[simp] theorem slot_grow (index : Nat) (id : Int) : (a.grow index).slot id = a.slot id := by
  simp only [slot, grow, join_getElem?_append_replicate]

theorem lt_size_grow (index : Nat) : index < (a.grow index).types.size := by
  simp only [grow, Array.size_append, Array.size_replicate]
  omega

variable {a} {index : Nat}

theorem slot_setSymbols (h : index < a.types.size) (symbols : List Symbol) (id : Int) :
    (a.setSymbols index symbols).slot id =
      if id = index then { a.slot id with symbols := some symbols } else a.slot id := by
  have h : index < a.symbols.size := a.size_eq ▸ h
  by_cases hid : id < 0
  · rw [if_neg (by omega), slot_of_neg _ hid, slot_of_neg _ hid]
  · obtain ⟨i, rfl⟩ := Int.eq_ofNat_of_zero_le (Int.not_lt.mp hid)
    simp only [slot_natCast, setSymbols, Array.getElem?_setIfInBounds, Int.natCast_inj]
    by_cases hi : i = index
    · simp [hi, h]
    · simp [hi, Ne.symm hi]

theorem slot_setType (h : index < a.types.size) (type : DataType) (id : Int) :
    (a.setType index type).slot id =
      if id = index then { a.slot id with type := some type } else a.slot id := by
  by_cases hid : id < 0
  · rw [if_neg (by omega), slot_of_neg _ hid, slot_of_neg _ hid]
  · obtain ⟨i, rfl⟩ := Int.eq_ofNat_of_zero_le (Int.not_lt.mp hid)
    simp only [slot_natCast, setType, Array.getElem?_setIfInBounds, Int.natCast_inj]
    by_cases hi : i = index
    · simp [hi, h]
    · simp [hi, Ne.symm hi]

/-! ## Writing -/

/-- The store with a type attached to a node, whatever was known about it. -/
def withType (a : Annotations) (index : Nat) (type : DataType) : Annotations :=
  (a.grow index).setType index type

/-- The store with symbols attached to a node, whatever was known about it. -/
def withSymbols (a : Annotations) (index : Nat) (symbols : List Symbol) : Annotations :=
  (a.grow index).setSymbols index symbols

variable (a)

/-- A write changes one half of one slot. -/
theorem slot_withType (index : Nat) (type : DataType) (id : Int) :
    (a.withType index type).slot id =
      if id = index then { a.slot id with type := some type } else a.slot id := by
  rw [withType, slot_setType (a.lt_size_grow index), slot_grow]

theorem slot_withSymbols (index : Nat) (symbols : List Symbol) (id : Int) :
    (a.withSymbols index symbols).slot id =
      if id = index then { a.slot id with symbols := some symbols } else a.slot id := by
  rw [withSymbols, slot_setSymbols (a.lt_size_grow index), slot_grow]

/-- What becomes of a write that is refused or not. -/
inductive Written (a : Annotations) (after : Annotations) :
    Option Fault → Except Fault Unit × Annotations → Prop
  | done : Written a after none (.ok (), after)
  | refused {fault : Fault} {larger : Annotations} : (∀ id, larger.slot id = a.slot id) →
      Written a after (some fault) (.error fault, larger)

/-- Whether a type is written depends on what is known about the node alone. -/
theorem writeType_written (id : Int) (type : DataType) :
    Written a (a.withType id.toNat type) ((a.slot id).typeRefusal id type)
      (a.writeType id type) := by
  simp only [writeType, Slot.typeRefusal, hasType, slot_grow, beq_iff_eq]
  split
  · exact .refused fun _ => rfl
  · split
    · exact .refused (a.slot_grow _)
    · split
      · exact .refused (a.slot_grow _)
      · exact .done

theorem writeSymbols_written (id : Int) (symbols : List Symbol) :
    Written a (a.withSymbols id.toNat symbols) ((a.slot id).symbolsRefusal id)
      (a.writeSymbols id symbols) := by
  simp only [writeSymbols, Slot.symbolsRefusal, hasSymbols, slot_grow]
  split
  · exact .refused fun _ => rfl
  · split
    · exact .refused (a.slot_grow _)
    · exact .done

theorem annotateType_eq (id : Int) (type : DataType) : a.annotateType id type =
    ((a.slot id).typeRefusal id type).elim (.ok (a.withType id.toNat type)) .error := by
  have h := a.writeType_written id type
  rw [annotateType]
  generalize (a.slot id).typeRefusal id type = refusal at h ⊢
  generalize a.writeType id type = written at h ⊢
  cases h <;> rfl

theorem annotateSymbols_eq (id : Int) (symbols : List Symbol) : a.annotateSymbols id symbols =
    ((a.slot id).symbolsRefusal id).elim (.ok (a.withSymbols id.toNat symbols)) .error := by
  have h := a.writeSymbols_written id symbols
  rw [annotateSymbols]
  generalize (a.slot id).symbolsRefusal id = refusal at h ⊢
  generalize a.writeSymbols id symbols = written at h ⊢
  cases h <;> rfl

/-! ## Reading -/

variable {a} {id : Int}

theorem typeOf_eq_ok_iff {type : DataType} :
    a.typeOf id = .ok type ↔ (a.slot id).type = some type := by
  rw [typeOf]
  cases (a.slot id).type <;> simp [pure, Except.pure, throw, throwThe, MonadExceptOf.throw]

theorem mapM_eq_ok_iff {α β ε : Type} {f : α → Except ε β} {view : α → Option β}
    (h : ∀ x y, f x = .ok y ↔ view x = some y) {xs : List α} {ys : List β} :
    xs.mapM f = .ok ys ↔ xs.map view = ys.map some := by
  induction xs generalizing ys with
  | nil => cases ys <;> simp [pure, Except.pure]
  | cons x xs ih =>
    rw [List.mapM_cons, List.map_cons]
    cases ys with
    | nil => cases f x <;> cases xs.mapM f <;> simp [bind, Except.bind, pure, Except.pure]
    | cons y ys =>
      rw [List.map_cons, List.cons_eq_cons, ← h, ← ih]
      cases f x <;> cases xs.mapM f <;> simp [bind, Except.bind, pure, Except.pure]

theorem symbolsOf_eq_ok_iff {α : Type} {view : Symbol → Option α} {values : List α} :
    a.symbolsOf view id = .ok values ↔
      ∃ symbols, (a.slot id).symbols = some symbols ∧ symbols.map view = values.map some := by
  rw [symbolsOf]
  cases (a.slot id).symbols with
  | none => simp [throw, throwThe, MonadExceptOf.throw]
  | some symbols =>
    simp only [Option.some.injEq, exists_eq_left']
    refine mapM_eq_ok_iff fun symbol value => ?_
    cases view symbol <;> simp [pure, Except.pure, throw, throwThe, MonadExceptOf.throw]

end Annotations

end Oberlet
