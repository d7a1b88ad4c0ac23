import Mathlib.Data.List.Nodup
import Oberlet.Proofs.Annotation.Slots

/-!
# Findings of the annotation store

The analysis only ever adds to what is known about nodes.
-/

namespace Oberlet

/-- What is made known about a node. -/
inductive Finding
  | type (id : Nat) (type : DataType)
  | symbols (id : Nat) (symbols : List Symbol)

namespace Finding

def id : Finding → Nat
  | type id _ => id
  | symbols id _ => id

/-- What there can be only one of: the type of a node, or the symbols of a node. -/
def key : Finding → Nat × Bool
  | type id _ => (id, true)
  | symbols id _ => (id, false)

/-- No finding says that a type is unknown. -/
def Known : Finding → Prop
  | type _ t => t ≠ .unknown
  | symbols _ _ => True

def fill : Finding → Slot → Slot
  | type _ t, slot => { slot with type := some t }
  | symbols _ ss, slot => { slot with symbols := some ss }

end Finding

namespace Annotations

def enter (a : Annotations) : Finding → Annotations
  | .type id t => a.withType id t
  | .symbols id ss => a.withSymbols id ss

/-- The store with findings made in it, one after the other. -/
def enterAll (a : Annotations) (findings : List Finding) : Annotations := findings.foldl enter a

/-- Attaches to a node what a finding says. -/
def annotate (a : Annotations) : Finding → Except Fault Annotations
  | .type id t => a.annotateType id t
  | .symbols id ss => a.annotateSymbols id ss

def annotateAll (a : Annotations) (findings : List Finding) : Except Fault Annotations :=
  findings.foldlM annotate a

/-- Why a finding cannot be made, if so. -/
def refusal (a : Annotations) : Finding → Option Fault
  | .type id t => (a.slot id).typeRefusal id t
  | .symbols id _ => (a.slot id).symbolsRefusal id

theorem slot_enter (a : Annotations) (finding : Finding) (i : Nat) :
    (a.enter finding).slot i = if i = finding.id then finding.fill (a.slot i) else a.slot i := by
  cases finding with
  | type id t =>
    rw [enter, slot_withType]
    exact if_congr Int.natCast_inj rfl rfl
  | symbols id ss =>
    rw [enter, slot_withSymbols]
    exact if_congr Int.natCast_inj rfl rfl

theorem annotate_eq (a : Annotations) (finding : Finding) :
    a.annotate finding = (a.refusal finding).elim (.ok (a.enter finding)) .error := by
  cases finding with
  | type id t => exact a.annotateType_eq id t
  | symbols id ss => exact a.annotateSymbols_eq id ss

theorem annotateAll_append (a : Annotations) (front back : List Finding) :
    a.annotateAll (front ++ back) = (a.annotateAll front).bind (·.annotateAll back) :=
  List.foldlM_append

variable {a : Annotations} {finding : Finding} {findings : List Finding}

/-- Whether a finding is refused depends on its own key. -/
theorem refusal_enter_of_ne {other : Finding} (hne : finding.key ≠ other.key) :
    (a.enter other).refusal finding = a.refusal finding := by
  by_cases hid : finding.id = other.id
  · cases finding <;> cases other <;>
      simp_all [refusal, slot_enter, Finding.id, Finding.fill, Finding.key, Slot.typeRefusal,
        Slot.symbolsRefusal]
  · cases finding <;> simp_all [refusal, slot_enter, Finding.id]

/-- Findings no two of which have one key are all made, unless one is refused at once. -/
theorem annotateAll_eq (hkeys : (findings.map Finding.key).Nodup) : a.annotateAll findings =
      (findings.findSome? a.refusal).elim (.ok (a.enterAll findings)) .error := by
  induction findings generalizing a with
  | nil => rfl
  | cons first rest ih =>
    rw [List.map_cons, List.nodup_cons] at hkeys
    have hmap : rest.map (a.enter first).refusal = rest.map a.refusal :=
      List.map_congr_left fun finding hfinding => refusal_enter_of_ne fun heq =>
        hkeys.1 (heq ▸ List.mem_map_of_mem hfinding)
    have hrest := congrArg (List.findSome? id) hmap
    rw [List.findSome?_map, List.findSome?_map, Function.id_comp, Function.id_comp] at hrest
    change (a.annotate first).bind (·.annotateAll rest) = _
    rw [annotate_eq, List.findSome?_cons]
    cases a.refusal first with
    | some fault => rfl
    | none => exact (ih hkeys.2).trans (by rw [hrest]; rfl)

/-- Findings about different slots are accepted if and only if each of them is. -/
theorem annotateAll_eq_ok_iff {a' : Annotations} (hkeys : (findings.map Finding.key).Nodup) :
    a.annotateAll findings = .ok a' ↔
      (∀ finding ∈ findings, a.refusal finding = none) ∧ a' = a.enterAll findings := by
  rw [annotateAll_eq hkeys, ← List.findSome?_eq_none_iff]
  cases findings.findSome? a.refusal <;> simp [eq_comm]

/-- What a store holds under a key. -/
def Blank (a : Annotations) : Nat × Bool → Prop
  | (id, true) => (a.slot id).type = none
  | (id, false) => (a.slot id).symbols = none

theorem refusal_eq_none (h : a.Blank finding.key) (hknown : finding.Known) :
    a.refusal finding = none := by
  cases finding with
  | type id t => exact Slot.typeRefusal_eq_none_iff.mpr ⟨by omega, hknown, h⟩
  | symbols id ss => exact Slot.symbolsRefusal_eq_none_iff.mpr ⟨by omega, h⟩

end Annotations

/-! ## Room for findings -/

/-- How many findings there may be under each key. -/
abbrev Room := Nat × Bool → Nat

/-- Room for one finding. -/
def only (key : Nat × Bool) : Room := fun key' => if key' = key then 1 else 0

/-- Room for all findings about nodes with given ids. -/
def roomOf (ids : List Nat) : Room := fun key => ids.count key.1

@[simp] theorem roomOf_append (front back : List Nat) (key : Nat × Bool) :
    roomOf (front ++ back) key = roomOf front key + roomOf back key :=
  List.count_append

@[simp] theorem only_le_roomOf (id : Nat) (kind : Bool) (key : Nat × Bool) :
    only (id, kind) key ≤ roomOf [id] key := by
  rw [only, roomOf]
  split
  · rename_i heq
    simp [heq]
  · exact Nat.zero_le _

theorem roomOf_le_one {ids : List Nat} (h : ids.Nodup) (key : Nat × Bool) : roomOf ids key ≤ 1 :=
  List.nodup_iff_count_le_one.mp h key.1

theorem room_named (id : Nat) (ids : List Nat) (key : Nat × Bool) :
    only (id, false) key + (roomOf ids key + only (id, true) key) ≤
      roomOf ids key + roomOf [id] key := by
  obtain ⟨i, kind⟩ := key
  by_cases hid : i = id <;> cases kind <;> simp [only, roomOf, hid, Nat.add_comm]

/-- Findings for which there is room. If all around them is sane, no type in them is unknown. -/
structure Fits (sane : Prop) (room : Room) (findings : List Finding) : Prop where
  count_le : ∀ key, (findings.map Finding.key).count key ≤ room key
  known : sane → ∀ finding ∈ findings, finding.Known

namespace Fits

variable {sane : Prop} {room room' : Room} {findings findings' : List Finding}

protected theorem nil : Fits sane room [] := ⟨by simp, by simp⟩

theorem single (finding : Finding) (hknown : sane → finding.Known) :
    Fits sane (only finding.key) [finding] := by
  refine ⟨fun key => ?_, by simpa using hknown⟩
  rw [List.map_singleton, only]
  split
  · exact List.count_le_length
  · rename_i hne
    exact Nat.le_of_eq (List.count_eq_zero_of_not_mem (by simpa using hne))

theorem sure (h : Fits sane room findings) (hsane : sane) : Fits True room findings :=
  ⟨h.count_le, fun _ => h.known hsane⟩

theorem mono (h : Fits sane room findings) (hle : ∀ key, room key ≤ room' key) :
    Fits sane room' findings :=
  ⟨fun key => Nat.le_trans (h.count_le key) (hle key), h.known⟩

theorem append (h : Fits sane room findings) (h' : Fits sane room' findings') :
    Fits sane (fun key => room key + room' key) (findings ++ findings') := by
  refine ⟨fun key => ?_, fun hsane => List.forall_mem_append.mpr ⟨h.known hsane, h'.known hsane⟩⟩
  rw [List.map_append, List.count_append]
  exact Nat.add_le_add (h.count_le key) (h'.count_le key)

theorem keys_nodup (h : Fits sane room findings) (hroom : ∀ key, room key ≤ 1) :
    (findings.map Finding.key).Nodup :=
  List.nodup_iff_count_le_one.mpr fun key => Nat.le_trans (h.count_le key) (hroom key)

theorem annotateAll (h : Fits sane room findings) (hsane : sane) (hroom : ∀ key, room key ≤ 1)
    {a : Annotations} (hblank : ∀ key, 0 < room key → a.Blank key) :
    a.annotateAll findings = .ok (a.enterAll findings) := by
  refine (Annotations.annotateAll_eq_ok_iff (h.keys_nodup hroom)).mpr
    ⟨fun finding hfinding => ?_, rfl⟩
  refine Annotations.refusal_eq_none (hblank _ ?_) (h.known hsane finding hfinding)
  exact Nat.lt_of_lt_of_le (List.count_pos_iff.mpr (List.mem_map_of_mem hfinding)) (h.count_le _)

end Fits

namespace Annotations

/-- What a store holds under a key, as a finding. -/
def Holds (a : Annotations) : Finding → Prop
  | .type id t => (a.slot id).type = some t
  | .symbols id ss => (a.slot id).symbols = some ss

theorem holds_enter (a : Annotations) (finding : Finding) : (a.enter finding).Holds finding := by
  cases finding <;> simp [Holds, slot_enter, Finding.id, Finding.fill]

variable {a : Annotations} {finding : Finding} {id : Nat} {α : Type} {view : Symbol → Option α}

theorem holds_enter_of_ne {other : Finding} (hne : finding.key ≠ other.key) (h : a.Holds finding) :
    (a.enter other).Holds finding := by
  by_cases hid : finding.id = other.id
  · cases finding <;> cases other <;>
      simp_all [Holds, slot_enter, Finding.id, Finding.fill, Finding.key]
  · cases finding <;> simp_all [Holds, slot_enter, Finding.id]

/-- Findings about different slots are all held, and what is in other slots is kept. -/
theorem holds_enterAll {findings : List Finding} (hkeys : (findings.map Finding.key).Nodup)
    (h : finding ∈ findings ∨ a.Holds finding ∧ finding.key ∉ findings.map Finding.key) :
    (a.enterAll findings).Holds finding := by
  induction findings generalizing a with
  | nil => simpa [enterAll] using h
  | cons first rest ih =>
    rw [List.map_cons, List.nodup_cons] at hkeys
    refine ih (a := a.enter first) hkeys.2 ?_
    rcases h with h | ⟨h, hnot⟩
    · rcases List.mem_cons.mp h with rfl | h
      · exact .inr ⟨holds_enter a finding, hkeys.1⟩
      · exact .inl h
    · rw [List.map_cons, List.mem_cons, not_or] at hnot
      exact .inr ⟨holds_enter_of_ne hnot.1 h, hnot.2⟩

/-! ## Reading what is held -/

theorem typeOf_of_holds {t : DataType} (h : a.Holds (.type id t)) : a.typeOf id = .ok t :=
  typeOf_eq_ok_iff.mpr h

theorem symbolsOf_of_holds {symbols : List Symbol} {values : List α}
    (h : a.Holds (.symbols id symbols)) (hview : symbols.map view = values.map some) :
    a.symbolsOf view id = .ok values :=
  symbolsOf_eq_ok_iff.mpr ⟨symbols, h, hview⟩

theorem symbolOf_of_holds {symbol : Symbol} {value : α} (h : a.Holds (.symbols id [symbol]))
    (hview : view symbol = some value) : a.symbolOf view id = .ok value := by
  have hvalues : a.symbolsOf view id = .ok [value] := symbolsOf_of_holds h (by simp [hview])
  simp only [symbolOf, hvalues]
  rfl

end Annotations

end Oberlet
