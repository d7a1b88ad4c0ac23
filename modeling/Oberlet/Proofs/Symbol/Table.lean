import Oberlet.Proofs.Typing.Module

/-!
# Symbol tables as names
-/

namespace Oberlet

/-! ## Names of frames -/

def Frame.names (frame : Frame) : Names := fun name => frame.lookup name

/-- What names stand for in frames, the inner ones first. -/
def namesOf (frames : List Frame) : Names :=
  fun name => frames.findSome? fun frame => List.lookup name frame

theorem namesOf_cons (frame : Frame) (outer : List Frame) :
    namesOf (frame :: outer) = frame.names.within (namesOf outer) := by
  funext name
  simp only [namesOf, List.findSome?_cons, Names.within, Frame.names]
  cases List.lookup name frame <;> rfl

/-- Looking a name up is asking the frames from the inside out. -/
theorem SymbolTable.lookup_eq (table : SymbolTable) :
    table.lookup = table.current.names.within (namesOf table.outer) :=
  namesOf_cons table.current table.outer

/-- To define a symbol is to bind its name. -/
theorem Frame.names_cons (frame : Frame) (symbol : Symbol) :
    Frame.names ((symbol.name, symbol) :: frame) = frame.names.bind symbol := by
  funext name
  simp only [Frame.names, Names.bind, List.lookup_cons]
  by_cases h : name = symbol.name
  · simp [h]
  · rw [if_neg h, beq_eq_false_iff_ne.mpr h]

variable {frame : Frame} {name : String} {symbol : Symbol} {table : SymbolTable}

theorem SymbolTable.lookup_rebindIn (other : String) :
    List.lookup other (rebindIn name symbol frame) =
      if other = name then (List.lookup other frame).map fun _ => symbol
      else List.lookup other frame := by
  induction frame with
  | nil => simp [rebindIn]
  | cons pair rest ih =>
    obtain ⟨key, value⟩ := pair
    rw [rebindIn]
    by_cases hkey : key = name
    · subst hkey
      by_cases hother : other = key <;> simp [List.lookup_cons, hother, beq_eq_false_iff_ne.mpr]
    · rw [if_neg (by simpa using hkey), List.lookup_cons, List.lookup_cons, ih]
      by_cases hother : other = key
      · simp [hother, hkey]
      · simp [beq_eq_false_iff_ne.mpr hother]

theorem SymbolTable.rebind_eq (h : (table.lookupLocal name).isSome) :
    table.rebind name symbol = ⟨rebindIn name symbol table.current, table.outer⟩ := by
  have h : (List.lookup name table.current).isSome = true := h
  simp [rebind, rebind.inFrames, h]

theorem Frame.names_rebindIn (hname : symbol.name = name) (h : (frame.names name).isSome) :
    Frame.names (SymbolTable.rebindIn name symbol frame) = frame.names.bind symbol := by
  obtain ⟨existing, h⟩ := Option.isSome_iff_exists.mp h
  funext other
  simp only [names, Names.bind, SymbolTable.lookup_rebindIn, hname] at h ⊢
  by_cases hother : other = name <;> simp [hother, h]

/-! ## Tables without unknown types -/

/-- A type of which no part is unknown. -/
def DataType.Known : DataType → Prop
  | .unknown => False
  | .array _ elem => elem.Known
  | _ => True

theorem DataType.Known.ne_unknown {t : DataType} (h : t.Known) : t ≠ .unknown := by
  rintro rfl
  exact h

def Symbol.Known : Symbol → Prop
  | .mod _ _ => True
  | .var v => v.type.Known
  | .proc s => s.result.Known

/-- Every symbol of a frame is under its own name, and its type is known. -/
def Frame.Sane (frame : Frame) : Prop :=
  ∀ name symbol, (name, symbol) ∈ frame → symbol.name = name ∧ symbol.Known

def SymbolTable.Sane (table : SymbolTable) : Prop :=
  ∀ frame ∈ table.current :: table.outer, frame.Sane

theorem mem_of_lookup_eq_some (h : frame.names name = some symbol) : (name, symbol) ∈ frame := by
  induction frame with
  | nil => cases h
  | cons pair rest ih =>
    obtain ⟨key, value⟩ := pair
    rw [Frame.names, List.lookup_cons] at h
    split at h
    · rename_i heq
      cases h
      simp [beq_iff_eq.mp heq]
    · exact List.mem_cons_of_mem _ (ih h)

theorem Frame.Sane.keyed (h : frame.Sane) : frame.names.Keyed :=
  fun name symbol hname => (h name symbol (mem_of_lookup_eq_some hname)).1

/-- What is found in a sane table has a known type. -/
theorem SymbolTable.Sane.lookup (h : table.Sane) (hlookup : table.lookup name = some symbol) :
    symbol.Known := by
  obtain ⟨frame, hframe, hname⟩ := List.exists_of_findSome?_eq_some hlookup
  exact (h frame hframe name symbol (mem_of_lookup_eq_some hname)).2

theorem Frame.Sane.cons (h : frame.Sane) (hsymbol : symbol.Known) :
    Frame.Sane ((symbol.name, symbol) :: frame) := by
  intro name other hmem
  rcases List.mem_cons.mp hmem with heq | hmem
  · cases heq
    exact ⟨rfl, hsymbol⟩
  · exact h name other hmem

theorem Frame.Sane.rebindIn (h : frame.Sane) (hname : symbol.name = name) (hsymbol : symbol.Known) :
    Frame.Sane (SymbolTable.rebindIn name symbol frame) := by
  induction frame with
  | nil => exact h
  | cons pair rest ih =>
    obtain ⟨key, value⟩ := pair
    have hrest : Frame.Sane rest := fun name symbol hmem => h name symbol
      (List.mem_cons_of_mem _ hmem)
    rw [SymbolTable.rebindIn]
    split
    · rename_i hkey
      rw [beq_iff_eq.mp hkey, ← hname]
      exact hrest.cons hsymbol
    · obtain ⟨hkey, hvalue⟩ := h key value (by simp)
      exact hkey ▸ (ih hrest).cons hvalue

theorem SymbolTable.Sane.enter (h : table.Sane) : table.enter.Sane := by
  intro frame hframe
  rcases List.mem_cons.mp hframe with rfl | hframe
  · exact fun name symbol hmem => by cases hmem
  · exact h frame hframe

theorem SymbolTable.sane_initial : SymbolTable.initial.Sane := by
  intro frame hframe name symbol hmem
  simp only [SymbolTable.initial, List.mem_singleton] at hframe
  subst hframe
  obtain ⟨s, hs, heq⟩ := List.mem_map.mp hmem
  cases heq
  refine ⟨rfl, ?_⟩
  simp only [Subprogram.builtins, List.mem_cons, List.not_mem_nil, or_false] at hs
  rcases hs with rfl | rfl | rfl | rfl | rfl | rfl | rfl | rfl | rfl <;> trivial

end Oberlet
