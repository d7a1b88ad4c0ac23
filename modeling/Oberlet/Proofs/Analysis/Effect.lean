import Oberlet.Proofs.Analysis.Stmt

/-!
# Effects of declarations

An analysis of declarations follows an effect if it finds nothing wrong exactly when the effect is
good, and then leaves the names as the effect does. When something is wrong, all that is said of the
names is that the table is sane.
-/

namespace Oberlet

variable {α β : Type}

/-- What a declaration should do to the names of a frame. -/
structure Effect (α : Type) where
  value : Names → α
  next : Names → Names
  good : Names → Prop
  noted : Names → Finding → Prop

namespace Effect

def pure (a : α) : Effect α := ⟨fun _ => a, fun names => names, fun _ => True, fun _ _ => False⟩

def bind (e : Effect α) (f : α → Effect β) : Effect β where
  value names := (f (e.value names)).value (e.next names)
  next names := (f (e.value names)).next (e.next names)
  good names := e.good names ∧ (f (e.value names)).good (e.next names)
  noted names finding :=
    e.noted names finding ∨ (f (e.value names)).noted (e.next names) finding

def define (symbol : Symbol) : Effect Unit :=
  ⟨fun _ => (), fun names => names.bind symbol, fun names => names symbol.name = none,
    fun _ _ => False⟩

def annotate (node : Node) (symbols : List Symbol) : Effect Unit :=
  ⟨fun _ => (), fun names => names, fun _ => True,
    fun _ finding => finding = .symbols node.id symbols⟩

def demand (p : Prop) : Effect Unit :=
  ⟨fun _ => (), fun names => names, fun _ => p, fun _ _ => False⟩

/-- One effect is as good as another where it has the same value and the same names, and notes at
least as much. -/
structure Refines (e e' : Effect α) (names : Names) : Prop where
  good : e.good names ↔ e'.good names
  value : e.good names → e.value names = e'.value names
  next : e.good names → e.next names = e'.next names
  noted : e.good names → ∀ finding, e'.noted names finding → e.noted names finding

end Effect

namespace Declaring

variable {room room' : Room} {outer : List Frame} {a a' : Analysis}

/-- An analysis of declarations does what an effect says, from one table on. -/
structure Outcome (room : Room) (e : Effect α) (d : Declaring α)
    (table table' : SymbolTable) (r : Report α) : Prop where
  runs : ∀ notes, d ⟨table, notes⟩ = (r.perform notes).map fun p => (p.1, ⟨table', p.2⟩)
  sane : table'.Sane
  outer : table'.outer = table.outer
  fits : Fits True room r.findings
  good : r.errors = [] ↔ e.good table.current.names
  value : r.errors = [] → r.value = e.value table.current.names
  next : r.errors = [] → table'.current.names = e.next table.current.names
  entered : r.errors = [] → ∀ finding, e.noted table.current.names finding → finding ∈ r.findings

/-- An analysis of declarations does what an effect says in every frame that is surrounded by given
ones. -/
def Follows (outer : List Frame) (room : Room) (e : Effect α) (d : Declaring α) : Prop :=
  ∀ table : SymbolTable, table.Sane → table.outer = outer →
    ∃ table' r, Outcome room e d table table' r

theorem Outcome.imp {e e' : Effect α} {d d' : Declaring α} {table table' : SymbolTable}
    {r : Report α}
    (h : Outcome room e d table table' r) (hd : ∀ notes, d' ⟨table, notes⟩ = d ⟨table, notes⟩)
    (hroom : ∀ key, room key ≤ room' key) (he : e.Refines e' table.current.names) :
    Outcome room' e' d' table table' r where
  runs notes := (hd notes).trans (h.runs notes)
  sane := h.sane
  outer := h.outer
  fits := h.fits.mono hroom
  good := h.good.trans he.good
  value herrors := (h.value herrors).trans (he.value (h.good.mp herrors))
  next herrors := (h.next herrors).trans (he.next (h.good.mp herrors))
  entered herrors finding hnoted :=
    h.entered herrors finding (he.noted (h.good.mp herrors) finding hnoted)

/-- Outcomes compose as analyses do. -/
theorem Outcome.bind {e : Effect α} {f : α → Effect β} {d : Declaring α} {k : α → Declaring β}
    {table mid table' : SymbolTable} {r : Report α} {r' : Report β}
    (h : Outcome room e d table mid r) (h' : Outcome room' (f r.value) (k r.value) mid table' r') :
    Outcome (fun key => room key + room' key) (e.bind f) (d >>= k) table table'
      (r.followedBy r') := by
  have hstep (herrors : r.errors = []) : f r.value = f (e.value table.current.names) ∧
      mid.current.names = e.next table.current.names := ⟨by rw [h.value herrors], h.next herrors⟩
  refine ⟨fun notes => ?_, h'.sane, h'.outer.trans h.outer, h.fits.append h'.fits, ?_, ?_, ?_, ?_⟩
  · change Except.bind (d ⟨table, notes⟩) (fun p => k p.1 p.2) = _
    have hseq : r.perform >>= (fun _ => r'.perform) = (r.followedBy r').perform :=
      Report.perform_bind rfl
    rw [h.runs, ← hseq]
    change Except.bind (Except.map _ (Except.map _ (notes.annotations.annotateAll r.findings))) _ =
      Except.map _ (Except.bind (Except.map _ (notes.annotations.annotateAll r.findings)) _)
    cases notes.annotations.annotateAll r.findings with
    | error fault => rfl
    | ok a => exact h'.runs _
  · rw [Report.followedBy, List.append_eq_nil_iff, h.good]
    refine and_congr_right fun hgood => ?_
    obtain ⟨hf, hnames⟩ := hstep (h.good.mpr hgood)
    rw [h'.good, hf, hnames]
  all_goals
    intro herrors
    obtain ⟨herrors, herrors'⟩ := List.append_eq_nil_iff.mp herrors
    obtain ⟨hf, hnames⟩ := hstep herrors
    simp only [Effect.bind, ← hf, ← hnames]
  · exact h'.value herrors'
  · exact h'.next herrors'
  · intro finding hfinding
    exact List.mem_append.mpr
      (hfinding.imp (h.entered herrors finding) (h'.entered herrors' finding))

theorem define_eq (symbol : Symbol) (table : SymbolTable) (notes : Notes) :
    Declaring.define symbol ⟨table, notes⟩ = match table.define symbol with
      | .ok table' => .ok ((), ⟨table', notes⟩)
      | .error d => Declaring.record d ⟨table, notes⟩ := by
  change (match table.define symbol with
    | .ok table' => (set (⟨table', notes⟩ : Analysis) : Declaring Unit)
    | .error d => Declaring.record d) ⟨table, notes⟩ = _
  cases table.define symbol <;> rfl

theorem inFrame_eq (d : Declaring Unit) (table : SymbolTable) (notes : Notes) :
    Declaring.inFrame d ⟨table, notes⟩ = (d ⟨table.enter, notes⟩).bind fun p =>
      p.2.table.exit.bind fun table' => .ok ((), ⟨table', p.2.notes⟩) := by
  change Except.bind (d ⟨table.enter, notes⟩) _ = _
  cases d ⟨table.enter, notes⟩ with
  | error fault => rfl
  | ok p =>
    change ((liftM p.2.table.exit : Declaring SymbolTable) >>= fun table' =>
      set (⟨table', p.2.notes⟩ : Analysis)) p.2 = p.2.table.exit.bind _
    cases p.2.table.exit <;> rfl

theorem of_body_eq_ok {checker : SymbolTable → Checker α} {value : α}
    (h : body checker a = .ok (value, a')) :
    ∃ notes, checker a.table a.notes = .ok (value, notes) ∧ a' = { a with notes } := by
  change Except.bind (checker a.table a.notes)
    (fun p => .ok (p.1, { a with notes := p.2 })) = _ at h
  obtain ⟨p, hrun, ⟨⟩⟩ := bind_eq_ok.mp h
  exact ⟨p.2, hrun, rfl⟩

theorem of_define_eq_ok {symbol : Symbol} (h : define symbol a = .ok ((), a')) :
    a.table.lookupLocal symbol.name = none ∧
        a' = ⟨⟨(symbol.name, symbol) :: a.table.current, a.table.outer⟩, a.notes⟩ ∨
      ∃ existing, a.table.lookupLocal symbol.name = some existing ∧
        record (SymbolTable.duplicate existing symbol) a = .ok ((), a') := by
  rw [define_eq, SymbolTable.define] at h
  cases hname : a.table.lookupLocal symbol.name with
  | none =>
    rw [hname] at h
    cases h
    exact .inl ⟨rfl, rfl⟩
  | some existing =>
    rw [hname] at h
    exact .inr ⟨existing, rfl, h⟩

theorem of_inFrame_eq_ok {d : Declaring Unit} (h : inFrame d a = .ok ((), a')) :
    ∃ inner frame outer, d ⟨a.table.enter, a.notes⟩ = .ok ((), inner) ∧
      inner.table.outer = frame :: outer ∧ a' = ⟨⟨frame, outer⟩, inner.notes⟩ := by
  rw [inFrame_eq] at h
  obtain ⟨p, hinner, h⟩ := bind_eq_ok.mp h
  obtain ⟨table, hexit, ⟨⟩⟩ := bind_eq_ok.mp h
  rw [SymbolTable.exit] at hexit
  cases houter : p.2.table.outer with
  | nil => rw [houter] at hexit; cases hexit
  | cons frame outer =>
    rw [houter] at hexit
    cases hexit
    exact ⟨p.2, frame, outer, hinner, houter, rfl⟩

namespace Follows

theorem imp {e e' : Effect α} {d : Declaring α} (h : Follows outer room e d)
    (hroom : ∀ key, room key ≤ room' key) (he : ∀ names : Names, names.Keyed → e.Refines e' names) :
    Follows outer room' e' d := by
  intro table hsane houter
  obtain ⟨table', r, h⟩ := h table hsane houter
  exact ⟨table', r, h.imp (fun _ => rfl) hroom (he _ (hsane table.current (by simp)).keyed)⟩

theorem pure (a : α) : Follows outer (fun _ => 0) (.pure a) (Pure.pure a) := by
  intro table hsane _
  refine ⟨table, ⟨a, [], []⟩, fun notes => ?_, hsane, rfl, .nil, iff_of_true rfl trivial,
    fun _ => rfl, fun _ => rfl, fun _ _ h => h.elim⟩
  rw [Report.perform_nil]
  rfl

theorem bind {e : Effect α} {f : α → Effect β} {d : Declaring α} {k : α → Declaring β}
    (hd : Follows outer room e d) (hk : ∀ a, Follows outer room' (f a) (k a)) :
    Follows outer (fun key => room key + room' key) (e.bind f) (d >>= k) := by
  intro table hsane houter
  obtain ⟨mid, r, h⟩ := hd table hsane houter
  obtain ⟨table', r', h'⟩ := hk r.value mid h.sane (h.outer.trans houter)
  exact ⟨table', _, h.bind h'⟩

theorem body {checker : SymbolTable → Checker Unit} {good : Names → Prop}
    {noted : Names → Finding → Prop} (h : ∀ table : SymbolTable, table.Sane → table.outer = outer →
      ∃ r : Report Unit, checker table = r.perform ∧ Fits True room r.findings ∧
        (r.errors = [] ↔ good table.current.names) ∧
        (r.errors = [] → ∀ finding, noted table.current.names finding → finding ∈ r.findings)) :
    Follows outer room ⟨fun _ => (), fun names => names, good, noted⟩ (Declaring.body checker) := by
  intro table hsane houter
  obtain ⟨r, hperform, hfits, hiff, hentered⟩ := h table hsane houter
  refine ⟨table, r, fun notes => ?_, hsane, rfl, hfits, hiff, fun _ => rfl, fun _ => rfl, hentered⟩
  rw [← hperform]
  rfl

theorem annotate (node : Node) (symbols : List Symbol) :
    Follows outer (only (node.id, false)) (.annotate node symbols)
      (Declaring.annotate node symbols) :=
  body fun _ _ _ => ⟨_, Report.perform_single (.symbols node.id symbols),
    .single (.symbols node.id symbols) fun _ => trivial, iff_of_true rfl trivial,
    fun _ _ h => List.mem_singleton.mpr h⟩

theorem record (d : Diagnostic) :
    Follows outer (fun _ => 0) (.demand False) (Declaring.record d) :=
  body fun _ _ _ => ⟨_, Report.perform_record d, .nil, by simp, by simp⟩

theorem demand {p : Prop} {b : Bool} (h : b = true ↔ ¬ p) (d : Diagnostic) :
    Follows outer (fun _ => 0) (.demand p) (if b then Declaring.record d else Pure.pure ()) := by
  split
  · refine (record d).imp (fun _ => Nat.le_refl _) fun names _ => ?_
    exact ⟨by simp_all [Effect.demand], fun h => h.elim, fun h => h.elim, fun h => h.elim⟩
  · refine (pure ()).imp (fun _ => Nat.le_refl _) fun names _ => ?_
    exact ⟨by simp_all [Effect.demand, Effect.pure], fun _ => rfl, fun _ => rfl, fun _ _ h => h⟩

theorem define {symbol : Symbol} (hsymbol : symbol.Known) :
    Follows outer (fun _ => 0) (.define symbol) (Declaring.define symbol) := by
  intro table hsane houter
  cases hname : table.lookupLocal symbol.name with
  | none =>
    refine ⟨{ table with current := (symbol.name, symbol) :: table.current }, ⟨(), [], []⟩, ?_, ?_,
      rfl, .nil, ?_, fun _ => rfl, ?_, ?_⟩
    · intro notes
      rw [define_eq, SymbolTable.define, hname, Report.perform_nil]
      rfl
    · intro frame hframe
      rcases List.mem_cons.mp hframe with rfl | hframe
      · exact (hsane table.current (by simp)).cons hsymbol
      · exact hsane frame (List.mem_cons_of_mem _ hframe)
    · exact ⟨fun _ => hname, fun _ => rfl⟩
    · exact fun _ => Frame.names_cons table.current symbol
    · exact fun _ _ h => h.elim
  | some existing =>
    obtain ⟨table', r, h⟩ := record (SymbolTable.duplicate existing symbol) table hsane houter
    refine ⟨table', r, h.imp ?_ (fun _ => Nat.le_refl _) ?_⟩
    · intro notes
      rw [define_eq, SymbolTable.define, hname]
      rfl
    · have : table.current.names symbol.name = some existing := hname
      refine ⟨?_, fun h => h.elim, fun h => h.elim, fun h => h.elim⟩
      simp [Effect.demand, Effect.define, this]

/-- A frame of its own leaves the names as they were. -/
theorem inFrame {e : Names → Effect Unit} {d : Declaring Unit}
    (h : ∀ frame : Frame, Follows (frame :: outer) room (e frame.names) d) :
    Follows outer room ⟨fun _ => (), fun names => names, fun names => (e names).good .empty,
      fun names => (e names).noted .empty⟩ (Declaring.inFrame d) := by
  intro table hsane houter
  obtain ⟨inner, r, h⟩ := h table.current table.enter hsane.enter (by rw [← houter]; rfl)
  refine ⟨table, ⟨(), r.findings, r.errors⟩, ?_, hsane, rfl, h.fits, h.good, fun _ => rfl,
    fun _ => rfl, h.entered⟩
  intro notes
  rw [inFrame_eq, h.runs]
  change Except.bind (Except.map _ (Except.map _ (notes.annotations.annotateAll r.findings))) _ =
    Except.map _ (Except.map _ (notes.annotations.annotateAll r.findings))
  cases notes.annotations.annotateAll r.findings with
  | error fault => rfl
  | ok a =>
    simp only [Except.map, Except.bind, SymbolTable.exit, h.outer, SymbolTable.enter]
    rfl

end Follows

end Declaring

end Oberlet
