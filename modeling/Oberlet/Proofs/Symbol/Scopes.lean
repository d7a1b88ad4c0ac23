import Mathlib.Data.Finmap
import Oberlet.Proofs.Stepwise
import Oberlet.Symbol.Table

/-!
# Symbol tables as stacks of finite maps

A symbol table behaves as a stack of finite maps from names to symbols, whatever operations are
carried out on it and whether or not they succeed. The stack is described by a relation: which
answers an operation may give, and which stacks it may lead to.
-/

namespace Oberlet

open SymbolTable (Op Reply)

/-! ## Stacks of finite maps -/

/-- What the names of one scope are bound to. -/
abbrev Bindings := Finmap fun _ : String => Symbol

/-- A stack of finite maps, the innermost first. -/
abbrev Scopes := List Bindings

namespace Scopes

def initial : Scopes :=
  [Subprogram.builtins.foldr (fun s bindings => bindings.insert s.name (.proc s)) ∅]

/-- What a name stands for: its symbol in the innermost map that binds it. -/
inductive Resolves (name : String) : Scopes → Option Symbol → Prop
  | unbound {scopes : Scopes} : (∀ bindings ∈ scopes, name ∉ bindings) → Resolves name scopes none
  | bound {inner outer : Scopes} {bindings : Bindings} {symbol : Symbol} :
      (∀ hidden ∈ inner, name ∉ hidden) → bindings.lookup name = some symbol →
      Resolves name (inner ++ bindings :: outer) (some symbol)

/-- One operation on a stack of finite maps, with its answer and the stack behind it. -/
inductive Step : Scopes → Op → Reply → Scopes → Prop
  | enter {scopes : Scopes} : Step scopes .enter .done (∅ :: scopes)
  | exit {top below : Bindings} {outer : Scopes} :
      Step (top :: below :: outer) .exit .done (below :: outer)
  | exitBottom {bottom : Bindings} : Step [bottom] .exit (.broken .universeExited) [bottom]
  | define {top : Bindings} {outer : Scopes} {symbol : Symbol} : symbol.name ∉ top →
      Step (top :: outer) (.define symbol) .done (top.insert symbol.name symbol :: outer)
  | redefine {top : Bindings} {outer : Scopes} {symbol existing : Symbol} :
      top.lookup symbol.name = some existing →
      Step (top :: outer) (.define symbol) (.refused (SymbolTable.duplicate existing symbol))
        (top :: outer)
  | lookup {scopes : Scopes} {name : String} {found : Option Symbol} :
      Resolves name scopes found → Step scopes (.lookup name) (.found found) scopes
  | lookupLocal {top : Bindings} {outer : Scopes} {name : String} :
      Step (top :: outer) (.lookupLocal name) (.found (top.lookup name)) (top :: outer)

inductive Run : Scopes → List Op → List Reply → Scopes → Prop
  | nil {scopes : Scopes} : Run scopes [] [] scopes
  | cons {scopes next last : Scopes} {op : Op} {reply : Reply} {ops : List Op}
      {replies : List Reply} : Step scopes op reply next → Run next ops replies last →
      Run scopes (op :: ops) (reply :: replies) last

/-- The built-in subprograms are bound in the bottom map. -/
def Grounded (scopes : Scopes) : Prop :=
  ∃ bottom ∈ scopes.getLast?, ∀ s ∈ Subprogram.builtins, bottom.lookup s.name = some (.proc s)

theorem grounded_singleton {bottom : Bindings} : Grounded [bottom] ↔
    ∀ s ∈ Subprogram.builtins, bottom.lookup s.name = some (.proc s) := by
  simp [Grounded]

theorem grounded_initial : initial.Grounded := grounded_singleton.mpr (by decide)

theorem grounded_cons {bindings below : Bindings} {outer : Scopes} :
    Grounded (bindings :: below :: outer) ↔ Grounded (below :: outer) := by
  rw [Grounded, Grounded, List.getLast?_cons_cons]

theorem Grounded.length_pos {scopes : Scopes} (h : scopes.Grounded) : 1 ≤ scopes.length := by
  obtain ⟨bottom, hbottom, -⟩ := h
  exact List.length_pos_of_mem (List.mem_of_getLast? hbottom)

/-- The built-in subprograms stay bound in the bottom map. -/
theorem Step.grounded {scopes next : Scopes} {op : Op} {reply : Reply}
    (h : Step scopes op reply next) (hscopes : scopes.Grounded) : next.Grounded := by
  cases h with
  | enter =>
    cases scopes with
    | nil => exact absurd hscopes.length_pos (by simp)
    | cons top outer => exact grounded_cons.mpr hscopes
  | exit => exact grounded_cons.mp hscopes
  | exitBottom => exact hscopes
  | @define top outer symbol hfree =>
    cases outer with
    | cons below outer => exact grounded_cons.mpr (grounded_cons.mp hscopes)
    | nil =>
      -- a name that can be bound in the bottom map is not that of a built-in
      have hbuiltins := grounded_singleton.mp hscopes
      refine grounded_singleton.mpr fun s hs => ?_
      have hne : s.name ≠ symbol.name := fun heq =>
        hfree (heq ▸ Finmap.mem_of_lookup_eq_some (hbuiltins s hs))
      rw [Finmap.lookup_insert_of_ne _ hne, hbuiltins s hs]
  | redefine => exact hscopes
  | lookup => exact hscopes
  | lookupLocal => exact hscopes

theorem Run.grounded {scopes last : Scopes} {ops : List Op} {replies : List Reply}
    (h : Run scopes ops replies last) (hscopes : scopes.Grounded) : last.Grounded := by
  induction h with
  | nil => exact hscopes
  | cons hstep _ ih => exact ih (hstep.grounded hscopes)

end Scopes

/-! ## The stack of a table -/

/-- The finite map that a frame stands for. -/
def Frame.bindings (frame : Frame) : Bindings :=
  frame.foldr (fun pair bindings => bindings.insert pair.1 pair.2) ∅

theorem Frame.lookup_bindings (frame : Frame) (name : String) :
    frame.bindings.lookup name = List.lookup name frame := by
  induction frame with
  | nil => rfl
  | cons pair rest ih =>
    obtain ⟨key, symbol⟩ := pair
    change ((Frame.bindings rest).insert key symbol).lookup name = _
    rw [List.lookup_cons]
    by_cases h : name = key
    · rw [h, Finmap.lookup_insert, beq_self_eq_true]
    · rw [Finmap.lookup_insert_of_ne _ h, ih, beq_eq_false_iff_ne.mpr h]

theorem Frame.mem_bindings {frame : Frame} {name : String} :
    name ∈ frame.bindings ↔ (List.lookup name frame).isSome := by
  rw [← Finmap.lookup_isSome, frame.lookup_bindings]

theorem Scopes.resolves_findSome? (name : String) (frames : List Frame) :
    Scopes.Resolves name (frames.map Frame.bindings)
      (frames.findSome? fun frame => List.lookup name frame) := by
  induction frames with
  | nil => exact .unbound (by simp)
  | cons frame outer ih =>
    rw [List.findSome?_cons, List.map_cons]
    cases hname : List.lookup name frame with
    | some symbol =>
      exact @Resolves.bound name [] _ _ _ (by simp) ((frame.lookup_bindings name).trans hname)
    | none =>
      have hfree : name ∉ frame.bindings := by simp [Frame.mem_bindings, hname]
      generalize (outer.findSome? fun frame => List.lookup name frame) = found at ih ⊢
      generalize outer.map Frame.bindings = scopes at ih ⊢
      cases ih with
      | unbound h => exact .unbound (List.forall_mem_cons.mpr ⟨hfree, h⟩)
      | bound h hsymbol =>
        exact @Resolves.bound name (_ :: _) _ _ _ (List.forall_mem_cons.mpr ⟨hfree, h⟩) hsymbol

namespace SymbolTable

variable (table : SymbolTable)

def scopes : Scopes := (table.current :: table.outer).map Frame.bindings

theorem length_scopes : table.scopes.length = table.depth := by simp [scopes, depth]

def after (ops : List Op) : SymbolTable := Stepwise.after step table ops

def replies (ops : List Op) : List Reply := Stepwise.replies step table ops

/-- Each operation on a table is a step of the stack. -/
theorem step_scopes (op : Op) :
    Scopes.Step table.scopes op (table.step op).1 (table.step op).2.scopes := by
  obtain ⟨current, outer⟩ := table
  cases op with
  | enter => exact .enter
  | exit =>
    cases outer with
    | nil => exact .exitBottom
    | cons frame outer => exact .exit
  | define symbol =>
    cases hlookup : List.lookup symbol.name current with
    | none =>
      have hdefine : define ⟨current, outer⟩ symbol =
          .ok ⟨(symbol.name, symbol) :: current, outer⟩ := by
        simp [define, lookupLocal, hlookup]
        rfl
      rw [step, hdefine]
      exact .define (by simp [Frame.mem_bindings, hlookup])
    | some existing =>
      have hdefine : define ⟨current, outer⟩ symbol = .error (duplicate existing symbol) := by
        simp [define, lookupLocal, hlookup]
        rfl
      rw [step, hdefine]
      exact .redefine ((current.lookup_bindings _).trans hlookup)
  | lookup name => exact .lookup (Scopes.resolves_findSome? name (current :: outer))
  | lookupLocal name =>
    rw [step, lookupLocal, ← Frame.lookup_bindings]
    exact .lookupLocal

theorem run_scopes (ops : List Op) :
    Scopes.Run table.scopes ops (table.replies ops) (table.after ops).scopes := by
  induction ops generalizing table with
  | nil => exact .nil
  | cons op ops ih => exact .cons (table.step_scopes op) (ih _)

/-! ## Scopes that are left again -/

/-- Operations that leave every scope they enter, and no other. -/
inductive Balanced : List Op → Prop
  | nil : Balanced []
  | cons {op : Op} {ops : List Op} : op ≠ .enter → op ≠ .exit → Balanced ops → Balanced (op :: ops)
  | nest {inner ops : List Op} : Balanced inner → Balanced ops →
      Balanced (.enter :: (inner ++ .exit :: ops))

theorem outer_step {op : Op} (henter : op ≠ .enter) (hexit : op ≠ .exit) :
    (table.step op).2.outer = table.outer := by
  cases op with
  | enter => exact absurd rfl henter
  | exit => exact absurd rfl hexit
  | define symbol =>
    rw [step, define]
    cases table.lookupLocal symbol.name <;> rfl
  | lookup name => rfl
  | lookupLocal name => rfl

theorem exit_of_outer {inside : SymbolTable} (h : inside.outer = table.enter.outer) :
    inside.step .exit = (.done, table) := by
  rw [step, exit, h]
  rfl

theorem outer_after_balanced {ops : List Op} (h : Balanced ops) :
    (table.after ops).outer = table.outer := by
  induction h generalizing table with
  | nil => rfl
  | cons henter hexit _ ih => exact (ih _).trans (table.outer_step henter hexit)
  | @nest inner ops _ _ ihinner ih =>
    have hinside := table.exit_of_outer (ihinner table.enter)
    have hsplit : table.after (.enter :: (inner ++ .exit :: ops)) =
        (((table.enter.after inner).step .exit).2).after ops :=
      Stepwise.after_append step table.enter inner (.exit :: ops)
    rw [hsplit, hinside]
    exact ih table

/-- What a scope hides comes back when the scope is left. -/
theorem after_scope {inner : List Op} (h : Balanced inner) :
    table.after (.enter :: (inner ++ [.exit])) = table := by
  have hsplit : table.after (.enter :: (inner ++ [.exit])) =
      ((table.enter.after inner).step .exit).2 :=
    Stepwise.after_append step table.enter inner [.exit]
  rw [hsplit, table.exit_of_outer (table.enter.outer_after_balanced h)]

/-! ## Refinement -/

/-- What the operations on a table do, in terms of its stack of finite maps. -/
structure ActsOnScopes : Prop where
  /-- A name stands for its symbol in the innermost map that binds it. -/
  lookup : ∀ name, Scopes.Resolves name table.scopes (table.lookup name)
  /-- A name cannot be bound if and only if the innermost map binds it, and then nothing changes. -/
  define : ∀ symbol, ((∃ d, (table.step (.define symbol)).1 = .refused d) ↔
      ∃ top ∈ table.scopes.head?, symbol.name ∈ top) ∧
    ((∃ d, (table.step (.define symbol)).1 = .refused d) → (table.step (.define symbol)).2 = table)
  /-- The bottom scope cannot be left, and the attempt changes nothing. -/
  exit : table.depth = 1 → table.step .exit = (.broken .universeExited, table)
  /-- There always is a scope. -/
  depth : 1 ≤ table.depth
  /-- The bottom scope binds the built-in subprograms. -/
  builtins : table.scopes.Grounded
  /-- What a name stands for does not depend on scopes that have been left. -/
  restored : ∀ inner, Balanced inner → ∀ name,
    (table.after (.enter :: (inner ++ [.exit]))).lookup name = table.lookup name ∧
      (table.after (.enter :: (inner ++ [.exit]))).lookupLocal name = table.lookupLocal name

theorem define_refused_iff (symbol : Symbol) :
    (∃ d, (table.step (.define symbol)).1 = .refused d) ↔
      ∃ top ∈ table.scopes.head?, symbol.name ∈ top := by
  have hhead : table.scopes.head? = some table.current.bindings := rfl
  simp only [hhead, Option.mem_some_iff, exists_eq_left', Frame.mem_bindings]
  rw [step, SymbolTable.define, lookupLocal]
  cases List.lookup symbol.name table.current with
  | none => simp [pure, Except.pure]
  | some existing => simp [throw, throwThe, MonadExceptOf.throw]

theorem step_define_of_refused {symbol : Symbol} {d : Diagnostic}
    (h : (table.step (.define symbol)).1 = .refused d) :
    (table.step (.define symbol)).2 = table := by
  rw [step] at h ⊢
  cases hdefine : table.define symbol with
  | ok extended =>
    rw [hdefine] at h
    cases h
  | error d => rfl

end SymbolTable

/-- Whatever operations are carried out on a new symbol table, it answers as a stack of finite maps
does, and represents that stack. -/
theorem symbol_table_refines_scopes (ops : List Op) :
    Scopes.Run Scopes.initial ops (SymbolTable.initial.replies ops)
        (SymbolTable.initial.after ops).scopes ∧
      (SymbolTable.initial.after ops).ActsOnScopes := by
  have hrun := SymbolTable.initial.run_scopes ops
  have hgrounded := hrun.grounded Scopes.grounded_initial
  refine ⟨hrun, fun name => Scopes.resolves_findSome? name _, fun symbol => ?_,
    fun hdepth => ?_, ?_, hgrounded, fun inner hinner name => ?_⟩
  · refine ⟨SymbolTable.define_refused_iff _ symbol, ?_⟩
    rintro ⟨d, hd⟩
    exact SymbolTable.step_define_of_refused _ hd
  · have houter : (SymbolTable.initial.after ops).outer = [] :=
      List.eq_nil_of_length_eq_zero (Nat.succ.inj hdepth)
    rw [SymbolTable.step, SymbolTable.exit, houter]
    rfl
  · rw [← SymbolTable.length_scopes]
    exact hgrounded.length_pos
  · rw [SymbolTable.after_scope _ hinner]
    exact ⟨rfl, rfl⟩

def lineVariable (line : Int) : Symbol := .var ⟨"x", some ⟨line, 0, line, 1⟩, .integer⟩

/-- A name is hidden in a scope, bound there in vain a second time, and hidden once more in a scope
inside. -/
theorem hidden_name_restored :
    ((SymbolTable.initial.after [.enter, .define (lineVariable 1)]).after
        (.enter :: ([.define (lineVariable 3), .define (lineVariable 4), .enter,
          .define (lineVariable 5), .lookup "x", .exit] ++ [.exit]))).lookup "x" =
      some (lineVariable 1) := by
  have hrestored := (symbol_table_refines_scopes [.enter, .define (lineVariable 1)]).2.restored
    [.define (lineVariable 3), .define (lineVariable 4), .enter, .define (lineVariable 5),
      .lookup "x", .exit]
    (.cons (by simp) (by simp) (.cons (by simp) (by simp)
      (.nest (.cons (by simp) (by simp) (.cons (by simp) (by simp) .nil)) .nil))) "x"
  rw [hrestored.1]
  decide

end Oberlet
