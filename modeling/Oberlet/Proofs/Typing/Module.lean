import Mathlib.Data.List.Nodup
import Oberlet.Proofs.Typing.Rules

/-!
# The names of a module
-/

namespace Oberlet

open SubprogramDecl

namespace Names

variable {names : Names} {symbol : Symbol} {name : String}

/-! ## Binding -/

@[simp] theorem bind_self (names : Names) (symbol : Symbol) :
    names.bind symbol symbol.name = some symbol := by simp [bind]

theorem bind_of_ne (h : name ≠ symbol.name) : names.bind symbol name = names name := by
  simp [bind, h]

@[simp] theorem bind_eq_none :
    names.bind symbol name = none ↔ name ≠ symbol.name ∧ names name = none := by
  by_cases h : name = symbol.name <;> simp [bind, h]

variable {symbols : List Symbol}

theorem foldl_bind_eq_none {name : String} : symbols.foldl bind names name = none ↔
      (∀ symbol ∈ symbols, name ≠ symbol.name) ∧ names name = none := by
  induction symbols generalizing names with
  | nil => simp
  | cons symbol rest ih =>
    simp only [List.foldl_cons, ih, bind_eq_none, List.forall_mem_cons]
    exact ⟨fun ⟨hrest, hne, hnone⟩ => ⟨⟨hne, hrest⟩, hnone⟩,
      fun ⟨⟨hne, hrest⟩, hnone⟩ => ⟨hrest, hne, hnone⟩⟩

/-- Every name that stands for anything stands for a symbol of that name. -/
def Keyed (names : Names) : Prop := ∀ name symbol, names name = some symbol → symbol.name = name

theorem Keyed.bind (h : names.Keyed) (symbol : Symbol) : (names.bind symbol).Keyed := by
  intro name other hname
  by_cases hself : name = symbol.name
  · subst hself
    rw [bind_self] at hname
    cases hname
    rfl
  · rw [bind_of_ne hself] at hname
    exact h name other hname

theorem mem_of_foldl_bind {name : String} (h : symbols.foldl bind names name = some symbol) :
    symbol ∈ symbols ∧ symbol.name = name ∨ names name = some symbol := by
  induction symbols generalizing names with
  | nil => exact .inr h
  | cons first rest ih =>
    rcases ih h with ⟨hmem, hname⟩ | hfirst
    · exact .inl ⟨List.mem_cons_of_mem _ hmem, hname⟩
    · by_cases hself : name = first.name
      · subst hself
        rw [bind_self] at hfirst
        cases hfirst
        exact .inl ⟨by simp, rfl⟩
      · rw [bind_of_ne hself] at hfirst
        exact .inr hfirst

theorem mem_of_ofSymbols (h : ofSymbols symbols name = some symbol) :
    symbol ∈ symbols ∧ symbol.name = name := by
  rcases mem_of_foldl_bind h with h | h
  · exact h
  · cases h

theorem mem_of_ofVars {decls : List VarDecl} (h : ofVars decls name = some symbol) :
    ∃ v ∈ variablesOf decls, symbol = .var v ∧ v.name = name := by
  obtain ⟨hmem, hname⟩ := mem_of_ofSymbols h
  obtain ⟨v, hv, rfl⟩ := List.mem_map.mp hmem
  exact ⟨v, hv, rfl, hname⟩

theorem keyed_ofSymbols (symbols : List Symbol) : (ofSymbols symbols).Keyed :=
  fun _ _ h => (mem_of_ofSymbols h).2

end Names

/-! ## Declared subprograms -/

variable {frame : Names} {decls back front : List SubprogramDecl} {body : Body} {s : Subprogram}
  {p : Program} {v : Variable}

theorem SubprogramDecl.Allowed.name {decl : SubprogramDecl} (h : decl.Allowed frame)
    (hkeyed : frame.Keyed) : (decl.subprogram frame).name = decl.heading.name.name := by
  cases h with
  | forward => rfl
  | define hname =>
    rw [subprogram, Heading.completed, hname]
    rfl
  | complete hname =>
    rw [subprogram, Heading.completed, hname]
    exact hkeyed _ _ hname

namespace Names

variable {decl : SubprogramDecl} {name : String}

theorem declare_name (h : decl.Allowed frame) (hkeyed : frame.Keyed) :
    frame.declare decl decl.heading.name.name = some (.proc (decl.subprogram frame)) := by
  rw [declare, ← h.name hkeyed]
  exact frame.bind_self (.proc _)

theorem declare_of_ne (h : decl.Allowed frame) (hkeyed : frame.Keyed)
    (hne : name ≠ decl.heading.name.name) : frame.declare decl name = frame name := by
  refine bind_of_ne ?_
  rw [← h.name hkeyed] at hne
  exact hne

/-- The subprograms of a frame are those of a list of declarations, and one is defined if the list
defines it. -/
structure Declared (frame : Names) (decls : List SubprogramDecl) : Prop where
  keyed : frame.Keyed
  proc : ∀ name s, frame name = some (.proc s) → ∃ decl ∈ decls, decl.heading.name.name = name ∧
    s = { decl.heading.subprogram with defined := Program.defines decls name }
  fresh : ∀ name, frame name = none → ∀ decl ∈ decls, decl.heading.name.name ≠ name

end Names

@[simp] theorem SubprogramDecl.heading_forward (node : Node) (heading : Heading) :
    (forward node heading).heading = heading := rfl

@[simp] theorem SubprogramDecl.heading_definition (node : Node) (heading : Heading)
    (vars : List VarDecl) (body : List Stmt) :
    (definition node heading vars body).heading = heading := rfl

@[simp] theorem Program.defines_forward (node : Node) (heading : Heading) (name : String) :
    defines [.forward node heading] name = false := rfl

@[simp] theorem Program.defines_definition (node : Node) (heading : Heading) (vars : List VarDecl)
    (body : List Stmt) (name : String) :
    defines [.definition node heading vars body] name = (heading.name.name == name) := by
  simp [defines]

@[simp] theorem Program.defines_append (front back : List SubprogramDecl) (name : String) :
    defines (front ++ back) name = (defines front name || defines back name) := by
  simp [defines]

theorem Program.defines_eq_false {name : String}
    (h : ∀ decl ∈ decls, decl.heading.name.name ≠ name) : defines decls name = false := by
  rw [defines, List.any_eq_false]
  intro decl hdecl
  have hne := h decl hdecl
  cases decl with
  | forward => simp
  | definition => simpa using hne

def Symbol.withDefined (defined : Bool) : Symbol → Symbol
  | .proc s => .proc { s with defined }
  | symbol => symbol

@[simp] theorem Symbol.withDefined_withDefined (symbol : Symbol) (b b' : Bool) :
    (symbol.withDefined b).withDefined b' = symbol.withDefined b' := by
  cases symbol <;> rfl

namespace Names.Declared

variable {decl : SubprogramDecl} {more : List SubprogramDecl} {name : String} {symbol : Symbol}

theorem ofVars (vars : List VarDecl) : (Names.ofVars vars).Declared [] := by
  refine ⟨keyed_ofSymbols _, ?_, by simp⟩
  intro name s hs
  obtain ⟨v, -, heq, -⟩ := mem_of_ofVars hs
  cases heq

theorem declare_of_some (h : frame.Declared decls) (hdecl : decl.Allowed frame)
    (hname : frame name = some symbol) :
    frame.declare decl name =
      some (symbol.withDefined (Program.defines (decls ++ [decl]) name)) := by
  by_cases hself : name = decl.heading.name.name
  · subst hself
    rw [declare_name hdecl h.keyed]
    cases hdecl with
    | forward hnone =>
      rw [heading_forward, hnone] at hname
      cases hname
    | define hnone =>
      rw [heading_definition, hnone] at hname
      cases hname
    | complete hproc =>
      rw [heading_definition, hproc] at hname
      cases hname
      simp [subprogram, Heading.completed, hproc, Symbol.withDefined]
  · rw [declare_of_ne hdecl h.keyed hself, hname]
    have hnot : Program.defines [decl] name = false :=
      Program.defines_eq_false (by simpa using Ne.symm hself)
    cases symbol with
    | proc s =>
      obtain ⟨_, -, -, hs⟩ := h.proc name s hname
      simp [Symbol.withDefined, hnot, hs]
    | mod => rfl
    | var => rfl

/-- A subprogram that is declared is defined from its definition on. -/
theorem declare (h : frame.Declared decls) (hdecl : decl.Allowed frame) :
    (frame.declare decl).Declared (decls ++ [decl]) := by
  refine ⟨h.keyed.bind _, ?_, ?_⟩
  · intro name s hs
    cases hname : frame name with
    | some symbol =>
      rw [h.declare_of_some hdecl hname] at hs
      cases symbol with
      | proc s' =>
        obtain ⟨other, hother, hheading, heq⟩ := h.proc name s' hname
        cases hs
        exact ⟨other, by simp [hother], hheading, by simp [heq]⟩
      | mod => cases hs
      | var => cases hs
    | none =>
      have hself : name = decl.heading.name.name := by
        by_contra hne
        rw [declare_of_ne hdecl h.keyed hne, hname] at hs
        cases hs
      subst hself
      have hfresh := Program.defines_eq_false (h.fresh _ hname)
      rw [declare_name hdecl h.keyed] at hs
      cases hs
      refine ⟨decl, by simp, rfl, ?_⟩
      cases decl with
      | forward node heading =>
        rw [heading_forward] at hfresh
        simp [subprogram, hfresh, Heading.subprogram]
      | definition node heading vars body =>
        rw [heading_definition] at hname
        simp [subprogram, Heading.completed, hname]
  · intro name hname other hother
    rw [Names.declare, bind_eq_none] at hname
    rcases List.mem_append.mp hother with hother | hother
    · exact h.fresh name hname.2 other hother
    · rw [List.mem_singleton.mp hother, ← hdecl.name h.keyed]
      exact Ne.symm hname.1

theorem withDefined_eq (h : frame.Declared decls) (hname : frame name = some symbol) :
    symbol.withDefined (Program.defines decls name) = symbol := by
  cases symbol with
  | proc s =>
    obtain ⟨_, -, -, hs⟩ := h.proc name s hname
    simp [Symbol.withDefined, hs]
  | mod => rfl
  | var => rfl

theorem foldl_declare (h : frame.Declared decls) (hmore : Declarable frame more) :
    (more.foldl Names.declare frame).Declared (decls ++ more) ∧
      ∀ name symbol, frame name = some symbol → more.foldl Names.declare frame name =
        some (symbol.withDefined (Program.defines (decls ++ more) name)) := by
  induction hmore generalizing decls with
  | nil =>
    rw [List.append_nil]
    refine ⟨h, fun name symbol hname => ?_⟩
    rw [h.withDefined_eq hname]
    exact hname
  | cons hdecl _ ih =>
    obtain ⟨hlast, hlater⟩ := ih (h.declare hdecl)
    rw [List.append_assoc] at hlast hlater
    refine ⟨hlast, fun name symbol hname => ?_⟩
    rw [List.foldl_cons, hlater name _ (h.declare_of_some hdecl hname),
      Symbol.withDefined_withDefined]
    rfl

end Names.Declared

theorem Declarable.of_append (h : Declarable frame (front ++ back)) :
    Declarable frame front ∧ Declarable (front.foldl Names.declare frame) back := by
  induction front generalizing frame with
  | nil => exact ⟨.nil, h⟩
  | cons decl rest ih =>
    cases h with
    | cons hdecl hrest =>
      obtain ⟨hfront, hback⟩ := ih hrest
      exact ⟨.cons hdecl hfront, hback⟩

/-! ## What a body sees -/

namespace Names

theorem within_eq_some {inner outer : Names} {name : String} {symbol : Symbol} :
    inner.within outer name = some symbol ↔
      inner name = some symbol ∨ inner name = none ∧ outer name = some symbol := by
  rw [within]
  cases inner name <;> simp

theorem ofVars_nil_within (outer : Names) : (ofVars []).within outer = outer := rfl

end Names

theorem names_of_mem_bodiesOf {outer : Names} (h : body ∈ bodiesOf outer frame decls) :
    ∃ locals front back, decls = front ++ back ∧ body.names =
      (Names.ofVars locals).within ((front.foldl Names.declare frame).within outer) := by
  induction decls generalizing frame with
  | nil => cases h
  | cons decl rest ih =>
    rcases List.mem_append.mp h with h | h
    · cases decl with
      | forward => cases h
      | definition node heading vars stmts =>
        rw [List.mem_singleton.mp h]
        exact ⟨heading.params ++ vars, [.definition node heading vars stmts], rest, rfl, rfl⟩
    · obtain ⟨locals, front, back, hsplit, hnames⟩ := ih h
      exact ⟨locals, decl :: front, back, by rw [hsplit]; rfl, hnames⟩

namespace Program

abbrev frameBehind (p : Program) (front : List SubprogramDecl) : Names :=
  front.foldl Names.declare (.ofVars p.vars)

theorem names_of_mem_bodies (h : body ∈ p.bodies) :
    ∃ locals front back, p.subprograms = front ++ back ∧ body.names =
      (Names.ofVars locals).within ((p.frameBehind front).within p.outerNames) := by
  rcases List.mem_append.mp h with h | h
  · exact names_of_mem_bodiesOf h
  · rw [List.mem_singleton.mp h]
    exact ⟨[], p.subprograms, [], by simp, rfl⟩

/-- Outside of its frame, a module sees itself and the built-ins. -/
theorem of_outerNames {name : String} {symbol : Symbol} (h : p.outerNames name = some symbol) :
    symbol = .mod p.name.name (some p.name.span) ∨
      ∃ s ∈ Subprogram.builtins, symbol = .proc s ∧ s.name = name := by
  have h : [Symbol.mod p.name.name (some p.name.span)].foldl Names.bind
      (.ofSymbols (Subprogram.builtins.map .proc)) name = some symbol := h
  rcases Names.mem_of_foldl_bind h with ⟨hmem, -⟩ | h
  · exact .inl (List.mem_singleton.mp hmem)
  · obtain ⟨hmem, hname⟩ := Names.mem_of_ofSymbols h
    obtain ⟨s, hs, rfl⟩ := List.mem_map.mp hmem
    exact .inr ⟨s, hs, rfl, hname⟩

namespace WellFormed

variable (hp : p.WellFormed)

include hp

theorem declarable (hsplit : p.subprograms = front ++ back) :
    Declarable (.ofVars p.vars) front ∧ Declarable (p.frameBehind front) back := by
  have hdeclarable := hp.subprograms
  rw [hsplit] at hdeclarable
  exact hdeclarable.of_append

theorem frameBehind_declared (hsplit : p.subprograms = front ++ back) :
    (p.frameBehind front).Declared front := by
  simpa using ((Names.Declared.ofVars p.vars).foldl_declare (hp.declarable hsplit).1).1

/-- A name goes on standing for what it stands for; only a subprogram becomes defined. -/
theorem frameNames_of_frameBehind (hsplit : p.subprograms = front ++ back) {name : String}
    {symbol : Symbol} (hname : p.frameBehind front name = some symbol) :
    p.frameNames name = some (symbol.withDefined (defines p.subprograms name)) := by
  have hlater := ((hp.frameBehind_declared hsplit).foldl_declare (hp.declarable hsplit).2).2
  rw [frameNames, hsplit, List.foldl_append]
  exact hlater name symbol hname

theorem frameNames_declared : p.frameNames.Declared p.subprograms :=
  hp.frameBehind_declared (List.append_nil _).symm

variable {decl : SubprogramDecl} (hsplit : p.subprograms = front ++ decl :: back)

include hsplit

theorem frameBehind_name :
    p.frameBehind (front ++ [decl]) decl.heading.name.name =
      some (.proc (decl.subprogram (p.frameBehind front))) := by
  rw [frameBehind, List.foldl_append]
  cases (hp.declarable hsplit).2 with
  | cons hallowed _ => exact Names.declare_name hallowed (hp.frameBehind_declared hsplit).keyed

/-- What a declared name stands for in the end. -/
theorem frameNames_name :
    p.frameNames decl.heading.name.name =
      some (.proc { decl.subprogram (p.frameBehind front) with
        defined := defines p.subprograms decl.heading.name.name }) := by
  have hsplit' : p.subprograms = (front ++ [decl]) ++ back := by simp [hsplit]
  exact hp.frameNames_of_frameBehind hsplit' (hp.frameBehind_name hsplit)

end WellFormed

end Program

theorem Subprogram.flags_of_mem_builtins (h : s ∈ builtins) :
    s.builtin = true ∧ s.defined = true ∧ s.span = none := by
  simp only [builtins, List.mem_cons, List.not_mem_nil, or_false] at h
  rcases h with rfl | rfl | rfl | rfl | rfl | rfl | rfl | rfl | rfl <;> exact ⟨rfl, rfl, rfl⟩

theorem Program.WellFormed.proc_of_body (hp : p.WellFormed) (hbody : body ∈ p.bodies)
    {name : String} (hname : body.names name = some (.proc s)) :
    s ∈ Subprogram.builtins ∧ s.name = name ∨
    s.builtin = false ∧ s.span.isSome ∧ s.name = name ∧
      p.frameNames name = some (.proc { s with defined := defines p.subprograms name }) := by
  obtain ⟨locals, front, back, hsplit, hnames⟩ := names_of_mem_bodies hbody
  rw [hnames, Names.within_eq_some, Names.within_eq_some] at hname
  rcases hname with hlocal | ⟨-, hframe | ⟨-, houter⟩⟩
  · obtain ⟨v, -, heq, -⟩ := Names.mem_of_ofVars hlocal
    cases heq
  · obtain ⟨decl, -, rfl, hs⟩ := (hp.frameBehind_declared hsplit).proc name s hframe
    refine .inr ⟨by rw [hs]; rfl, by rw [hs]; rfl, by rw [hs]; rfl, ?_⟩
    exact hp.frameNames_of_frameBehind hsplit hframe
  · rcases of_outerNames houter with heq | ⟨s', hs', heq, hs'name⟩ <;> cases heq
    exact .inl ⟨hs', hs'name⟩

theorem Program.WellFormed.settled_eq_final (hp : p.WellFormed) {frame : Frame}
    (hframe : ∀ name, frame.lookup name = p.frameNames name) (hbody : body ∈ p.bodies)
    {name : String} {symbol : Symbol} (hname : body.names name = some symbol) :
    symbol.settled frame = p.final symbol := by
  cases symbol with
  | mod => rfl
  | var => rfl
  | proc s =>
    rcases hp.proc_of_body hbody hname with ⟨hs, -⟩ | ⟨hbuiltin, -, rfl, hlast⟩
    · obtain ⟨hbuiltin, hdefined, hspan⟩ := Subprogram.flags_of_mem_builtins hs
      have hfinal : p.final (.proc s) = .proc s := by
        cases s
        simp_all [final, finished]
      rw [hfinal, Symbol.settled, hframe]
      split
      · rename_i last hlast
        obtain ⟨decl, -, -, heq⟩ := hp.frameNames_declared.proc _ _ hlast
        rw [if_neg (by simp [hspan, heq, Heading.subprogram])]
      · rfl
    · rw [Symbol.settled, hframe, hlast]
      simp [final, finished, hbuiltin]

/-! ## Variables and definitions -/

theorem Names.foldl_declare_var {name : String}
    (h : decls.foldl Names.declare frame name = some (.var v)) : frame name = some (.var v) := by
  induction decls generalizing frame with
  | nil => exact h
  | cons decl rest ih =>
    have hdeclare := ih h
    rw [Names.declare, Names.bind] at hdeclare
    split at hdeclare
    · cases hdeclare
    · exact hdeclare

theorem Program.var_of_frame {name : String}
    (h : (p.frameBehind front).within p.outerNames name = some (.var v)) :
    v ∈ variablesOf p.vars ∧ v.name = name := by
  rcases Names.within_eq_some.mp h with h | ⟨-, h⟩
  · obtain ⟨w, hw, heq, hname⟩ := Names.mem_of_ofVars (Names.foldl_declare_var h)
    cases heq
    exact ⟨hw, hname⟩
  · rcases of_outerNames h with heq | ⟨s, -, heq, -⟩ <;> cases heq

theorem Program.WellFormed.name_ne_of_proc (hp : p.WellFormed) {name : String} {sp : Subprogram}
    (hname : p.frameNames name = some (.proc sp)) (hv : v ∈ variablesOf p.vars) :
    v.name ≠ name := by
  rintro rfl
  cases hvar : Names.ofVars p.vars v.name with
  | none =>
    have := (Names.foldl_bind_eq_none.mp hvar).1 (.var v) (List.mem_map_of_mem hv)
    exact this rfl
  | some symbol =>
    obtain ⟨w, -, rfl, -⟩ := Names.mem_of_ofVars hvar
    have hlast := ((Names.Declared.ofVars p.vars).foldl_declare hp.subprograms).2 _ _ hvar
    rw [Program.frameNames, hlast] at hname
    cases hname

theorem Program.WellFormed.forward (hp : p.WellFormed) {node : Node} {heading : Heading}
    (hdecl : .forward node heading ∈ p.subprograms) :
    ∃ sp, p.frameNames heading.name.name = some (.proc sp) ∧
      sp.params = variablesOf heading.params := by
  obtain ⟨front, back, hsplit⟩ := List.append_of_mem hdecl
  exact ⟨_, hp.frameNames_name hsplit, rfl⟩

theorem Program.WellFormed.definition (hp : p.WellFormed) {node : Node} {heading : Heading}
    {vars : List VarDecl} {body : List Stmt}
    (hsplit : p.subprograms = front ++ .definition node heading vars body :: back) :
    ((variablesOf (heading.params ++ vars)).map (·.name)).Nodup ∧
      defines front heading.name.name = false ∧ ∃ sp,
        p.frameNames heading.name.name = some (.proc sp) ∧
        sp.name = heading.name.name ∧ sp.result = heading.result ∧
        sp.params.map (·.type) = (variablesOf heading.params).map (·.type) := by
  let decl : SubprogramDecl := .definition node heading vars body
  have hbefore := hp.frameBehind_declared hsplit
  have hlast := hp.frameNames_name hsplit
  cases (hp.declarable hsplit).2 with
  | cons hallowed _ =>
  have hname := hallowed.name hbefore.keyed
  cases hallowed with
  | define hnone _ hnodup =>
    have hsame : decl.subprogram (p.frameBehind front) =
      { heading.subprogram with defined := true } := by
      simp only [decl, subprogram, Heading.completed, hnone]
    rw [hsame] at hlast hname
    exact ⟨hnodup, defines_eq_false (hbefore.fresh _ hnone), _, hlast, hname, rfl, rfl⟩
  | @complete _ _ _ _ s hsome hdefined hparams hresult hnodup =>
    have hsame : decl.subprogram (p.frameBehind front) = { s with defined := true } := by
      simp only [decl, subprogram, Heading.completed, hsome]
    obtain ⟨_, -, -, hs⟩ := hbefore.proc _ s hsome
    rw [hsame] at hlast hname
    refine ⟨hnodup, ?_, _, hlast, hname, hresult, hparams⟩
    rw [← hdefined, hs]

end Oberlet
