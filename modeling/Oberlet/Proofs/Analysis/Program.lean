import Oberlet.Proofs.Analysis.Declaration

/-!
# The analysis of a module follows the rules
-/

namespace Oberlet

open Declaring

/-! ## Settled annotations -/

def Finding.map (f : Symbol → Symbol) : Finding → Finding
  | .type id t => .type id t
  | .symbols id ss => .symbols id (ss.map f)

/-- Settling symbols leaves the types of a store alone. -/
theorem Annotations.slot_mapSymbols (a : Annotations) (f : Symbol → Symbol) (i : Nat) :
    (a.mapSymbols f).slot i =
      { a.slot i with symbols := (a.slot i).symbols.map (·.map f) } := by
  simp only [slot_natCast, mapSymbols, Array.getElem?_map]
  cases a.symbols[i]? <;> rfl

variable {a : Annotations} {finding : Finding} {p : Program} {outer frame : Names}
  {decls front back : List SubprogramDecl} {decl : SubprogramDecl}

theorem Annotations.holds_mapSymbols (f : Symbol → Symbol) (h : a.Holds finding) :
    (a.mapSymbols f).Holds (finding.map f) := by
  cases finding with
  | type id t => simpa [Holds, Finding.map, slot_mapSymbols] using h
  | symbols id ss =>
    have h : (a.slot id).symbols = some ss := h
    simp [Holds, Finding.map, slot_mapSymbols, h]

/-- Everything that the rules say about the nodes of a module is annotated. Subprograms are
annotated as they are at the end of the module. -/
structure Program.Annotated (p : Program) (a : Annotations) : Prop where
  exprs : ∀ body ∈ p.bodies, ∀ part ∈ partsOfBody body.stmts, ∀ finding,
    Noted body.names part finding → a.Holds (finding.map p.final)
  vars : ∀ decl ∈ p.vars, a.Holds (.symbols decl.node.id (decl.variables.map .var))
  groups : ∀ decl ∈ p.subprograms, ∀ group ∈ decl.groups,
    a.Holds (.symbols group.node.id (group.variables.map .var))
  subprograms : ∀ decl ∈ p.subprograms, ∃ s,
    p.frameNames decl.heading.name.name = some (.proc s) ∧ a.Holds (.symbols decl.node.id [.proc s])

/-! ## The universe -/

theorem Frame.names_map {symbols : List Symbol} (h : (symbols.map (·.name)).Nodup) (names : Names) :
    (Frame.names (symbols.map fun symbol => (symbol.name, symbol))).within names =
      symbols.foldl Names.bind names := by
  induction symbols generalizing names with
  | nil => rfl
  | cons symbol rest ih =>
    rw [List.map_cons, List.nodup_cons] at h
    rw [List.foldl_cons, ← ih h.2, List.map_cons, Frame.names_cons]
    funext name
    by_cases hname : name = symbol.name
    · have hnone : Frame.names (rest.map fun symbol => (symbol.name, symbol)) name = none := by
        cases hother : Frame.names (rest.map fun symbol => (symbol.name, symbol)) name with
        | none => rfl
        | some other =>
          obtain ⟨symbol', hmem, heq⟩ := List.mem_map.mp (mem_of_lookup_eq_some hother)
          cases heq
          exact (h.1 (hname ▸ List.mem_map_of_mem hmem)).elim
      subst hname
      simp [Names.within, hnone]
    · simp [Names.within, Names.bind_of_ne hname]

theorem SymbolTable.names_initial :
    SymbolTable.initial.current.names = .ofSymbols (Subprogram.builtins.map .proc) := by
  have hnames : ((Subprogram.builtins.map Symbol.proc).map (·.name)).Nodup := by decide
  rw [Names.ofSymbols, ← Frame.names_map hnames]
  funext name
  simp [Names.within, Names.empty, SymbolTable.initial, Function.comp_def]
  rfl

/-! ## The frame of a module -/

/-- What is done in the frame of a module. -/
def Effect.module (outer : Names) (p : Program) : Effect Unit :=
  (Effect.vars p.vars).bind fun _ => (Effect.subprograms outer p.subprograms).bind fun _ =>
    .stmts outer .void p.body

/-- The analysis in the frame of a module, up to where annotations are settled. -/
def Program.declareInside (p : Program) : Declaring Unit := do
  declareVars p.vars
  declareSubprograms p.subprograms
  Declaring.body fun table => checkStmts table ⟨p.name.name, .void, false⟩ p.body

/-- The inside of a module has the effect of its declarations. -/
theorem Program.declareInside_follows {outer : List Frame} (hp : p.Regular) :
    Declaring.Follows outer
      (roomOf (idsOfVars p.vars ++ (idsOfSubprograms p.subprograms ++ idsOfBody p.body)))
      (.module (namesOf outer) p) p.declareInside := by
  exact ((declareVars_follows _ fun decl h => (hp.vars decl h).known).bind fun _ =>
    (declareSubprograms_follows _ hp.subprograms).bind fun _ => body_follows _ _ _).imp (by simp)
      fun names _ => ⟨Iff.rfl, fun _ => rfl, fun _ => rfl, fun _ _ h => h⟩

theorem Program.declare_eq (p : Program) :
    p.declare = (do
      define (.mod p.name.name (some p.name.span))
      annotate p.node [.mod p.name.name (some p.name.span)]) >>= fun _ =>
        inFrame (p.declareInside >>= fun _ => settle) := by
  simp [Program.declare, declareInside]

theorem Program.declare_run {room room' : Room} {e e' : Effect Unit} {table table' : SymbolTable}
    {r r' : Report Unit} (h : Declaring.Outcome room e (do
      define (.mod p.name.name (some p.name.span))
      annotate p.node [.mod p.name.name (some p.name.span)]) .initial table r)
    (h' : Declaring.Outcome room' e' p.declareInside table.enter table' r') (a : Annotations) :
    p.declare ⟨.initial, ⟨a, []⟩⟩ = (a.annotateAll (r.findings ++ r'.findings)).map
      fun a' => ((), ⟨table,
      ⟨a'.mapSymbols (Symbol.settled table'.current), r.errors ++ r'.errors⟩⟩) := by
  have houter : table'.outer = table.current :: table.outer := h'.outer
  rw [declare_eq, Annotations.annotateAll_append]
  change Except.bind _ (fun q : Unit × Analysis =>
    inFrame (p.declareInside >>= fun _ => settle) q.2) = _
  rw [h.runs]
  change Except.bind (Except.map _ (Except.map _ (a.annotateAll r.findings))) _ = _
  cases a.annotateAll r.findings with
  | error fault => rfl
  | ok a =>
    change inFrame (p.declareInside >>= fun _ => settle) ⟨table, _⟩ = _
    rw [inFrame_eq]
    change Except.bind (Except.bind (p.declareInside ⟨table.enter, _⟩)
      fun q : Unit × Analysis => settle q.2) _ = _
    rw [h'.runs]
    change Except.bind (Except.bind (Except.map _ (Except.map _ (a.annotateAll r'.findings))) _) _ =
      Except.map _ (a.annotateAll r'.findings)
    cases a.annotateAll r'.findings with
    | error fault => rfl
    | ok a =>
      simp only [Except.bind, Except.map, settle, modify, modifyGet, MonadStateOf.modifyGet,
        StateT.modifyGet, pure, Except.pure, SymbolTable.exit, houter, List.nil_append]

/-- The effect of a module is good if names and bodies are right. -/
theorem Effect.module_good :
    (Effect.module p.outerNames p).good .empty ↔
      ((variablesOf p.vars).map (·.name)).Nodup ∧ Declarable (.ofVars p.vars) p.subprograms ∧
        ∀ body ∈ p.bodies, body.WellTyped := by
  have hvars : (Effect.vars p.vars).good .empty ↔ ((variablesOf p.vars).map (·.name)).Nodup := by
    simp [Effect.vars, Names.empty]
  simp only [Effect.module, Effect.bind, hvars, Program.bodies, List.forall_mem_append,
    List.forall_mem_singleton]
  exact and_congr_right fun _ => and_assoc

/-! ## What is annotated -/

theorem NotedInSubprograms.of_split (hsplit : decls = front ++ decl :: back)
    (h : decl.Noted outer ((front ++ [decl]).foldl Names.declare frame) finding) :
    NotedInSubprograms outer frame decls finding := by
  subst hsplit
  induction front generalizing frame with
  | nil => exact .inl h
  | cons first rest ih => exact .inr (ih h)

theorem NotedInSubprograms.of_body {body : Body} (hbody : body ∈ bodiesOf outer frame decls)
    (h : NotedIn body.names (partsOfBody body.stmts) finding) :
    NotedInSubprograms outer frame decls finding := by
  induction decls generalizing frame with
  | nil => cases hbody
  | cons decl rest ih =>
    rcases List.mem_append.mp hbody with hbody | hbody
    · exact .inl (.body hbody h)
    · exact .inr (ih hbody)

theorem Program.WellFormed.exists_settled (hp : p.WellFormed) {frame : Frame}
    (hframe : ∀ name, frame.lookup name = p.frameNames name)
    (hsplit : p.subprograms = front ++ decl :: back) :
    ∃ s s', p.frameBehind (front ++ [decl]) decl.heading.name.name = some (.proc s) ∧
      p.frameNames decl.heading.name.name = some (.proc s') ∧
        Symbol.settled frame (.proc s) = .proc s' := by
  have hlast := hp.frameNames_name hsplit
  refine ⟨_, _, hp.frameBehind_name hsplit, hlast, ?_⟩
  cases (hp.declarable hsplit).2 with
  | cons hdecl _ =>
    have hlookup : frame.lookup (decl.subprogram (p.frameBehind front)).name =
        p.frameNames decl.heading.name.name := by
      rw [hframe, hdecl.name (hp.frameBehind_declared hsplit).keyed]
    simp [Symbol.settled, hlookup, hlast]

theorem Finding.map_vars (f : Symbol → Symbol) (hf : ∀ v, f (.var v) = .var v) (id : Nat)
    (vars : List Variable) :
    (Finding.symbols id (vars.map .var)).map f = .symbols id (vars.map .var) := by
  simp [Finding.map, hf]

/-- In a module that is well formed, what the rules say is annotated. -/
theorem Program.WellFormed.annotated (hp : p.WellFormed) {frame : Frame}
    (hframe : ∀ name, frame.lookup name = p.frameNames name)
    (h : ∀ finding, (Effect.module p.outerNames p).noted .empty finding → a.Holds finding) :
    p.Annotated (a.mapSymbols (Symbol.settled frame)) := by
  have hvars (finding) (hfinding : (Effect.module p.outerNames p).noted .empty finding) :=
    Annotations.holds_mapSymbols (Symbol.settled frame) (h finding hfinding)
  refine ⟨?_, ?_, ?_, ?_⟩
  · intro body hbody part hpart finding hnoted
    have hin : NotedIn body.names (partsOfBody body.stmts) finding := ⟨part, hpart, hnoted⟩
    have hholds := hvars finding <| by
      rcases List.mem_append.mp hbody with hbody | hbody
      · exact .inr (.inl (.of_body hbody hin))
      · rw [List.mem_singleton.mp hbody] at hin
        exact .inr (.inr hin)
    cases hnoted with
    | type => exact hholds
    | var => exact hholds
    | proc hname =>
      rw [Finding.map, List.map_singleton, hp.settled_eq_final hframe hbody hname] at hholds
      exact hholds
    | result => exact hholds
  · intro decl hdecl
    have := hvars _ (.inl ⟨decl, hdecl, rfl⟩)
    rwa [Finding.map_vars _ fun _ => rfl] at this
  · intro decl hdecl group hgroup
    obtain ⟨front, back, hsplit⟩ := List.append_of_mem hdecl
    have := hvars _ (.inr (.inl (.of_split hsplit (.vars hgroup))))
    rwa [Finding.map_vars _ fun _ => rfl] at this
  · intro decl hdecl
    obtain ⟨front, back, hsplit⟩ := List.append_of_mem hdecl
    obtain ⟨s, s', hbehind, hlast, hsettled⟩ := hp.exists_settled hframe hsplit
    have := hvars _ (.inr (.inl (.of_split hsplit (.symbol hbehind))))
    rw [Finding.map, List.map_singleton, hsettled] at this
    exact ⟨s', hlast, this⟩

/-- The analysis of a regular module never fails, finds nothing wrong exactly if the module is well
formed, and then has annotated all of it. -/
theorem Program.Regular.analyze {p : Program} (hp : p.Regular) :
    ∃ analysis, p.analyze = .ok analysis ∧ (analysis.notes.errors = [] ↔ p.WellFormed) ∧
      (analysis.notes.errors = [] → p.Annotated analysis.notes.annotations) := by
  have hknown : (Symbol.mod p.name.name (some p.name.span)).Known := trivial
  obtain ⟨table, r, h⟩ := ((Declaring.Follows.define hknown).bind
    fun _ => .annotate p.node [.mod p.name.name (some p.name.span)])
    .initial SymbolTable.sane_initial rfl
  obtain ⟨table', r', h'⟩ := p.declareInside_follows hp table.enter h.sane.enter rfl
  have hfits : Fits True (roomOf p.ids) (r.findings ++ r'.findings) :=
    (h.fits.append h'.fits).mono fun key => by
      have := only_le_roomOf p.node.id false key
      simp only [Program.ids, roomOf_append]
      omega
  have hrun := hfits.annotateAll trivial (roomOf_le_one hp.ids_nodup) (a := .ofSize p.nodeCount)
    fun key _ => by
      obtain ⟨id, kind⟩ := key
      cases kind <;> simp [Annotations.Blank, Slot.empty]
  -- without a mistake in the name of the module, the names around it are the right ones
  have houter (herrors : r.errors = []) : namesOf table.enter.outer = p.outerNames := by
    have hnext : table.current.names = p.outerNames := by
      rw [h.next herrors, SymbolTable.names_initial]
      rfl
    rw [SymbolTable.enter, h.outer, namesOf_cons, hnext]
    funext name
    simp [Names.within, namesOf, SymbolTable.initial]
  have hname : r.errors = [] ↔ ∀ s ∈ Subprogram.builtins, s.name ≠ p.name.name := by
    rw [h.good, SymbolTable.names_initial]
    simp only [Effect.bind, Effect.define, Effect.annotate, Names.ofSymbols,
      Names.foldl_bind_eq_none, List.forall_mem_map, and_true]
    exact ⟨fun h s hs => Ne.symm (h.1 s hs), fun h => ⟨fun s hs => Ne.symm (h s hs), rfl⟩⟩
  have hmodule (herrors : r.errors = []) : r'.errors = [] ↔
      (Effect.module p.outerNames p).good .empty := by
    rw [h'.good, houter herrors]
    rfl
  have hwell : r.errors ++ r'.errors = [] ↔ p.WellFormed := by
    rw [List.append_eq_nil_iff]
    constructor
    · rintro ⟨herrors, herrors'⟩
      obtain ⟨hvars, hsubprograms, hbodies⟩ := Effect.module_good.mp ((hmodule herrors).mp herrors')
      exact ⟨hname.mp herrors, hvars, hsubprograms, hbodies⟩
    · intro hp
      have herrors := hname.mpr hp.name
      exact ⟨herrors, (hmodule herrors).mpr
        (Effect.module_good.mpr ⟨hp.vars, hp.subprograms, hp.bodies⟩)⟩
  refine ⟨_, by rw [Program.analyze, Program.analyzeWith, declare_run h h', hrun]; rfl, hwell, ?_⟩
  intro hnil
  obtain ⟨herrors, herrors'⟩ := List.append_eq_nil_iff.mp hnil
  refine (hwell.mp hnil).annotated (congrFun (h'.next herrors')) fun finding hfinding => ?_
  refine Annotations.holds_enterAll (hfits.keys_nodup (roomOf_le_one hp.ids_nodup))
    (.inl (List.mem_append_right _ ?_))
  refine h'.entered herrors' finding ?_
  rw [houter herrors]
  exact hfinding

end Oberlet
