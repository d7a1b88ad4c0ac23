import Oberlet.Proofs.Lowering.Symbols

/-!
# Names that are local to a function

The parameters of a function and the labels of its blocks share one space of names. Nothing asks
that the parameters of a subprogram that is only declared have different names.
-/

namespace Oberlet

open Llvm Lowering Program

/-! ## Labels -/

def Llvm.placedLabel (entry : Block × Nat) : String := s!"{entry.1.stem}.{entry.2}"

/-- The labels of the blocks of a function, as they are written in front of the blocks. -/
def Llvm.Function.labels (f : Function) : List String :=
  f.blocks.map fun b => (Naming.ofFunction f).label b.id

/-- The names that are local to a function: those of its parameters, and the labels of its blocks.
-/
def Llvm.Function.localNames (f : Function) : List String := f.params.map (·.name) ++ f.labels

theorem Llvm.toList_placedLabel (entry : Block × Nat) :
    (placedLabel entry).toList = entry.1.stem.toList ++ '.' :: (toString entry.2).toList := by
  simp [placedLabel, toString]

theorem Llvm.placedLabel_place {entry entry' : Block × Nat}
    (h : placedLabel entry = placedLabel entry') : entry.2 = entry'.2 := by
  have hdigits (entry : Block × Nat) : (placedLabel entry).toList.reverse.takeWhile Char.isDigit =
      (toString entry.2).toList.reverse := by
    rw [toList_placedLabel, List.reverse_append, List.reverse_cons, List.append_assoc,
      List.takeWhile_append_of_pos fun c hc => isDigit_of_mem_toString (List.mem_reverse.mp hc)]
    exact List.append_nil _
  apply toString_injective
  have := hdigits entry
  rw [h, hdigits entry'] at this
  exact String.toList_inj.mp (List.reverse_inj.mp this).symm

theorem Llvm.map_lookup_placed (blocks : List Block) (k : Nat) (hids : (blocks.map (·.id)).Nodup) :
    (blocks.map fun b => (((blocks.zipIdx k).map fun entry =>
        (entry.1.id, placedLabel entry)).lookup b.id).getD "") =
      (blocks.zipIdx k).map placedLabel := by
  induction blocks generalizing k with
  | nil => rfl
  | cons first rest ih =>
    rw [List.map_cons, List.nodup_cons] at hids
    have hskip : ∀ b ∈ rest, (b.id == first.id) = false := fun b hb =>
      beq_false_of_ne fun heq => hids.1 (heq ▸ List.mem_map_of_mem hb)
    rw [List.zipIdx_cons, List.map_cons, List.map_cons, List.map_cons, ← ih (k + 1) hids.2]
    refine congrArg₂ _ (by simp) (List.map_congr_left fun b hb => ?_)
    rw [List.lookup_cons, hskip b hb]

variable {f : Function}

theorem Llvm.Function.labels_eq (hids : (f.blocks.map (·.id)).Nodup) :
    f.labels = f.blocks.zipIdx.map placedLabel :=
  map_lookup_placed f.blocks 0 hids

/-- Labels end in the place of their block. -/
theorem Llvm.Function.labels_nodup (hids : (f.blocks.map (·.id)).Nodup) : f.labels.Nodup := by
  have hplaces : (f.blocks.zipIdx.map (·.2)).Nodup := by
    rw [List.zipIdx_map_snd]
    exact List.nodup_range'
  rw [labels_eq hids]
  exact (hplaces.of_map _).map_on fun entry hentry entry' hentry' h =>
    List.inj_on_of_nodup_map hplaces hentry hentry' (placedLabel_place h)

/-- Labels have a dot, which no parameter has. -/
theorem Llvm.Function.dot_mem_of_label (hids : (f.blocks.map (·.id)).Nodup) {label : String}
    (h : label ∈ f.labels) : '.' ∈ label.toList := by
  rw [labels_eq hids] at h
  obtain ⟨entry, -, rfl⟩ := List.mem_map.mp h
  simp [toList_placedLabel]

theorem Llvm.Function.localNames_of_blank (h : f.blocks = []) :
    f.localNames = f.params.map (·.name) := by
  simp [localNames, labels, h]

/-! ## Functions -/

section

variable {p : Program} {annotations : Annotations} {globals : Scope} {s : State}
  {source : List Char}

/-- The parameters of a definition have different names. -/
theorem Generated.localNames_nodup (hparse : parse source = .ok p) (hwell : p.WellFormed)
    {body : Body} {isMain : Bool} (h : Generated p annotations globals body isMain s f) :
    f.localNames.Nodup := by
  obtain ⟨params, locals, hvariables, hnames⟩ := h.params
  have hids := (h.complete _ (.refl _)).ids
  rw [Function.localNames, hnames]
  cases hvariables with
  | main => exact Function.labels_nodup hids
  | @definition front back node heading vars stmts hsplit =>
    have hdecl : .definition node heading vars stmts ∈ p.subprograms := by simp [hsplit]
    have hnodup := (hwell.definition hsplit).1
    rw [variablesOf_append, List.map_append] at hnodup
    refine List.nodup_append.mpr
      ⟨(List.nodup_append.mp hnodup).1, Function.labels_nodup hids, ?_⟩
    rintro name hname _ hlabel rfl
    obtain ⟨v, hv, rfl⟩ := List.mem_map.mp hname
    obtain ⟨group, hgroup, hv⟩ := List.mem_flatMap.mp hv
    obtain ⟨x, hx, rfl⟩ := List.mem_map.mp hv
    have hspelled := ((names_spelled hparse).2.2 _ hdecl).2 group hgroup x hx
    exact hspelled.ident_chars.1 (Function.dot_mem_of_label hids hlabel)

variable {decls : List SubprogramDecl} {decl : SubprogramDecl}

theorem Program.exists_of_defines {name : String} (h : defines decls name = true) :
    ∃ decl ∈ decls, decl.heading.name.name = name := by
  by_contra hnone
  rw [defines_eq_false fun decl hdecl hname => hnone ⟨decl, hdecl, hname⟩] at h
  cases h

theorem Program.forward_of_undefined (hdecl : decl ∈ decls)
    (h : defines decls decl.heading.name.name = false) :
    ∃ node, decl = .forward node decl.heading := by
  cases decl with
  | forward node heading => exact ⟨node, rfl⟩
  | definition node heading vars body =>
    have := List.any_eq_false.mp h _ hdecl
    simp at this

theorem Inventory.blocks_ne_nil_iff {names : List String} {hosts : List Runtime}
    (h : Inventory p names hosts s) (hparse : parse source = .ok p) (hwell : p.WellFormed)
    (hann : p.Annotated annotations) (htranslated : Translated p annotations globals s)
    (hf : f ∈ s.functions) (hdecl : decl ∈ p.subprograms)
    (hname : f.name = functionName p.name.name decl.heading.name.name) :
    f.blocks ≠ [] ↔ defines p.subprograms decl.heading.name.name = true := by
  obtain ⟨hmodule, -, hspelled⟩ := names_spelled hparse
  constructor
  · intro hblocks
    obtain ⟨isMain, body, hbody, -⟩ := htranslated.only f hf hblocks
    rw [hname] at hbody
    rcases hasBody_iff.mp ⟨isMain, body, hbody⟩ with hmain | ⟨name, hdefines, heq⟩
    · exact (functionName_ne_reserved (by decide) hmain).elim
    · obtain ⟨decl', hdecl', rfl⟩ := exists_of_defines hdefines
      rwa [functionName_injective hmodule (hspelled decl hdecl).1 (hspelled decl' hdecl').1 heq]
  · intro hdefines
    obtain ⟨isMain, body, hbody⟩ := hasBody_iff.mpr (.inr ⟨_, hdefines, hname⟩)
    obtain ⟨g, hg, hgname, hblocks⟩ := htranslated.hasBlocks hbody
    have hnodup := (List.nodup_append.mp (h.symbols_nodup hwell hann hparse)).2.1
    rwa [← List.inj_on_of_nodup_map hnodup hg hf hgname]

/-- In the target module of a text that is accepted, no two labels of a function are the same, and
no parameter has the name of a label. Two parameters of a function have one name exactly if the
function stands for a subprogram that the text declares so and does not define. -/
theorem local_names_distinct_iff {analysis : Analysis} (hparse : Program.parse source = .ok p)
    (hanalyze : p.analyze = .ok analysis) (haccepted : analysis.notes.errors = []) :
    ∃ m, p.lower analysis.notes.annotations = .ok m ∧ ∀ f ∈ m.functions,
      f.labels.Nodup ∧ (∀ label ∈ f.labels, label ∉ f.params.map (·.name)) ∧
      (f.localNames.Nodup ↔ ∀ node heading, .forward node heading ∈ p.subprograms →
        Program.defines p.subprograms heading.name.name = false →
        f.name = functionName p.name.name heading.name.name →
        ((variablesOf heading.params).map (·.name)).Nodup) := by
  obtain ⟨hwell, hregular, hann⟩ := accepted hparse hanalyze haccepted
  obtain ⟨globals, s, names, hosts, hlower, htranslated, h⟩ :=
    lower_inventory hwell hregular hann
  obtain ⟨hmodule, -, hspelled⟩ := names_spelled hparse
  refine ⟨_, hlower, fun f hf => ?_⟩
  have hdefined {decl : SubprogramDecl} (hdecl : decl ∈ p.subprograms)
      (hname : f.name = functionName p.name.name decl.heading.name.name) :=
    h.blocks_ne_nil_iff hparse hwell hann htranslated hf hdecl hname
  by_cases hblocks : f.blocks = []
  · refine ⟨by simp [Function.labels, hblocks], by simp [Function.labels, hblocks], ?_⟩
    rw [Function.localNames_of_blank hblocks]
    cases htranslated.outlined f hf hblocks with
    | host r hr =>
      subst hr
      refine iff_of_true (by cases r <;> decide) fun node heading _ _ hname => ?_
      exact (functionName_ne_reserved r.name_mem hname.symm).elim
    | subprogram hframe hname hnames =>
      obtain ⟨decl, hdecl, rfl, hsp⟩ := hwell.frameNames_declared.proc _ _ hframe
      have hundefined : defines p.subprograms decl.heading.name.name = false := by
        rw [Bool.eq_false_iff]
        exact fun hdefines => (hdefined hdecl hname).mpr hdefines hblocks
      obtain ⟨node, hforward⟩ := forward_of_undefined hdecl hundefined
      rw [hnames]
      constructor
      · intro hnodup node' heading' hdecl' _ hname'
        have heq : decl.heading.name.name = heading'.name.name :=
          functionName_injective hmodule (hspelled decl hdecl).1 (hspelled _ hdecl').1
            (hname.symm.trans hname')
        obtain ⟨sp, hframe', hparams⟩ := hwell.forward hdecl'
        rw [← heq, hframe] at hframe'
        cases hframe'
        rwa [← hparams]
      · intro hall
        rw [hsp]
        exact hall node decl.heading (hforward ▸ hdecl) hundefined hname
  · obtain ⟨isMain, body, -, hgenerated⟩ := htranslated.only f hf hblocks
    have hnodup := hgenerated.localNames_nodup hparse hwell
    obtain ⟨-, hlabels, hdisjoint⟩ := List.nodup_append.mp hnodup
    refine ⟨hlabels, fun label hlabel hparam => hdisjoint label hparam label hlabel rfl,
      iff_of_true hnodup fun node heading hdecl hundefined hname => ?_⟩
    cases hundefined.symm.trans ((hdefined hdecl hname).mp hblocks)

/-- A text that declares one subprogram with two parameters of one name, and defines another under
other names than it was declared with. -/
def renamedText : List Char :=
  ("MODULE M; PROCEDURE P(x, x: INTEGER); PROCEDURE Q(x, x: INTEGER); " ++
    "PROCEDURE Q(a, b: INTEGER); BEGIN WHILE a < b DO a := a + 1 END END Q; END M.").toList

/-- The function of the subprogram that is defined has the names of the definition. -/
theorem renamed_local_names : ∃ p m, Program.parse renamedText = .ok p ∧
    Compilation.compile renamedText = .ok (.ok m) ∧
    m.functions.map (·.localNames) = [["x", "x"],
      ["a", "b", "entry.0", "while.cond.1", "while.body.2", "while.end.3"], ["entry.0"]] ∧
    ∀ f ∈ m.functions, f.labels.Nodup ∧ (f.localNames.Nodup ↔ ∀ node heading,
      .forward node heading ∈ p.subprograms →
      Program.defines p.subprograms heading.name.name = false →
      f.name = functionName p.name.name heading.name.name →
      ((variablesOf heading.params).map (·.name)).Nodup) := by
  have hcompile : ((Compilation.compile renamedText).toOption.bind (·.toOption)).map
      (fun m => m.functions.map (·.localNames)) = some [["x", "x"],
        ["a", "b", "entry.0", "while.cond.1", "while.body.2", "while.end.3"], ["entry.0"]] := by
    decide +kernel
  obtain ⟨m, hrun, hnames⟩ := Compilation.exists_of_view hcompile
  obtain ⟨p, analysis, hparse, hanalyze, haccepted, hlower⟩ := Compilation.stages hrun
  obtain ⟨m', hlower', hall⟩ := local_names_distinct_iff hparse hanalyze haccepted
  cases hlower.symm.trans hlower'
  exact ⟨p, m, hparse, hrun, hnames, fun f hf => ⟨(hall f hf).1, (hall f hf).2.2⟩⟩

/-- A text that declares a subprogram with two parameters of one name. -/
def repeatedText : List Char := "MODULE M; PROCEDURE P(x, x: INTEGER); END M.".toList

/-- The text is accepted, and two parameters of a function have one name. -/
theorem repeated_params_accepted : ∃ m, Compilation.compile repeatedText = .ok (.ok m) ∧
    ∃ f ∈ m.functions, f.localNames = ["x", "x"] ∧ ¬ f.localNames.Nodup := by
  have hcompile : ((Compilation.compile repeatedText).toOption.bind (·.toOption)).map
      (fun m => m.functions.any (·.localNames = ["x", "x"])) = some true := by decide +kernel
  obtain ⟨m, hrun, hany⟩ := Compilation.exists_of_view hcompile
  obtain ⟨f, hf, hnames⟩ := List.any_eq_true.mp hany
  have hnames := of_decide_eq_true hnames
  exact ⟨m, hrun, f, hf, hnames, by rw [hnames]; decide⟩

end

end Oberlet
