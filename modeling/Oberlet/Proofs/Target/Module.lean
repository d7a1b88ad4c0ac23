import Oberlet.Proofs.Compilation

/-!
# Generated modules are valid
-/

namespace Oberlet

open Llvm Lowering

variable {p : Program} {annotations : Annotations} {globals : Scope} {s : State}
variable {analysis : Analysis} {source : List Char}

theorem Translated.hasBlocks (h : Translated p annotations globals s) {name : String}
    {isMain : Bool} {body : Body} (hbody : p.HasBody name isMain body) :
    ∃ f ∈ s.functions, f.name = name ∧ f.blocks ≠ [] := by
  obtain ⟨f, hf, hname, hgenerated⟩ := h.hasBody hbody
  exact ⟨f, hf, hname, hgenerated.blocks_ne_nil⟩

variable {f : Function} {m : Module} {tables : Tables} {v : Operand} {front : List Line} {b : Block}

theorem Translated.complete (h : Translated p annotations globals s) (hf : f ∈ s.functions)
    (hblocks : f.blocks ≠ []) :
    Complete (f.setting s.tables (varsOf s.globals)) s.edits f.blocks := by
  obtain ⟨isMain, body, -, hgenerated⟩ := h.only f hf hblocks
  exact hgenerated.complete _ (.refl _)

/-! ## Types -/

/-- A module is well typed if the blocks of all its functions are. Calls are to functions of the
module, of which only those of the host that read and write take further arguments. -/
structure Llvm.Module.WellTyped (m : Module) (tables : Tables) : Prop
    extends m.HasTables tables where
  ordinary : tables.Ordinary
  functions : ∀ f ∈ m.functions, BlocksValid (f.setting tables (varsOf m.globals)) f.blocks

/-- The target module of a module is well typed. -/
theorem Translated.wellTyped (h : Translated p annotations globals s) (name : String) :
    Module.WellTyped ⟨name, s.globals, s.functions⟩ s.tables := by
  refine ⟨⟨h.named, rfl⟩, h.ordinary, fun f hf => ?_⟩
  by_cases hblocks : f.blocks = []
  · rw [hblocks]
    trivial
  · exact (h.complete hf hblocks).valid

/-- A module that is accepted has a well-typed target module. Its globals are the variables, with
initial values of their types, and each expression that has a value is generated as a value of the
type that it is annotated with. -/
theorem lowered_module_typed (hparse : Program.parse source = .ok p)
    (hanalyze : p.analyze = .ok analysis) (haccepted : analysis.notes.errors = []) :
    ∃ m tables, p.lower analysis.notes.annotations = .ok m ∧ m.WellTyped tables ∧
      List.Forall₂ (fun v g => g.1 = p.name.name ++ "." ++ v.name ∧ v.type.zeroValue = .ok g.2 ∧
        v.type.target = .ok g.2.ty) (variablesOf p.vars) (varsOf m.globals) ∧
      (∀ (t : DataType) value, t.zeroValue = .ok value → t.target = .ok value.ty) ∧
      ∀ name isMain body, p.HasBody name isMain body → ∃ f ∈ m.functions, f.name = name ∧
        ∃ env s s' value, env.annotations = analysis.notes.annotations ∧
          lowerStmts env body.stmts s = .ok ((), s') ∧
          f.blocks = s'.done ++ [s'.block.closed (.ret value)] ∧
          ∀ part ∈ partsOfBody body.stmts, ∀ t,
            analysis.notes.annotations.typeOf part.id = .ok t → t ≠ .void →
            ∀ exits s₁, s.tables.Le s₁.tables → ∃ v s₂,
              part.lower { env with loopExits := exits } s₁ = .ok (v, s₂) ∧
                t.target = .ok v.ty := by
  obtain ⟨hwell, hregular, hann⟩ := Program.accepted hparse hanalyze haccepted
  obtain ⟨globals, s, -, hlower, htranslated⟩ := Program.lower_translates hwell hregular hann
  refine ⟨_, s.tables, hlower, htranslated.wellTyped _, ?_,
    fun t value => DataType.target_of_zeroValue,
    fun name isMain body hbody => ?_⟩
  · refine htranslated.vars.imp fun v g h => ⟨h.1, h.2, DataType.target_of_zeroValue h.2⟩
  · obtain ⟨f, hf, hname, hgenerated⟩ := htranslated.hasBody hbody
    obtain ⟨env, s₀, s', value, prologue, henv, -, hhosts, hrun, -, -, hblocks, -⟩ :=
      hgenerated.realizes _ (.refl _)
    refine ⟨f, hf, hname, env, s₀, s', value, henv, hrun, hblocks, ?_⟩
    intro part hpart t htype hvoid exits s₁ hle
    have hcarries := ((hann.annotatedBy hbody.mem (hwell.bodies _ hbody.mem) hpart).type t).mp htype
    have hexpr : part.Generated body.names { env with loopExits := exits } t :=
      hann.generated hbody.mem (hwell.bodies _ hbody.mem) hpart (hcarries.hasType hvoid) henv
    obtain ⟨code, v, s₂, hemits, hcode⟩ := hexpr s₁ ((hhosts.ready.mono hle).inside exits)
    exact ⟨v, s₂, hemits.runs, (hcode _ (.refl _)).2⟩

/-- The module of a text is well typed. One of its globals is an array. -/
theorem counting_module_typed : ∃ p analysis m tables, Program.parse countingText = .ok p ∧
    p.analyze = .ok analysis ∧ p.lower analysis.notes.annotations = .ok m ∧ m.WellTyped tables ∧
    ∃ f ∈ m.functions, f.name = "main" := by
  obtain ⟨p, analysis, hparse, hanalyze, haccepted⟩ := countingText_accepted
  obtain ⟨m, tables, hlower, htyped, -, -, hbodies⟩ := lowered_module_typed hparse hanalyze
    haccepted
  obtain ⟨f, hf, hname, -⟩ := hbodies _ _ _ .main
  exact ⟨p, analysis, m, tables, hparse, hanalyze, hlower, htyped, f, hf, hname⟩

/-! ## Blocks -/

/-- Every block was started, got its code and was ended once. -/
theorem Complete.history {Γ : FunctionSetting} {edits : List (Nat × Edit)} {blocks : List Block}
    (h : Complete Γ edits blocks) {b : Block} (hb : b ∈ blocks) :
    ∃ term front late, b.term = some term ∧ b.lines = front ++ late ∧
      editsOf edits b.id = .start :: (front.map .append ++ .finish term :: late.map .append) ∧
      (∀ line ∈ late, line.instr.isSlot) ∧ (late ≠ [] → blocks.head? = some b) := by
  have hmade {late : List Line} (hmade : b.Made late (editsOf edits b.id)) : ∃ term front,
      b.term = some term ∧ b.lines = front ++ late ∧
        editsOf edits b.id = .start :: (front.map .append ++ .finish term :: late.map .append) := by
    generalize editsOf edits b.id = history at hmade
    cases hmade with
    | still hterm =>
      have hended := h.ended b hb
      rw [hterm] at hended
      cases hended
    | @ended front term hterm hlines => exact ⟨term, front, hterm, hlines, rfl⟩
  have htold := h.told
  cases blocks with
  | nil => cases hb
  | cons entry rest =>
    obtain ⟨⟨late, hlate, hentry⟩, hrest⟩ := htold
    rcases List.mem_cons.mp hb with rfl | hb
    · obtain ⟨term, front, hterm, hlines, hhistory⟩ := hmade hentry
      exact ⟨term, front, late, hterm, hlines, hhistory, hlate, fun _ => rfl⟩
    · obtain ⟨term, front, hterm, hlines, hhistory⟩ := hmade (hrest b hb)
      exact ⟨term, front, [], hterm, hlines, hhistory, by simp, fun hne => (hne rfl).elim⟩

/-- While the target module of a module that is accepted is generated, every block of a function is
ended exactly once, and only stack slots of the first block come after that. Branches lead to blocks
of the same function other than the first. Every body has such a function, and its statements are
generated outside of any loop. -/
theorem blocks_ended_once (hparse : Program.parse source = .ok p)
    (hanalyze : p.analyze = .ok analysis) (haccepted : analysis.notes.errors = []) :
    ∃ m s, (lowerProgram analysis.notes.annotations p).run .initial = .ok ((), s) ∧
      p.lower analysis.notes.annotations = .ok m ∧ m.functions = s.functions ∧
      (∀ name isMain body, p.HasBody name isMain body →
        ∃ f ∈ m.functions, f.name = name ∧ f.blocks ≠ []) ∧
      ∀ f ∈ m.functions, f.blocks ≠ [] →
        (f.blocks.map (·.id)).Nodup ∧
        (∀ b ∈ f.blocks, ∃ term front late, b.term = some term ∧ b.lines = front ++ late ∧
          editsOf s.edits b.id = .start :: (front.map .append ++ .finish term :: late.map .append) ∧
          (∀ line ∈ late, line.instr.isSlot) ∧ (late ≠ [] → f.blocks.head? = some b) ∧
          ∀ target ∈ term.targets, target ∈ f.blocks.tail.map (·.id) ∧
            f.blocks.head?.map (·.id) ≠ some target) ∧
        ∃ isMain body env s₁ s₂ value, p.HasBody f.name isMain body ∧ env.loopExits = [] ∧
          lowerStmts env body.stmts s₁ = .ok ((), s₂) ∧
          f.blocks = s₂.done ++ [s₂.block.closed (.ret value)] := by
  obtain ⟨hwell, hregular, hann⟩ := Program.accepted hparse hanalyze haccepted
  obtain ⟨globals, s, hrun, hlower, htranslated⟩ := Program.lower_translates hwell hregular hann
  refine ⟨_, s, hrun, hlower, rfl, fun name isMain body hbody => ?_, fun f hf hblocks => ?_⟩
  · exact htranslated.hasBlocks hbody
  obtain ⟨isMain, body, hbody, hgenerated⟩ := htranslated.only f hf hblocks
  have hcomplete := hgenerated.complete _ (.refl _)
  obtain ⟨env, s₁, s₂, value, prologue, -, -, -, hstmts, -, -, hsplit, -, hexits⟩ :=
    hgenerated.realizes _ (.refl _)
  refine ⟨hcomplete.ids, fun b hb => ?_, isMain, body, env, s₁, s₂, value, hbody, hexits,
    hstmts, hsplit⟩
  obtain ⟨term, front, late, hterm, hlines, hhistory, hlate, hfirst⟩ := hcomplete.history hb
  refine ⟨term, front, late, hterm, hlines, hhistory, hlate, hfirst, fun target htarget => ?_⟩
  have hmem := hcomplete.leads b hb term hterm target htarget
  refine ⟨hmem, fun hentry => ?_⟩
  -- the first block is not among the others
  have hids := hcomplete.ids
  obtain ⟨entry, rest, hcons⟩ := List.exists_cons_of_ne_nil hblocks
  rw [hcons] at hentry hids hmem
  cases hentry
  exact (List.nodup_cons.mp hids).1 hmem

/-- In the module of a text, the function of the body has blocks, and each of them was ended once.
-/
theorem counting_blocks_ended : ∃ p analysis s, Program.parse countingText = .ok p ∧
    p.analyze = .ok analysis ∧
    (lowerProgram analysis.notes.annotations p).run .initial = .ok ((), s) ∧
    ∃ f ∈ s.functions, f.name = "main" ∧ f.blocks ≠ [] ∧
      ∀ b ∈ f.blocks, ∃ term front late, b.term = some term ∧ b.lines = front ++ late ∧
        editsOf s.edits b.id =
          .start :: (front.map .append ++ .finish term :: late.map .append) := by
  obtain ⟨p, analysis, hparse, hanalyze, haccepted⟩ := countingText_accepted
  obtain ⟨m, s, hrun, -, hfunctions, hbodies, hall⟩ := blocks_ended_once hparse hanalyze haccepted
  obtain ⟨f, hf, hname, hblocks⟩ := hbodies _ _ _ .main
  obtain ⟨-, hhistory, -⟩ := hall f hf hblocks
  refine ⟨p, analysis, s, hparse, hanalyze, hrun, f, hfunctions ▸ hf, hname, hblocks,
    fun b hb => ?_⟩
  obtain ⟨term, front, late, hterm, hlines, hedits, -⟩ := hhistory b hb
  exact ⟨term, front, late, hterm, hlines, hedits⟩

/-! ## Dominance -/

/-- A path through the blocks of a function leads from the first one to a block. On the way it
passes some lines. -/
inductive Reaches (blocks : List Block) : List Line → Block → Prop
  | entry {b : Block} : blocks.head? = some b → Reaches blocks [] b
  | branch {passed : List Line} {b b' : Block} {term : Terminator} : Reaches blocks passed b →
      b.term = some term → b' ∈ blocks → b'.id ∈ term.targets →
        Reaches blocks (passed ++ b.lines) b'

theorem Reaches.passed {entry : Block} {rest : List Block} {passed : List Line} {b : Block}
    (h : Reaches (entry :: rest) passed b) : b = entry ∧ passed = [] ∨ entry.lines ⊆ passed := by
  induction h with
  | entry hhead =>
    cases hhead
    exact .inl ⟨rfl, rfl⟩
  | branch _ _ _ _ ih =>
    refine .inr ?_
    rcases ih with ⟨rfl, rfl⟩ | hpassed
    · exact List.subset_append_right _ _
    · exact List.Subset.trans hpassed (List.subset_append_left _ _)

/-- Where an operand comes from that is used in a block of a function, behind the lines `front` of
that block. Stack slots of the first block lie on every path to it. -/
inductive Sourced (m : Module) (f : Function) (b : Block) (front : List Line) : Operand → Prop
  | constant {v : Operand} {strings : List String} :
      (∀ index text, strings[index]? = some text → Global.str index text ∈ m.globals) →
      v.Constant strings → Sourced m f b front v
  | global {name : String} {init : Operand} :
      Global.var name init ∈ m.globals → Sourced m f b front (.global name init.ty)
  | param {index : Nat} {param : Param} :
      f.params[index]? = some param → Sourced m f b front (.param index param.ty)
  | earlier {line : Line} : line ∈ front → Sourced m f b front (.reg line.reg line.instr.ty)
  | slot {entry : Block} {reg : Nat} {content : Ty} : f.blocks.head? = some entry →
      ⟨reg, .alloca content⟩ ∈ entry.lines →
      (∀ passed, Reaches f.blocks passed b → ⟨reg, .alloca content⟩ ∈ passed ++ front) →
      Sourced m f b front (.reg reg (.ptr content))

theorem Llvm.Operand.Known.sourced (hm : m.HasTables tables)
    (h : v.Known (f.setting tables (varsOf m.globals))) (b : Block) (front : List Line) :
    Sourced m f b front v := by
  have hstrings (index : Nat) (text : String) (htext : tables.strings[index]? = some text) :=
    (hm.strings index text).mpr htext
  cases v with
  | global name content =>
    obtain ⟨init, hinit, rfl⟩ := h
    exact .global (mem_varsOf.mp hinit)
  | param index ty =>
    have h : (f.params.map (·.ty))[index]? = some ty := h
    rw [List.getElem?_map] at h
    obtain ⟨param, hparam, rfl⟩ := Option.map_eq_some_iff.mp h
    exact .param hparam
  | reg => exact h.elim
  | int | bool | real | null | zero | text => exact .constant hstrings h

theorem Llvm.Operand.Usable.sourced_entry (hm : m.HasTables tables)
    (h : v.Usable (f.setting tables (varsOf m.globals)) front) (b : Block) :
    Sourced m f b front v := by
  rcases h with h | ⟨line, hline, rfl⟩
  · exact h.sourced hm b front
  · exact .earlier hline

/-- What is used was computed before, on every path that leads there. -/
theorem Llvm.Operand.Usable.sourced (hm : m.HasTables tables) {entry : Block} {rest : List Block}
    (hblocks : f.blocks = entry :: rest) (hne : b ≠ entry)
    (h : v.Usable (f.setting tables (varsOf m.globals)) (slotsOf entry.lines ++ front)) :
    Sourced m f b front v := by
  rcases h with h | ⟨line, hline, rfl⟩
  · exact h.sourced hm b front
  · rcases List.mem_append.mp hline with hline | hline
    · obtain ⟨hmem, hslot⟩ := List.mem_filter.mp hline
      obtain ⟨reg, instr⟩ := line
      cases instr with
      | alloca content =>
        refine .slot (by rw [hblocks]; rfl) hmem fun passed hpassed => ?_
        rw [hblocks] at hpassed
        have hentry := hpassed.passed.resolve_left fun h => hne h.1
        exact List.mem_append_left _ (hentry hmem)
      | _ => cases hslot
    · exact .earlier hline

theorem Llvm.Block.Valid.sourced {Γ : FunctionSetting} {outer : List Line} (h : b.Valid Γ outer)
    (hsignatures : ∀ callee ∈ Γ.tables.signatures, ∃ g ∈ m.functions, g.signature = callee)
    (hsourced : ∀ front v, v.Usable Γ (outer ++ front) → Sourced m f b front v) :
    (∀ front line back, b.lines = front ++ line :: back →
      (∀ v ∈ line.instr.operands, Sourced m f b front v) ∧
      ∀ callee args, line.instr = .call callee args → ∃ g ∈ m.functions, g.signature = callee) ∧
    ∀ term, b.term = some term → ∀ v ∈ term.operands, Sourced m f b b.lines v := by
  refine ⟨fun front line back hlines => ?_, fun term hterm v hv => ?_⟩
  · have hvalid := h.lines
    rw [hlines, linesValid_append] at hvalid
    obtain ⟨-, hline, hoperands, -⟩ := hvalid
    exact ⟨fun v hv => hsourced front v (hoperands v hv),
      fun callee args hcall => hsignatures callee (hline.callee callee args hcall)⟩
  · exact hsourced b.lines v ((h.term term hterm).2 v hv)

/-- In the target module of a module that is accepted, each operand of an instruction is a constant,
a global, a parameter of the function, the result of an instruction further up in the block, or a
stack slot of the first block that lies on every path to the instruction. The same holds of
terminators. All functions that are called are there, and no two instructions of a function have one
register. -/
theorem operands_defined_before (hparse : Program.parse source = .ok p)
    (hanalyze : p.analyze = .ok analysis) (haccepted : analysis.notes.errors = []) :
    ∃ m, p.lower analysis.notes.annotations = .ok m ∧
      (∀ name isMain body, p.HasBody name isMain body →
        ∃ f ∈ m.functions, f.name = name ∧ f.blocks ≠ []) ∧
      ∀ f ∈ m.functions, (f.blocks.flatMap fun b => b.lines.map (·.reg)).Nodup ∧
        ∀ b ∈ f.blocks,
          (∀ front line back, b.lines = front ++ line :: back →
            (∀ v ∈ line.instr.operands, Sourced m f b front v) ∧
            ∀ callee args, line.instr = .call callee args → ∃ g ∈ m.functions,
              g.signature = callee) ∧
          ∀ term, b.term = some term → ∀ v ∈ term.operands, Sourced m f b b.lines v := by
  obtain ⟨hwell, hregular, hann⟩ := Program.accepted hparse hanalyze haccepted
  obtain ⟨globals, s, hrun, hlower, htranslated⟩ := Program.lower_translates hwell hregular hann
  have htyped := htranslated.wellTyped p.name.name
  refine ⟨_, hlower, fun name isMain body hbody => ?_, fun f hf => ⟨?_, fun b hb => ?_⟩⟩
  · exact htranslated.hasBlocks hbody
  · by_cases hblocks : f.blocks = []
    · simp [hblocks]
    · exact (htranslated.complete hf hblocks).regs
  · obtain ⟨entry, rest, hcons⟩ := List.exists_cons_of_ne_nil (List.ne_nil_of_mem hb)
    have hids := (htranslated.complete hf (List.ne_nil_of_mem hb)).ids
    have hvalid := htyped.functions f hf
    rw [hcons] at hb hids hvalid
    have hsignatures (callee : Signature) (hcallee : callee ∈ s.tables.signatures) :
        ∃ g ∈ s.functions, g.signature = callee := List.mem_map.mp hcallee
    rcases List.mem_cons.mp hb with rfl | hrest
    · exact hvalid.1.sourced hsignatures fun front v hv => hv.sourced_entry htyped.toHasTables b
    · have hne : b ≠ entry := by
        rintro rfl
        exact (List.nodup_cons.mp hids).1 (List.mem_map_of_mem hrest)
      exact (hvalid.2 b hrest).sourced hsignatures fun front v hv =>
        hv.sourced htyped.toHasTables hcons hne

/-- In the module of a text, the operands of the function of the body are defined before they are
used. -/
theorem counting_operands_defined : ∃ p analysis m, Program.parse countingText = .ok p ∧
    p.analyze = .ok analysis ∧ p.lower analysis.notes.annotations = .ok m ∧
    ∃ f ∈ m.functions, f.name = "main" ∧ f.blocks ≠ [] ∧
      ∀ b ∈ f.blocks, ∀ front line back, b.lines = front ++ line :: back →
        ∀ v ∈ line.instr.operands, Sourced m f b front v := by
  obtain ⟨p, analysis, hparse, hanalyze, haccepted⟩ := countingText_accepted
  obtain ⟨m, hlower, hbodies, hall⟩ := operands_defined_before hparse hanalyze haccepted
  obtain ⟨f, hf, hname, hblocks⟩ := hbodies _ _ _ .main
  refine ⟨p, analysis, m, hparse, hanalyze, hlower, f, hf, hname, hblocks, ?_⟩
  exact fun b hb front line back hlines => (((hall f hf).2 b hb).1 front line back hlines).1

end Oberlet
