import Oberlet.Proofs.Target.Module

/-!
# Strings that the host gets

A string variable that was never assigned is null, and so are elements of arrays and what functions
return where they run off their end.
-/

namespace Oberlet

open Llvm Lowering

/-- An operand is the address of the constant with a text. -/
def Llvm.Module.HasText (m : Module) (text : String) (v : Operand) : Prop :=
  ∃ index, v = .text index (text.utf8ByteSize + 1) ∧ .str index text ∈ m.globals

/-- An operand in a block is not null: it is the address of a constant, or the block chooses it,
and puts the empty string in place of null. -/
inductive Llvm.Module.Guarded (m : Module) (b : Block) : Operand → Prop
  | constant {text : String} {v : Operand} : m.HasText text v → Guarded m b v
  | chosen {k : Nat} {v empty : Operand} : ⟨k, .icmp .eq v .null⟩ ∈ b.lines → m.HasText "" empty →
      ⟨k + 1, .select (.reg k .i1) empty v⟩ ∈ b.lines → Guarded m b (.reg (k + 1) .charPtr)

section

variable {m : Module} {tables : Tables} {f : Function} {b : Block} {line : Line} {v : Operand}

theorem Llvm.Module.HasTables.hasText {index size : Nat} (hm : m.HasTables tables)
    (h : (Operand.text index size).Constant tables.strings) :
    ∃ text, m.HasText text (.text index size) := by
  obtain ⟨text, htext, rfl⟩ := h
  exact ⟨text, index, rfl, (hm.strings index text).mpr htext⟩

theorem Llvm.Module.WellTyped.hasText {index size : Nat} (hm : m.WellTyped tables)
    (hf : f ∈ m.functions) (hb : b ∈ f.blocks) (hline : line ∈ b.lines)
    (hv : .text index size ∈ line.instr.operands) : ∃ text, m.HasText text (.text index size) := by
  have hvalid : ∃ outer, b.Valid (f.setting tables (varsOf m.globals)) outer := by
    have hblocks := hm.functions f hf
    obtain ⟨entry, rest, hcons⟩ := List.exists_cons_of_ne_nil (List.ne_nil_of_mem hb)
    rw [hcons] at hb hblocks
    rcases List.mem_cons.mp hb with rfl | hb
    · exact ⟨_, hblocks.1⟩
    · exact ⟨_, hblocks.2 b hb⟩
  obtain ⟨outer, hvalid⟩ := hvalid
  obtain ⟨front, back, hlines⟩ := List.append_of_mem hline
  have hlines' := hvalid.lines
  rw [hlines, linesValid_append] at hlines'
  rcases hlines'.2.2.1 _ hv with hknown | ⟨_, _, hreg⟩
  · exact hm.toHasTables.hasText hknown
  · cases hreg

/-- Strings that are compared are replaced by the empty string if they are null. -/
theorem Shielded.guarded (hm : m.HasTables tables) (h : Shielded tables.strings b.lines v)
    (htext : ∀ index size, v = .text index size → ∃ text, m.HasText text v) : m.Guarded b v := by
  cases h with
  | text =>
    obtain ⟨text, htext⟩ := htext _ _ rfl
    exact .constant htext
  | select hnull hempty hselect =>
    obtain ⟨index, hindex, rfl⟩ := hempty
    exact .chosen hnull ⟨index, rfl, (hm.strings index "").mpr hindex⟩ hselect

/-- Strings that are printed are not. -/
theorem Direct.guarded_iff (hregs : (b.lines.map (·.reg)).Nodup) (h : Direct b.lines v) :
    m.Guarded b v ↔ ∃ text, m.HasText text v := by
  constructor
  · intro hguarded
    cases hguarded with
    | constant htext => exact ⟨_, htext⟩
    | chosen _ _ hselect =>
      obtain ⟨instr, hmem, -, hnot⟩ := h _ _ rfl
      cases List.inj_on_of_nodup_map hregs hmem hselect rfl
      cases hnot
  · rintro ⟨text, htext⟩
    exact .constant htext

end

/-- In the target module of a module that is accepted, both strings of a comparison are guarded.
What is printed is printed by a format that is a constant, and is guarded only if it is a constant
itself. -/
theorem compared_strings_guarded {p : Program} {source : List Char} {analysis : Analysis}
    (hparse : Program.parse source = .ok p) (hanalyze : p.analyze = .ok analysis)
    (haccepted : analysis.notes.errors = []) :
    ∃ m, p.lower analysis.notes.annotations = .ok m ∧
      ∀ f ∈ m.functions, ∀ b ∈ f.blocks, ∀ line ∈ b.lines, ∀ callee args,
        line.instr = .call callee args →
          (callee.name = "strcmp" →
            ∃ l r, args = [l, r] ∧ m.Guarded b l ∧ m.Guarded b r) ∧
          (callee.name = "printf" → ∃ format v, args = [format, v] ∧
            (∃ text, m.HasText text format) ∧ (m.Guarded b v ↔ ∃ text, m.HasText text v)) := by
  obtain ⟨hwell, hregular, hann⟩ := Program.accepted hparse hanalyze haccepted
  obtain ⟨globals, s, -, hlower, htranslated⟩ := Program.lower_translates hwell hregular hann
  have htyped := htranslated.wellTyped p.name.name
  refine ⟨_, hlower, fun f hf b hb line hline callee args hcall => ?_⟩
  have hcomplete := htranslated.complete hf (List.ne_nil_of_mem hb)
  have hpasses := hcomplete.guards b hb line hline
  have htexts (v : Operand) (hv : v ∈ args) (index size : Nat) (htext : v = .text index size) :
      ∃ text, Module.HasText ⟨p.name.name, s.globals, s.functions⟩ text v := by
    subst htext
    exact htyped.hasText hf hb hline (by rwa [hcall])
  refine ⟨fun hname => ?_, fun hname => ?_⟩
  · obtain ⟨l, r, rfl, hl, hr⟩ := hpasses.strcmp callee args hcall hname
    exact ⟨l, r, rfl, hl.guarded htyped.toHasTables (htexts l (by simp)),
      hr.guarded htyped.toHasTables (htexts r (by simp))⟩
  · obtain ⟨index, size, v, rfl, hv⟩ := hpasses.printf callee args hcall hname
    refine ⟨_, v, rfl, htexts _ (by simp) index size rfl, hv.guarded_iff ?_⟩
    exact (List.nodup_flatMap.mp hcomplete.regs).1 b hb

theorem Compilation.exists_block {source : List Char} {q : Module → Block → Bool}
    (h : ((compile source).toOption.bind (·.toOption)).map (fun m =>
      m.functions.any fun f => f.blocks.any (q m)) = some true) :
    ∃ m, compile source = .ok (.ok m) ∧ ∃ f ∈ m.functions, ∃ b ∈ f.blocks, q m b = true := by
  obtain ⟨m, hrun, hany⟩ := exists_of_view h
  obtain ⟨f, hf, hany⟩ := List.any_eq_true.mp hany
  obtain ⟨b, hb, hq⟩ := List.any_eq_true.mp hany
  exact ⟨m, hrun, f, hf, b, hb, hq⟩

/-- A text that prints a string that was never assigned, and compares it. -/
def sharedText : List Char :=
  "MODULE M; VAR s: STRING; b: BOOLEAN; BEGIN PrintString(s); b := s = \"a\" END M.".toList

def sharedCalls : List Line :=
  [⟨1, .call Runtime.printf.function.signature [.text 0 3, .reg 0 .charPtr]⟩,
    ⟨5, .call Runtime.strcmp.function.signature [.reg 4 .charPtr, .text 1 2]⟩]

/-- Where the string is printed, the format is a constant, but the string is not guarded. Where it
is compared, both it and the literal are. -/
theorem sharedText_guarded_once : ∃ p analysis m, Program.parse sharedText = .ok p ∧
    p.analyze = .ok analysis ∧ analysis.notes.errors = [] ∧
    p.lower analysis.notes.annotations = .ok m ∧ ∃ f ∈ m.functions, ∃ b ∈ f.blocks,
      sharedCalls ⊆ b.lines ∧ (∃ text, m.HasText text (.text 0 3)) ∧
      ¬ m.Guarded b (.reg 0 .charPtr) ∧ m.Guarded b (.reg 4 .charPtr) ∧
      m.Guarded b (.text 1 2) := by
  have hcompile : ((Compilation.compile sharedText).toOption.bind (·.toOption)).map (fun m =>
      m.functions.any fun f => f.blocks.any fun b => decide (sharedCalls ⊆ b.lines)) =
      some true := by decide +kernel
  obtain ⟨m, hrun, f, hf, b, hb, hcalls⟩ := Compilation.exists_block hcompile
  have hcalls := of_decide_eq_true hcalls
  obtain ⟨p, analysis, hparse, hanalyze, haccepted, hlower⟩ := Compilation.stages hrun
  obtain ⟨m', hlower', hall⟩ := compared_strings_guarded hparse hanalyze haccepted
  cases hlower.symm.trans hlower'
  obtain ⟨_, _, hprinted, hformat, hv⟩ :=
    (hall f hf b hb _ (hcalls List.mem_cons_self) _ _ rfl).2 rfl
  obtain ⟨_, _, hcompared, hl, hr⟩ :=
    (hall f hf b hb _ (hcalls (List.mem_cons_of_mem _ List.mem_cons_self)) _ _ rfl).1 rfl
  cases hprinted
  cases hcompared
  refine ⟨p, analysis, m, hparse, hanalyze, haccepted, hlower, f, hf, b, hb, hcalls, hformat,
    fun hguarded => ?_, hl, hr⟩
  obtain ⟨_, _, hreg, -⟩ := hv.mp hguarded
  cases hreg

/-- A text that prints a string that was never assigned. -/
def printingText : List Char := "MODULE M; VAR s: STRING; BEGIN PrintString(s) END M.".toList

def printingLines : List Line :=
  [⟨0, .load .charPtr (.global "M.s" .charPtr)⟩,
    ⟨1, .call Runtime.printf.function.signature [.text 0 3, .reg 0 .charPtr]⟩]

/-- A string that is printed may be null, and is not guarded. -/
theorem printed_string_null : ∃ m, Compilation.compile printingText = .ok (.ok m) ∧
    .var "M.s" .null ∈ m.globals ∧ ∃ f ∈ m.functions, ∃ b ∈ f.blocks,
      b.lines = printingLines ∧ ¬ m.Guarded b (.reg 0 .charPtr) := by
  have hcompile : ((Compilation.compile printingText).toOption.bind (·.toOption)).map (fun m =>
      m.functions.any fun f => f.blocks.any fun b =>
        decide (.var "M.s" .null ∈ m.globals ∧ b.lines = printingLines)) = some true := by
    decide +kernel
  obtain ⟨m, hrun, f, hf, b, hb, hm⟩ := Compilation.exists_block hcompile
  obtain ⟨hvar, hlines⟩ := of_decide_eq_true hm
  refine ⟨m, hrun, hvar, f, hf, b, hb, hlines, fun h => ?_⟩
  cases h with
  | constant htext =>
    obtain ⟨_, hreg, -⟩ := htext
    cases hreg

end Oberlet
