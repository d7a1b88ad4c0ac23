import Oberlet.Proofs.Lowering.Program

/-!
# What is declared while code is generated

The functions of the host are declared as they are needed, in the middle of the functions of the
module.
-/

namespace Oberlet

open Llvm Lowering Lower

variable {r : Runtime}

/-! ## Lines -/

def linesOf (blocks : List Block) : List Line := blocks.flatMap (·.lines)

def codeOf (functions : List Function) : List Line := functions.flatMap fun f => linesOf f.blocks

/-- There is a call of a function of the host among the lines. -/
def Runtime.CalledIn (r : Runtime) (lines : List Line) : Prop :=
  ∃ line ∈ lines, ∃ args, line.instr = .call r.function.signature args

theorem Runtime.CalledIn.mono {lines lines' : List Line} (h : r.CalledIn lines)
    (hsubset : lines ⊆ lines') : r.CalledIn lines' := by
  obtain ⟨line, hline, hcall⟩ := h
  exact ⟨line, hsubset hline, hcall⟩

/-! ## Functions of the host -/

/-- Besides the module's `own` functions, functions of the host have been declared, each of them
once. All of them are called in the lines, or a call is `owed`. -/
def Hosting (own : List Signature) (owed : List Runtime) (lines : List Line)
    (signatures : List Signature) : Prop :=
  ∃ hosts : List Runtime, hosts.Nodup ∧
    signatures.Perm (own ++ hosts.map fun r => r.function.signature) ∧
    ∀ r ∈ hosts, r ∈ owed ∨ r.CalledIn lines

namespace Hosting

variable {own signatures : List Signature} {owed : List Runtime} {lines lines' : List Line}

theorem mono (h : Hosting own owed lines signatures) (hsubset : lines ⊆ lines') :
    Hosting own owed lines' signatures := by
  obtain ⟨hosts, hnodup, hperm, hcalled⟩ := h
  exact ⟨hosts, hnodup, hperm, fun r hr => (hcalled r hr).imp_right fun h => h.mono hsubset⟩

theorem owe (h : Hosting own owed lines signatures) (r : Runtime) :
    Hosting own (r :: owed) lines signatures := by
  obtain ⟨hosts, hnodup, hperm, hcalled⟩ := h
  exact ⟨hosts, hnodup, hperm, fun r hr => (hcalled r hr).imp_left (List.mem_cons_of_mem _)⟩

theorem declare (h : Hosting own owed lines signatures) (hr : r.function.signature ∉ signatures) :
    Hosting own (r :: owed) lines (signatures ++ [r.function.signature]) := by
  obtain ⟨hosts, hnodup, hperm, hcalled⟩ := h
  have hnew : r ∉ hosts := fun hmem =>
    hr (hperm.mem_iff.mpr (List.mem_append_right _ (List.mem_map_of_mem hmem)))
  refine ⟨hosts ++ [r], ?_, ?_, ?_⟩
  · exact List.nodup_append.mpr ⟨hnodup, by simp, by rintro a ha b hb rfl; simp_all⟩
  · rw [List.map_append, ← List.append_assoc]
    exact hperm.append_right _
  · intro r' hr'
    rcases List.mem_append.mp hr' with hr' | hr'
    · exact (hcalled r' hr').imp_left (List.mem_cons_of_mem _)
    · exact .inl (by simp_all)

/-- Whoever asks for a function of the host calls it. -/
theorem pay (h : Hosting own (r :: owed) lines signatures) (hr : r.CalledIn lines) :
    Hosting own owed lines signatures := by
  obtain ⟨hosts, hnodup, hperm, hcalled⟩ := h
  refine ⟨hosts, hnodup, hperm, fun r' hr' => ?_⟩
  rcases hcalled r' hr' with hmem | hcalled
  · rcases List.mem_cons.mp hmem with rfl | hmem
    · exact .inr hr
    · exact .inl hmem
  · exact .inr hcalled

theorem add (h : Hosting own owed lines signatures) (f : Signature) :
    Hosting (own ++ [f]) owed lines (signatures ++ [f]) := by
  obtain ⟨hosts, hnodup, hperm, hcalled⟩ := h
  refine ⟨hosts, hnodup, (hperm.append_right [f]).trans ?_, hcalled⟩
  rw [List.append_assoc, List.append_assoc]
  exact List.perm_append_comm.append_left own

theorem length_le (h : Hosting own owed lines signatures) : own.length ≤ signatures.length := by
  obtain ⟨hosts, -, hperm, -⟩ := h
  rw [hperm.length_eq, List.length_append]
  omega

end Hosting

/-! ## States -/

def textGlobals (strings : List String) : List Global := strings.mapIdx Global.str

/-- What there is when code begins to be generated: the globals of variables, and the functions of
the module. -/
structure Outset where
  vars : List Global
  own : List Signature

/-- Code is generated into the function at hand. No line that the function had is lost. -/
structure Working (o : Outset) (owed : List Runtime) (s : State) : Prop where
  globals : s.globals = o.vars ++ textGlobals s.strings
  hosts : Hosting o.own owed (codeOf s.functions ++ linesOf s.blocks)
    (s.functions.map (·.signature))
  kept : ∃ f, s.functions[s.function]? = some f ∧ linesOf f.blocks ⊆ linesOf s.blocks

/-- No function is at hand. -/
structure Resting (o : Outset) (s : State) : Prop where
  globals : s.globals = o.vars ++ textGlobals s.strings
  hosts : Hosting o.own [] (codeOf s.functions) (s.functions.map (·.signature))

section

variable {o : Outset} {owed : List Runtime} {s s' : State}

theorem Working.extend (h : Working o owed s) (hglobals : s'.globals = s.globals)
    (hstrings : s'.strings = s.strings) (hfunctions : s'.functions = s.functions)
    (hfunction : s'.function = s.function) (hlines : linesOf s.blocks ⊆ linesOf s'.blocks) :
    Working o owed s' := by
  obtain ⟨f, hf, hkept⟩ := h.kept
  refine ⟨by rw [hglobals, hstrings, h.globals], ?_, f, ?_, List.Subset.trans hkept hlines⟩
  · rw [hfunctions]
    exact h.hosts.mono (List.append_subset.mpr ⟨List.subset_append_left _ _,
      List.Subset.trans hlines (List.subset_append_right _ _)⟩)
  · rw [hfunctions, hfunction, hf]

theorem Working.function_lt (h : Working o owed s) : s.function < s.functions.length := by
  obtain ⟨f, hf, -⟩ := h.kept
  exact (List.getElem?_eq_some_iff.mp hf).1

/-- A function of the host that is called is no longer owed. -/
theorem Working.pay (h : Working o (r :: owed) s) {line : Line} {args : List Operand}
    (hline : line ∈ linesOf s.blocks) (hcall : line.instr = .call r.function.signature args) :
    Working o owed s :=
  ⟨h.globals, h.hosts.pay ⟨line, List.mem_append_right _ hline, args, hcall⟩, h.kept⟩

theorem Working.owe (h : Working o owed s) (r : Runtime) : Working o (r :: owed) s :=
  ⟨h.globals, h.hosts.owe r, h.kept⟩

/-- A function of the host is declared once. -/
theorem Working.declare (h : Working o owed s)
    (hr : r.function.signature ∉ s.functions.map (·.signature)) :
    Working o (r :: owed) { s with functions := s.functions ++ [r.function] } := by
  obtain ⟨f, hf, hkept⟩ := h.kept
  refine ⟨h.globals, ?_, f, ?_, hkept⟩
  · rw [List.map_append]
    refine (h.hosts.declare hr).mono fun line hline => ?_
    simp only [codeOf, List.flatMap_append, List.mem_append] at hline ⊢
    tauto
  · rw [List.getElem?_append_left h.function_lt, hf]

theorem linesOf_append (front back : List Block) :
    linesOf (front ++ back) = linesOf front ++ linesOf back := by simp [linesOf]

theorem linesOf_cons (b : Block) (rest : List Block) :
    linesOf (b :: rest) = b.lines ++ linesOf rest :=
  rfl

theorem linesOf_place (s : State) (code : List Instr) :
    linesOf s.blocks ⊆ linesOf (s.place code).blocks := by
  intro line hline
  cases hdone : s.done <;>
    simp only [State.place, State.blocks, hdone, linesOf_append, linesOf_cons, List.mem_append]
      at hline ⊢ <;> tauto

/-! ## Functions -/

theorem mem_codeOf {functions : List Function} {line : Line} :
    line ∈ codeOf functions ↔
      ∃ (i : Nat) (f : Function), functions[i]? = some f ∧ line ∈ linesOf f.blocks := by
  rw [codeOf, List.mem_flatMap]
  constructor
  · rintro ⟨f, hf, hline⟩
    obtain ⟨i, hi⟩ := List.mem_iff_getElem?.mp hf
    exact ⟨i, f, hi, hline⟩
  · rintro ⟨i, f, hi, hline⟩
    exact ⟨f, List.mem_of_getElem? hi, hline⟩

theorem flatMap_blocks_modify {α : Type} (g : List Block → List α) (functions : List Function)
    (index : Nat) {f : Function → Function} (hf : ∀ x, (f x).blocks = x.blocks) :
    ((functions.modify index f).flatMap fun x => g x.blocks) =
      functions.flatMap fun x => g x.blocks := by
  induction functions generalizing index with
  | nil => simp
  | cons x rest ih =>
    cases index with
    | zero => simp [hf]
    | succ index => simpa using ih index

theorem Resting.modify (h : Resting o s) (index : Nat) {g : Function → Function}
    (hsignature : ∀ f, (g f).signature = f.signature) (hblocks : ∀ f, (g f).blocks = f.blocks) :
    Resting o { s with functions := s.functions.modify index g } := by
  refine ⟨h.globals, ?_⟩
  rw [codeOf, flatMap_blocks_modify linesOf _ _ hblocks, map_signature_modify _ _ hsignature]
  exact h.hosts

theorem Resting.add (h : Resting o s) {f : Function} :
    Resting ⟨o.vars, o.own ++ [f.signature]⟩ { s with functions := s.functions ++ [f] } := by
  refine ⟨h.globals, ?_⟩
  rw [List.map_append, codeOf, List.flatMap_append]
  exact (h.hosts.add f.signature).mono (List.subset_append_left _ _)

theorem Resting.length_le (h : Resting o s) : o.own.length ≤ s.functions.length := by
  simpa using h.hosts.length_le

/-- When nothing is owed, the function can be finished. -/
theorem Working.finish (h : Working o [] s) : Resting o s.finished := by
  obtain ⟨f, hf, hkept⟩ := h.kept
  have hfinished : s.finished.functions[s.function]? = some { f with blocks := s.blocks } := by
    rw [State.finished, List.getElem?_modify_eq, hf]
    rfl
  refine ⟨h.globals, ?_⟩
  change Hosting o.own [] _ s.finished.tables.signatures
  rw [s.tables_finished]
  refine h.hosts.mono fun line hline => mem_codeOf.mpr ?_
  rcases List.mem_append.mp hline with hline | hline
  · obtain ⟨i, g, hg, hline⟩ := mem_codeOf.mp hline
    by_cases hi : i = s.function
    · subst hi
      cases hf.symm.trans hg
      exact ⟨s.function, _, hfinished, hkept hline⟩
    · exact ⟨i, g, (List.getElem?_modify_ne _ _ (Ne.symm hi)).trans hg, hline⟩
  · exact ⟨s.function, _, hfinished, hline⟩

end

end Oberlet
