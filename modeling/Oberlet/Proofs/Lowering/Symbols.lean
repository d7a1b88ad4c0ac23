import Mathlib.Data.List.Dedup
import Oberlet.Llvm.Printer
import Oberlet.Proofs.Lowering.Constants
import Oberlet.Proofs.Target.Module
import Oberlet.Proofs.Tree.Within

/-!
# The symbols of a target module

Globals and functions of a target module share one space of names. Six kinds of things have names in
it: variables, string constants, subprograms, subprograms whose names belong to the host, the entry
point, and the functions of the host.
-/

namespace Oberlet

open Llvm Lowering Lower

/-! ## Labels -/

/-- How a symbol is made up: it is a name as it is, a name with that of the module, or a number. -/
inductive Label
  | plain (name : String)
  | member (name : String)
  | text (index : Nat)
deriving DecidableEq, Repr

namespace Label

def render (moduleName : String) : Label → String
  | plain name => name
  | member name => moduleName ++ "." ++ name
  | text index => "str." ++ toString index

/-- Plain names have no dot, and members are identifiers. -/
def Proper : Label → Prop
  | plain name => '.' ∉ name.toList
  | member name => Spelled .ident name.toList
  | text _ => True

end Label

theorem Spelled.ident_chars {cs : List Char} (h : Spelled .ident cs) :
    '.' ∉ cs ∧ ∃ c rest, cs = c :: rest ∧ c.isDigit = false := by
  cases h with
  | fixed hspelling => cases hspelling
  | @ident c rest hc hrest =>
    refine ⟨fun hdot => ?_, c, rest, rfl, ?_⟩
    · rcases List.mem_cons.mp hdot with rfl | hdot
      · exact absurd hc (by decide)
      · exact absurd (hrest _ hdot) (by decide)
    · rw [Bool.eq_false_iff]
      intro hdigit
      rw [isIdentStart_of_isDigit hdigit] at hc
      cases hc

variable {n : Nat} {name' moduleName other : String}

theorem isDigit_of_mem_toString {c : Char} (h : c ∈ (toString n).toList) : c.isDigit = true := by
  change c ∈ n.repr.toList at h
  rw [Nat.toList_repr] at h
  exact Nat.isDigit_of_mem_toDigits (by decide) (by decide) h

theorem toString_injective {m : Nat} (h : toString m = toString n) : m = n := by
  have hdigits : Nat.toDigits 10 m = Nat.toDigits 10 n := by
    simpa [Nat.toList_repr] using congrArg String.toList h
  have hread := congrArg (Nat.ofDigitChars 10 · 0) hdigits
  simpa [Nat.ofDigitChars_toDigits] using hread

namespace Label

@[simp] theorem render_plain (name : String) : (plain name).render moduleName = name := rfl

theorem toList_render_member (name : String) :
    ((member name).render moduleName).toList = moduleName.toList ++ '.' :: name.toList := by
  simp [render]

theorem toList_render_text (index : Nat) :
    ((text index).render moduleName).toList = "str".toList ++ '.' :: (toString index).toList := by
  simp [render]

theorem member_ne_text (hmodule : Spelled .ident moduleName.toList) {name : String}
    (hname : Spelled .ident name.toList) (index : Nat) :
    (member name).render moduleName ≠ (text index).render moduleName := by
  intro h
  have hlist := congrArg String.toList h
  rw [toList_render_member, toList_render_text] at hlist
  obtain ⟨hdot, c, rest, hrest, hdigit⟩ := hname.ident_chars
  obtain ⟨-, -, hdigits⟩ :=
    (List.append_cons_inj_of_notMem hmodule.ident_chars.1 hdot).mp hlist
  have hc : c ∈ (toString index).toList := by rw [← hdigits, hrest]; exact List.mem_cons_self
  rw [isDigit_of_mem_toString hc] at hdigit
  cases hdigit

variable {a : Label}

theorem eq_plain_of_notMem (h : '.' ∉ (a.render moduleName).toList) :
    a = plain (a.render moduleName) := by
  cases a with
  | plain name => rfl
  | member name => simp [toList_render_member] at h
  | text index => simp [toList_render_text] at h

/-- Different labels are written differently. -/
theorem render_injective (hmodule : Spelled .ident moduleName.toList) {b : Label} (ha : a.Proper)
    (hb : b.Proper) (h : a.render moduleName = b.render moduleName) : a = b := by
  cases a with
  | plain name =>
    have hb := eq_plain_of_notMem (h ▸ ha : '.' ∉ (b.render moduleName).toList)
    rw [hb, ← h]
    rfl
  | member name =>
    cases b with
    | plain name' => exact (eq_plain_of_notMem (h ▸ hb)).trans (congrArg plain h)
    | member name' => exact congrArg member ((String.append_right_inj _).mp h)
    | text index => exact (member_ne_text hmodule ha index h).elim
  | text index =>
    cases b with
    | plain name' => exact (eq_plain_of_notMem (h ▸ hb)).trans (congrArg plain h)
    | member name' => exact (member_ne_text hmodule hb index h.symm).elim
    | text index' => exact congrArg text (toString_injective ((String.append_right_inj _).mp h))

end Label

/-! ## Functions -/

def functionLabel (name : String) : Label :=
  if name ∈ reservedNames then .member name else .plain name

theorem render_functionLabel (moduleName name : String) :
    (functionLabel name).render moduleName = functionName moduleName name := by
  rw [functionLabel, functionName]
  split <;> rfl

theorem functionLabel_proper {name : String} (h : Spelled .ident name.toList) :
    (functionLabel name).Proper := by
  rw [functionLabel]
  split
  · exact h
  · exact h.ident_chars.1

theorem functionLabel_injective {name : String} (h : functionLabel name = functionLabel name') :
    name = name' := by
  unfold functionLabel at h
  split at h <;> split at h <;> cases h <;> rfl

theorem functionName_injective {name : String} (hmodule : Spelled .ident moduleName.toList)
    (hname : Spelled .ident name.toList) (hname' : Spelled .ident name'.toList)
    (h : functionName moduleName name = functionName moduleName name') : name = name' := by
  rw [← render_functionLabel, ← render_functionLabel] at h
  exact functionLabel_injective
    (Label.render_injective hmodule (functionLabel_proper hname) (functionLabel_proper hname') h)

theorem functionLabel_eq_member {name : String} (h : functionLabel name = .member other) :
    name = other := by
  unfold functionLabel at h
  split at h <;> cases h
  rfl

theorem functionLabel_ne_text (name : String) (index : Nat) : functionLabel name ≠ .text index := by
  rw [functionLabel]
  split <;> simp

theorem functionLabel_ne_plain {name : String} (hother : other ∈ reservedNames) :
    functionLabel name ≠ .plain other := by
  rw [functionLabel]
  split
  · simp
  · rename_i hname
    rintro ⟨⟩
    exact hname hother

theorem Runtime.name_ne_main (r : Runtime) : r.function.name ≠ "main" := by
  cases r <;> decide

theorem Runtime.name_injective {r r' : Runtime} (h : r.function.name = r'.function.name) :
    r = r' := by
  cases r <;> cases r' <;> first | rfl | exact absurd h (by decide)

/-! ## Globals -/

def Llvm.Global.name : Global → String
  | .var name _ => name
  | .str index _ => "str." ++ toString index

/-- The symbols of a module: those of its globals and of its functions. -/
def Llvm.Module.symbols (m : Module) : List String :=
  m.globals.map (·.name) ++ m.functions.map (·.name)

theorem names_globalsFor {vars : List Variable} {values : List Operand}
    (h : ZeroValues vars values) : (globalsFor moduleName vars values).map (·.name) =
      vars.map fun v => (Label.member v.name).render moduleName := by
  induction h with
  | nil => rfl
  | cons _ _ ih => exact congrArg (_ :: ·) ih

theorem names_textGlobals (moduleName : String) (strings : List String) :
    (textGlobals strings).map (·.name) =
      (List.range strings.length).map fun i => (Label.text i).render moduleName := by
  refine List.ext_getElem (by simp [textGlobals]) fun i _ _ => ?_
  simp [textGlobals, Global.name, Label.render]

/-! ## Declarations -/

/-- The functions that have been added are those of the subprograms in `front`, one per name. -/
def Enrolled (moduleName : String) (front : List SubprogramDecl) (s : State) : Prop :=
  ∃ names : List String, names.Nodup ∧
    (∀ name, name ∈ names ↔ ∃ decl ∈ front, decl.heading.name.name = name) ∧
    s.functions.map (·.name) = names.map (functionName moduleName)

section

variable {p : Program} {annotations : Annotations} {sp : Subprogram} {scope globals : Scope}
  {vars : List String} {Γ : FunctionSetting}

theorem declareFunction_names {decl : SubprogramDecl}
    (hsymbol : annotations.symbolOf Symbol.proc? decl.node.id = .ok sp) (scope : Scope)
    (s : State) : Ensures (· = s) (declareFunction annotations moduleName scope decl) fun _ s' =>
      s'.functions.map (·.name) = if (List.lookup sp.name scope).isSome then
        s.functions.map (·.name)
        else s.functions.map (·.name) ++ [functionName moduleName sp.name] := by
  refine .lift_bind fun sp' hsp' => ?_
  cases hsymbol.symm.trans hsp'
  split
  · refine .pure ?_
    rintro _ rfl
    simp_all
  · refine Ensures.bind (Maintains.mapM (fun v => .bind (.lift _) fun _ => .pure _) _)
      fun params => ?_
    refine .lift_bind fun result _ => ?_
    rintro s' _ _ rfl ⟨⟩
    simp_all

theorem Declares.isSome_lookup (hwell : p.WellFormed) {front : List SubprogramDecl}
    (h : Declares p front scope s) {name : String} (hframe : p.frameNames name = some (.proc sp))
    (hname : sp.name = name) :
    (List.lookup name scope).isSome ↔ ∃ decl ∈ front, decl.heading.name.name = name := by
  constructor
  · intro hsome
    obtain ⟨b, hb⟩ := Option.isSome_iff_exists.mp hsome
    refine (h.only name b hb).resolve_left ?_
    rintro ⟨v, hv, hvname⟩
    exact hwell.name_ne_of_proc hframe hv hvname
  · rintro ⟨decl, hdecl, rfl⟩
    obtain ⟨index, _, hindex, -⟩ := h.procs decl hdecl sp hframe
    rw [← hname, hindex]
    rfl

theorem declare_enrolled (hwell : p.WellFormed) (hregular : p.Regular)
    (hann : p.Annotated annotations) (front back : List SubprogramDecl)
    (hsplit : p.subprograms = front ++ back) {s' : State} (h : Declares p front scope s)
    (hs : Enrolled p.name.name front s)
    (hrun : back.foldlM (declareFunction annotations p.name.name) scope s = .ok (globals, s')) :
    Enrolled p.name.name p.subprograms s' := by
  induction back generalizing front scope s with
  | nil =>
    rw [List.append_nil] at hsplit
    cases hrun
    exact hsplit ▸ hs
  | cons decl rest ih =>
    have hdecl : decl ∈ p.subprograms := by simp [hsplit]
    obtain ⟨sp, hframe, hholds⟩ := hann.subprograms decl hdecl
    have hname : sp.name = decl.heading.name.name := hwell.frameNames_declared.keyed _ _ hframe
    have hsymbol : annotations.symbolOf Symbol.proc? decl.node.id = .ok sp :=
      Annotations.symbolOf_of_holds hholds rfl
    obtain ⟨scope₁, s₁, hrun₁, h₁⟩ := declareFunction_declares hwell hregular hann hdecl h
    have hfunctions := declareFunction_names hsymbol scope s _ _ _ rfl hrun₁
    rw [List.foldlM_cons, run_bind hrun₁] at hrun
    refine ih (front ++ [decl]) (by simp [hsplit]) h₁ ?_ hrun
    obtain ⟨names, hnodup, hmem, hnames⟩ := hs
    rw [hname] at hfunctions
    split at hfunctions
    · -- the subprogram has its function
      rename_i hsome
      have hold := (h.isSome_lookup hwell hframe hname).mp hsome
      refine ⟨names, hnodup, fun name => ?_, hfunctions.trans hnames⟩
      rw [hmem]
      constructor
      · rintro ⟨other, hother, rfl⟩
        exact ⟨other, List.mem_append_left _ hother, rfl⟩
      · rintro ⟨other, hother, rfl⟩
        rcases List.mem_append.mp hother with hother | hother
        · exact ⟨other, hother, rfl⟩
        · rw [List.mem_singleton.mp hother]
          exact hold
    · rename_i hnone
      have hnew : decl.heading.name.name ∉ names := fun hold =>
        hnone ((h.isSome_lookup hwell hframe hname).mpr ((hmem _).mp hold))
      refine ⟨names ++ [decl.heading.name.name], ?_, fun name => ?_, ?_⟩
      · refine List.nodup_append.mpr ⟨hnodup, by simp, ?_⟩
        rintro a ha _ hb rfl
        exact hnew (List.mem_singleton.mp hb ▸ ha)
      · simp [hmem, or_and_right, exists_or, eq_comm]
      · rw [hfunctions, hnames, List.map_append]
        rfl

theorem declareAllGlobals_functions {decls : List VarDecl}
    (h : decls.foldlM (declareGlobals annotations moduleName) [] .initial = .ok (scope, s)) :
    s.functions = [] := by
  refine Maintains.foldlM (I := fun s => s.functions = []) (fun scope decl => ?_) [] decls
    .initial scope s rfl h
  refine .bind (.lift _) fun vars => Maintains.foldlM (fun scope v => ?_) _ _
  exact .bind (.lift _) fun _ => .bind (.lift _) fun _ =>
    .bind (.modify fun _ hs => hs) fun _ => .pure _

/-! ## All symbols -/

/-- The labels of what a module declares, of its string constants, and of functions of the host. -/
def labels (vars names : List String) (texts : Nat) (hosts : List Runtime) : List Label :=
  vars.map .member ++ (List.range texts).map .text ++
    (names.map functionLabel ++ .plain "main" :: hosts.map fun r => .plain r.function.name)

theorem labels_nodup (texts : Nat) (hvars : vars.Nodup) (hnames : names.Nodup)
    (hhosts : hosts.Nodup) (hdisjoint : ∀ name ∈ vars, name ∉ names) :
    (labels vars names texts hosts).Nodup := by
  have hplain : (Label.plain "main" :: hosts.map fun r => .plain r.function.name).Nodup := by
    refine List.nodup_cons.mpr ⟨?_, hhosts.map fun r r' h => ?_⟩
    · simpa using fun r _ => r.name_ne_main
    · exact Runtime.name_injective (Label.plain.inj h)
  have hreserved : ∀ a ∈ Label.plain "main" :: hosts.map fun r => .plain r.function.name,
      ∃ name ∈ reservedNames, a = .plain name := by
    refine List.forall_mem_cons.mpr ⟨⟨"main", by decide, rfl⟩, fun a ha => ?_⟩
    obtain ⟨r, -, rfl⟩ := List.mem_map.mp ha
    exact ⟨_, r.name_mem, rfl⟩
  refine List.nodup_append.mpr ⟨List.nodup_append.mpr ⟨?_, ?_, ?_⟩, List.nodup_append.mpr
    ⟨hnames.map fun _ _ => functionLabel_injective, hplain, ?_⟩, ?_⟩
  · exact hvars.map fun _ _ => Label.member.inj
  · exact List.nodup_range.map fun _ _ => Label.text.inj
  · simp
  · intro a ha b hb heq
    obtain ⟨name, -, rfl⟩ := List.mem_map.mp ha
    obtain ⟨other, hother, rfl⟩ := hreserved b hb
    exact functionLabel_ne_plain hother heq
  · rintro a ha _ hb rfl
    rcases List.mem_append.mp hb with hb | hb
    · obtain ⟨other, hother, rfl⟩ := List.mem_map.mp hb
      rcases List.mem_append.mp ha with ha | ha
      · obtain ⟨name, hname, heq⟩ := List.mem_map.mp ha
        exact hdisjoint name hname (functionLabel_eq_member heq.symm ▸ hother)
      · obtain ⟨index, -, heq⟩ := List.mem_map.mp ha
        exact functionLabel_ne_text other index heq.symm
    · obtain ⟨other, -, rfl⟩ := hreserved a hb
      simp at ha

theorem labels_proper (texts : Nat) (hosts : List Runtime)
    (hvars : ∀ name ∈ vars, Spelled .ident name.toList)
    (hnames : ∀ name ∈ names, Spelled .ident name.toList) :
    ∀ a ∈ labels vars names texts hosts, a.Proper := by
  intro a ha
  have hdot : ∀ host ∈ reservedNames, '.' ∉ host.toList := by decide
  simp only [labels, List.mem_append, List.mem_cons, List.mem_map] at ha
  rcases ha with (⟨name, hname, rfl⟩ | ⟨index, -, rfl⟩) | ⟨name, hname, rfl⟩ | rfl | ⟨r, -, rfl⟩
  · exact hvars name hname
  · trivial
  · exact functionLabel_proper (hnames name hname)
  · exact hdot "main" (by decide)
  · exact hdot _ r.name_mem

/-- What a module consists of in the end: the globals of its variables and of string constants, one
function for each name of a subprogram, the entry point, and functions of the host that are
called. -/
structure Inventory (p : Program) (names : List String) (hosts : List Runtime) (s : State) :
    Prop where
  names_nodup : names.Nodup
  hosts_nodup : hosts.Nodup
  mem_names : ∀ name, name ∈ names ↔ ∃ decl ∈ p.subprograms, decl.heading.name.name = name
  globals : s.globals.map (·.name) =
    (variablesOf p.vars).map (fun v => (Label.member v.name).render p.name.name) ++
      (List.range s.strings.length).map fun i => (Label.text i).render p.name.name
  functions : (s.functions.map (·.name)).Perm (names.map (functionName p.name.name) ++
    "main" :: hosts.map fun r => r.function.name)
  called : ∀ r ∈ hosts, r.CalledIn (codeOf s.functions)

/-- A target module has the names of what its module declares, and of the host. -/
theorem Program.lower_inventory (hwell : p.WellFormed) (hregular : p.Regular)
    (hann : p.Annotated annotations) : ∃ globals s names hosts,
      p.lower annotations = .ok ⟨p.name.name, s.globals, s.functions⟩ ∧
      Translated p annotations globals s ∧ Inventory p names hosts s := by
  obtain ⟨scope, s₁, hvars, hdeclares₁⟩ := declareGlobals_declares hwell hregular hann
  obtain ⟨scope', s₂, hfunctions, hdeclares⟩ :=
    declare_declares hwell hregular hann [] p.subprograms rfl hdeclares₁
  obtain ⟨globals, s, hrun, hlower, htranslated⟩ := Program.lower_translates hwell hregular hann
  obtain ⟨names, hnodup, hmem, hnames⟩ := declare_enrolled hwell hregular hann [] p.subprograms rfl
    hdeclares₁ ⟨[], .nil, by simp, by rw [declareAllGlobals_functions hvars]; rfl⟩ hfunctions
  obtain ⟨values, hvalues, hglobals⟩ := hdeclares.globals
  have hend := p.spelledOut_of_lower hwell hann hvars hfunctions hdeclares hrun
  obtain ⟨hosts, hhosts, hperm, hcalled⟩ := hend.hosts
  refine ⟨globals, s, names, hosts, hlower, htranslated, hnodup, hhosts, hmem, ?_, ?_, ?_⟩
  · rw [hend.globals, List.map_append, names_textGlobals p.name.name, hglobals,
      names_globalsFor hvalues]
  · have hmapped := hperm.map Signature.name
    simpa [List.map_map, Function.comp_def, Function.signature, ← hnames] using hmapped
  · exact fun r hr => (hcalled r hr).resolve_left (by simp)

theorem Program.hasBody_iff {symbol : String} : (∃ isMain body, p.HasBody symbol isMain body) ↔
    symbol = "main" ∨
      ∃ name, Program.defines p.subprograms name ∧ symbol = functionName p.name.name name := by
  constructor
  · rintro ⟨isMain, body, hbody⟩
    cases hbody with
    | main => exact .inl rfl
    | definition hsplit => exact .inr ⟨_, by simp [hsplit, Program.defines], rfl⟩
  · rintro (rfl | ⟨name, hdefines, rfl⟩)
    · exact ⟨_, _, .main⟩
    · obtain ⟨decl, hdecl, hname⟩ := List.any_eq_true.mp hdefines
      obtain ⟨front, back, hsplit⟩ := List.append_of_mem hdecl
      cases decl with
      | forward node heading => cases hname
      | definition node heading vars body =>
        rw [← eq_of_beq hname]
        exact ⟨_, _, .definition hsplit⟩

theorem LinesValid.valid {before lines : List Line} (h : LinesValid Γ before lines) :
    ∀ line ∈ lines, line.instr.Valid Γ := by
  induction lines generalizing before with
  | nil => simp
  | cons line rest ih => exact List.forall_mem_cons.mpr ⟨h.1, ih h.2.2⟩

theorem BlocksValid.valid {blocks : List Block} (h : BlocksValid Γ blocks) :
    ∀ line ∈ linesOf blocks, line.instr.Valid Γ := by
  cases blocks with
  | nil => simp [linesOf]
  | cons entry rest =>
    intro line hline
    obtain ⟨b, hb, hmem⟩ := List.mem_flatMap.mp hline
    rcases List.mem_cons.mp hb with rfl | hb
    · exact h.1.lines.valid line hmem
    · exact (h.2 b hb).lines.valid line hmem

theorem Translated.declares_callee (h : Translated p annotations globals s) {r : Runtime}
    (hr : r.CalledIn (codeOf s.functions)) : r.function.name ∈ s.functions.map (·.name) := by
  obtain ⟨line, hline, args, hcall⟩ := hr
  obtain ⟨f, hf, hline⟩ := List.mem_flatMap.mp hline
  have hvalid := ((h.wellTyped p.name.name).functions f hf).valid line hline
  obtain ⟨g, hg, hsignature⟩ := List.mem_map.mp (hvalid.callee _ _ hcall)
  exact List.mem_map.mpr ⟨g, hg, congrArg Signature.name hsignature⟩

variable {names : List String} {hosts : List Runtime} {s : State}

/-- A function of the host is declared exactly if it is called. -/
theorem Inventory.mem_hosts (h : Inventory p names hosts s)
    (htranslated : Translated p annotations globals s) (r : Runtime) :
    r ∈ hosts ↔ r.CalledIn (codeOf s.functions) := by
  refine ⟨h.called r, fun hr => ?_⟩
  have hmem := h.functions.mem_iff.mp (htranslated.declares_callee hr)
  rcases List.mem_append.mp hmem with hmem | hmem
  · obtain ⟨name, -, hname⟩ := List.mem_map.mp hmem
    exact (functionName_ne_reserved r.name_mem hname).elim
  · rcases List.mem_cons.mp hmem with hmain | hmem
    · exact (r.name_ne_main hmain).elim
    · obtain ⟨r', hr', hname⟩ := List.mem_map.mp hmem
      exact Runtime.name_injective hname ▸ hr'

theorem Inventory.symbols_perm (h : Inventory p names hosts s) :
    (s.globals.map (·.name) ++ s.functions.map (·.name)).Perm
      ((labels ((variablesOf p.vars).map (·.name)) names s.strings.length hosts).map
        (·.render p.name.name)) := by
  rw [labels, List.map_append, h.globals]
  refine List.Perm.append (.of_eq ?_) (h.functions.trans (.of_eq ?_))
  · simp [Function.comp_def]
  · simp [Function.comp_def, render_functionLabel]

theorem Inventory.symbols_nodup (h : Inventory p names hosts s) (hwell : p.WellFormed)
    (hann : p.Annotated annotations) {source : List Char} (hparse : Program.parse source = .ok p) :
    (s.globals.map (·.name) ++ s.functions.map (·.name)).Nodup := by
  obtain ⟨hmodule, hvars, hsubprograms⟩ := Program.names_spelled hparse
  have hdisjoint : ∀ name ∈ (variablesOf p.vars).map (·.name), name ∉ names := by
    intro name hvar hname
    obtain ⟨v, hv, rfl⟩ := List.mem_map.mp hvar
    obtain ⟨decl, hdecl, hname⟩ := (h.mem_names _).mp hname
    obtain ⟨sp, hframe, -⟩ := hann.subprograms decl hdecl
    exact hwell.name_ne_of_proc hframe hv hname.symm
  have hvarNames : ∀ name ∈ (variablesOf p.vars).map (·.name), Spelled .ident name.toList := by
    intro name hvar
    obtain ⟨v, hv, rfl⟩ := List.mem_map.mp hvar
    obtain ⟨decl, hdecl, hv⟩ := List.mem_flatMap.mp hv
    obtain ⟨x, hx, rfl⟩ := List.mem_map.mp hv
    exact hvars decl hdecl x hx
  have hnames : ∀ name ∈ names, Spelled .ident name.toList := by
    intro name hname
    obtain ⟨decl, hdecl, rfl⟩ := (h.mem_names _).mp hname
    exact (hsubprograms decl hdecl).1
  have hproper := labels_proper s.strings.length hosts hvarNames hnames
  rw [h.symbols_perm.nodup_iff]
  exact (labels_nodup _ hwell.vars h.names_nodup h.hosts_nodup hdisjoint).map_on
    fun a ha b hb => Label.render_injective hmodule (hproper a ha) (hproper b hb)

theorem nameText_text (index : Nat) :
    nameText ("str." ++ toString index) = "str." ++ toString index := by
  have hplain : ("str." ++ toString index).all isPlain := by
    rw [String.all_bool_eq, String.toList_append, List.all_append, Bool.and_eq_true]
    refine ⟨by decide, List.all_eq_true.mpr fun c hc => ?_⟩
    simp [isPlain, Char.isAlphanum, isDigit_of_mem_toString hc]
  exact if_pos hplain

theorem Llvm.Global.text_starts (g : Global) :
    ("@" ++ nameText g.name ++ " = ").toList <+: g.text.toList := by
  cases g with
  | var name init =>
    refine ⟨("global " ++ (Naming.mk [] [] []).operand init ++ "\n").toList, ?_⟩
    simp [Global.text, Global.name, toString]
  | str index content =>
    rw [Global.name, nameText_text]
    refine ⟨("private unnamed_addr constant " ++ (Ty.array (content.utf8ByteSize + 1) .i8).text ++
      " c" ++ quoted (content.push (Char.ofNat 0)) ++ "\n").toList, ?_⟩
    simp [Global.text, toString]

/-- No two globals or functions of the target module of a text that is accepted have one symbol. The
globals are the variables and string constants. The functions are one for each name of a subprogram,
the entry point, and exactly the functions of the host that are called somewhere. Those that have a
body are the entry point and those of the subprograms that the text defines. -/
theorem module_symbols_distinct {source : List Char} {analysis : Analysis}
    (hparse : Program.parse source = .ok p) (hanalyze : p.analyze = .ok analysis)
    (haccepted : analysis.notes.errors = []) :
    ∃ (m : Module) (texts : Nat) (hosts : List Runtime),
      p.lower analysis.notes.annotations = .ok m ∧ m.symbols.Nodup ∧
      m.globals.map (·.name) = (variablesOf p.vars).map (fun v => p.name.name ++ "." ++ v.name) ++
        (List.range texts).map (fun i => "str." ++ toString i) ∧
      (∀ g ∈ m.globals, ("@" ++ nameText g.name ++ " = ").toList <+: g.text.toList) ∧
      (m.functions.map (·.name)).Perm
        ((p.subprograms.map (·.heading.name.name)).dedup.map (functionName p.name.name) ++
          "main" :: hosts.map fun r => r.function.name) ∧
      (∀ f ∈ m.functions, f.blocks ≠ [] ↔ f.name = "main" ∨
        ∃ name, Program.defines p.subprograms name ∧ f.name = functionName p.name.name name) ∧
      ∀ r, r ∈ hosts ↔ r.CalledIn (codeOf m.functions) := by
  obtain ⟨hwell, hregular, hann⟩ := Program.accepted hparse hanalyze haccepted
  obtain ⟨globals, s, names, hosts, hlower, htranslated, h⟩ :=
    Program.lower_inventory hwell hregular hann
  have hnodup := h.symbols_nodup hwell hann hparse
  have hdistinct : names.Perm (p.subprograms.map (·.heading.name.name)).dedup :=
    (List.perm_ext_iff_of_nodup h.names_nodup (List.nodup_dedup _)).mpr fun name => by
      simp [h.mem_names]
  refine ⟨_, s.strings.length, hosts, hlower, hnodup, h.globals, fun g _ => g.text_starts,
    h.functions.trans ((hdistinct.map _).append_right _), fun f hf => ?_, h.mem_hosts htranslated⟩
  rw [← Program.hasBody_iff]
  constructor
  · intro hblocks
    obtain ⟨isMain, body, hbody, -⟩ := htranslated.only f hf hblocks
    exact ⟨isMain, body, hbody⟩
  · rintro ⟨isMain, body, hbody⟩
    obtain ⟨g, hg, hname, hblocks⟩ := htranslated.hasBlocks hbody
    rwa [← List.inj_on_of_nodup_map (List.nodup_append.mp hnodup).2.1 hg hf hname]

/-- A text in which everything is called after something else: the module is called like string
constants, and its subprograms like the entry point and a function of the host. -/
def namesakeText : List Char :=
  ("MODULE str; VAR x: INTEGER; PROCEDURE main(); PROCEDURE printf(n: INTEGER); " ++
    "PROCEDURE printf(n: INTEGER); BEGIN PrintInteger(n); main() END printf; " ++
    "BEGIN printf(x) END str.").toList

theorem namesake_symbols_distinct : ∃ m, Compilation.compile namesakeText = .ok (.ok m) ∧
    m.symbols = ["str.x", "str.0", "str.main", "str.printf", "printf", "main"] ∧
    m.symbols.Nodup := by
  have hcompile : ((Compilation.compile namesakeText).toOption.bind (·.toOption)).map (·.symbols) =
      some ["str.x", "str.0", "str.main", "str.printf", "printf", "main"] := by decide +kernel
  obtain ⟨m, hrun, hsymbols⟩ := Compilation.exists_of_view hcompile
  obtain ⟨p, analysis, hparse, hanalyze, haccepted, hlower⟩ := Compilation.stages hrun
  obtain ⟨m', _, _, hlower', hnodup, -⟩ := module_symbols_distinct hparse hanalyze haccepted
  cases hlower.symm.trans hlower'
  exact ⟨m, hrun, hsymbols, hnodup⟩

end

end Oberlet
