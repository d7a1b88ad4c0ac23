import Mathlib.Data.List.Infix
import Oberlet.Lowering.Basic
import Oberlet.Proofs.Invariant

/-!
# Code that is added to a block

The code of an expression is added to the last block of the function at hand; only stack slots
always go to the first block. Besides, tables grow.
-/

namespace Oberlet

open Llvm

def Llvm.Instr.isSlot : Instr → Bool
  | .alloca _ => true
  | _ => false

def number : Nat → List Instr → List Line
  | _, [] => []
  | n, instr :: rest => ⟨n, instr⟩ :: number (n + 1) rest

theorem number_append (n : Nat) (front back : List Instr) :
    number n (front ++ back) = number n front ++ number (n + front.length) back := by
  induction front generalizing n with
  | nil => rfl
  | cons instr rest ih => simp [number, ih, Nat.add_assoc, Nat.add_comm 1]

def slotsOf (lines : List Line) : List Line := lines.filter (·.instr.isSlot)

def workOf (lines : List Line) : List Line := lines.filter (!·.instr.isSlot)

@[simp] theorem slotsOf_append (front back : List Line) :
    slotsOf (front ++ back) = slotsOf front ++ slotsOf back := by simp [slotsOf]

@[simp] theorem workOf_append (front back : List Line) :
    workOf (front ++ back) = workOf front ++ workOf back := by simp [workOf]

namespace Lowering

def State.place (s : State) (code : List Instr) : State :=
  let lines := number s.nextReg code
  match s.done with
  | [] =>
    { s with
      nextReg := s.nextReg + code.length
      block := { s.block with lines := s.block.lines ++ lines }
      edits := s.edits ++ lines.map fun line => (s.block.id, .append line) }
  | entry :: rest =>
    { s with
      nextReg := s.nextReg + code.length
      done := { entry with lines := entry.lines ++ slotsOf lines } :: rest
      block := { s.block with lines := s.block.lines ++ workOf lines }
      edits := s.edits ++ lines.map fun line =>
        (if line.instr.isSlot then entry.id else s.block.id, .append line) }

theorem State.place_nil (s : State) : s.place [] = s := by
  rcases s with ⟨_, _, _, _, _, _, _ | _, _, _⟩ <;> simp [place, number, slotsOf, workOf]

theorem State.place_append (s : State) (front back : List Instr) :
    s.place (front ++ back) = (s.place front).place back := by
  rcases s with ⟨_, _, _, _, _, _, _ | _, _, _⟩ <;> simp [place, number_append, Nat.add_assoc]

def State.withTables (s t : State) : State :=
  { s with globals := t.globals, functions := t.functions, strings := t.strings }

theorem State.place_withTables (s t : State) (code : List Instr) :
    (s.withTables t).place code = (s.place code).withTables t := by
  rcases s with ⟨_, _, _, _, _, _, _ | _, _, _⟩ <;> rfl

/-- What code refers to by number: string constants and functions. -/
structure Tables where
  strings : List String
  signatures : List Signature

def State.tables (s : State) : Tables := ⟨s.strings, s.functions.map (·.signature)⟩

/-- Tables that have grown keep what they had. -/
structure Tables.Le (t t' : Tables) : Prop where
  strings : t.strings <+: t'.strings
  signatures : t.signatures <+: t'.signatures

variable {index : Nat} {t t' : Tables}

theorem Tables.Le.getElem?_strings (h : t.Le t') {text : String}
    (htext : t.strings[index]? = some text) : t'.strings[index]? = some text := by
  obtain ⟨rest, hrest⟩ := h.strings
  rw [← hrest, List.getElem?_append_left (List.getElem?_eq_some_iff.mp htext).1, htext]

theorem Tables.Le.getElem?_signatures (h : t.Le t') {f : Signature}
    (hf : t.signatures[index]? = some f) : t'.signatures[index]? = some f := by
  obtain ⟨rest, hrest⟩ := h.signatures
  rw [← hrest, List.getElem?_append_left (List.getElem?_eq_some_iff.mp hf).1, hf]

theorem Tables.Le.refl (t : Tables) : t.Le t := ⟨List.prefix_rfl, List.prefix_rfl⟩

theorem Tables.Le.trans {t'' : Tables} (h : t.Le t') (h' : t'.Le t'') : t.Le t'' :=
  ⟨h.strings.trans h'.strings, h.signatures.trans h'.signatures⟩

/-- The string constants of a state are the globals with their numbers. -/
def State.Named (s : State) : Prop :=
  ∀ index text, Global.str index text ∈ s.globals ↔ s.strings[index]? = some text

/-- The variables among globals, with their initial values. -/
def varsOf (globals : List Global) : List (String × Operand) :=
  globals.filterMap fun
    | .var name init => some (name, init)
    | .str _ _ => none

theorem mem_varsOf {globals : List Global} {name : String} {init : Operand} :
    (name, init) ∈ varsOf globals ↔ Global.var name init ∈ globals := by
  induction globals with
  | nil => simp [varsOf]
  | cons g rest ih =>
    cases g with
    | var name' init' => simpa [varsOf] using or_congr_right ih
    | str index text => simpa [varsOf] using ih

/-- Only the functions of the host that read and write take more arguments than they have
parameters. -/
def Tables.Ordinary (t : Tables) : Prop :=
  ∀ callee ∈ t.signatures, callee.variadic = true →
    callee = Runtime.printf.function.signature ∨ callee = Runtime.scanf.function.signature

/-- The tables of a state have grown: string constants and functions of the host were added. -/
structure Grown (s s' : State) : Prop where
  strings : s.strings <+: s'.strings
  named : s.Named → s'.Named
  vars : varsOf s'.globals = varsOf s.globals
  functions : s.functions <+: s'.functions
  declared : ∀ i f, s.functions.length ≤ i → s'.functions[i]? = some f →
    ∃ r : Runtime, f = r.function

namespace Grown

variable {s s' s'' : State}

theorem of_eq (hglobals : s'.globals = s.globals) (hstrings : s'.strings = s.strings)
    (hfunctions : s'.functions = s.functions) : Grown s s' := by
  refine ⟨hstrings ▸ List.prefix_rfl, fun hnamed index text => ?_, by rw [hglobals],
    hfunctions ▸ List.prefix_rfl, fun i f hi hf => ?_⟩
  · rw [hglobals, hstrings]
    exact hnamed index text
  · rw [hfunctions, List.getElem?_eq_none hi] at hf
    cases hf

theorem refl (s : State) : Grown s s := .of_eq rfl rfl rfl

theorem trans (h : Grown s s') (h' : Grown s' s'') : Grown s s'' := by
  refine ⟨h.strings.trans h'.strings, fun hnamed => h'.named (h.named hnamed), h'.vars.trans h.vars,
    h.functions.trans h'.functions, fun i f hi hf => ?_⟩
  rcases Nat.lt_or_ge i s'.functions.length with hlt | hge
  · obtain ⟨more, hmore⟩ := h'.functions
    rw [← hmore, List.getElem?_append_left hlt] at hf
    exact h.declared i f hi hf
  · exact h'.declared i f hge hf

theorem tables (h : Grown s s') : s.tables.Le s'.tables := ⟨h.strings, h.functions.map _⟩

theorem ordinary (h : Grown s s') (hs : s.tables.Ordinary) : s'.tables.Ordinary := by
  intro callee hcallee hvariadic
  obtain ⟨f, hf, rfl⟩ := List.mem_map.mp hcallee
  obtain ⟨i, hi⟩ := List.mem_iff_getElem?.mp hf
  rcases Nat.lt_or_ge i s.functions.length with hlt | hge
  · obtain ⟨more, hmore⟩ := h.functions
    rw [← hmore, List.getElem?_append_left hlt] at hi
    exact hs _ (List.mem_map_of_mem (List.mem_of_getElem? hi)) hvariadic
  · obtain ⟨r, rfl⟩ := h.declared i f hge hi
    cases r with
    | printf => exact .inl rfl
    | scanf => exact .inr rfl
    | exit | strcmp => cases hvariadic

theorem getElem?_functions (h : Grown s s') {index : Nat} {f : Function}
    (hf : s.functions[index]? = some f) : s'.functions[index]? = some f := by
  obtain ⟨rest, hrest⟩ := h.functions
  rw [← hrest, List.getElem?_append_left (List.getElem?_eq_some_iff.mp hf).1, hf]

end Grown

/-- One state comes from another by adding instructions. Tables may have grown, and all functions
that are called are in them. -/
structure Emitted (s : State) (code : List Instr) (s' : State) : Prop extends Grown s s' where
  place : s'.withTables s = s.place code
  callees : ∀ callee args, .call callee args ∈ code → callee ∈ s'.tables.signatures

namespace Emitted

variable {s s' s'' : State} {code code' : List Instr}

theorem of_eq (hplace : s' = s.place code) (hcallees : ∀ callee args, .call callee args ∈ code →
    callee ∈ s.tables.signatures) : Emitted s code s' := by
  have htables : s'.globals = s.globals ∧ s'.strings = s.strings ∧ s'.functions = s.functions := by
    rw [hplace, State.place]
    split <;> exact ⟨rfl, rfl, rfl⟩
  obtain ⟨hglobals, hstrings, hfunctions⟩ := htables
  refine ⟨.of_eq hglobals hstrings hfunctions, ?_, ?_⟩
  · rw [← hplace, State.withTables, ← hglobals, ← hstrings, ← hfunctions]
  · rw [State.tables, hfunctions]
    exact hcallees

theorem refl (s : State) : Emitted s [] s := .of_eq s.place_nil.symm nofun

theorem trans (h : Emitted s code s') (h' : Emitted s' code' s'') :
    Emitted s (code ++ code') s'' := by
  refine ⟨h.toGrown.trans h'.toGrown, ?_, fun callee args hcall => ?_⟩
  · calc s''.withTables s = (s''.withTables s').withTables s := rfl
      _ = (s'.withTables s).place code' := by rw [h'.place, State.place_withTables]
      _ = s.place (code ++ code') := by rw [h.place, State.place_append]
  · rcases List.mem_append.mp hcall with hcall | hcall
    · exact h'.tables.signatures.subset (h.callees callee args hcall)
    · exact h'.callees callee args hcall

theorem nextReg (h : Emitted s code s') : s'.nextReg = s.nextReg + code.length := by
  have := congrArg State.nextReg h.place
  rcases s with ⟨_, _, _, _, _, _, _ | _, _, _⟩ <;> exact this

theorem nextBlock (h : Emitted s code s') : s'.nextBlock = s.nextBlock := by
  have := congrArg State.nextBlock h.place
  rcases s with ⟨_, _, _, _, _, _, _ | _, _, _⟩ <;> exact this

end Emitted

end Lowering

namespace Lower

open Lowering

variable {α β : Type} {s s' s'' : State} {code code' : List Instr}

/-- A computation returns a value, adding instructions and nothing else. -/
structure Emits (m : Lower α) (s : State) (code : List Instr) (a : α) (s' : State) : Prop where
  runs : m s = .ok (a, s')
  emitted : Emitted s code s'

namespace Emits

theorem pure (a : α) (s : State) : Emits (Pure.pure a) s [] a s := ⟨rfl, .refl s⟩

variable {a : α} {m : Lower α}

theorem bind {f : α → Lower β} {b : β} (hm : Emits m s code a s')
    (hf : Emits (f a) s' code' b s'') : Emits (m >>= f) s (code ++ code') b s'' := by
  refine ⟨?_, hm.emitted.trans hf.emitted⟩
  rw [run_bind hm.runs]
  exact hf.runs

theorem map {f : α → β} (hm : Emits m s code a s') : Emits (do return f (← m)) s code (f a) s' := by
  have := hm.bind (f := fun a => Pure.pure (f a)) (.pure (f a) s')
  rwa [List.append_nil] at this

theorem lift {x : Except Fault α} (hx : x = .ok a) (s : State) : Emits (liftM x) s [] a s := by
  subst hx
  exact ⟨rfl, .refl s⟩

theorem emit {instr : Instr} (h : instr.isSlot = false) (s : State)
    (hcallee : ∀ callee args, instr = .call callee args → callee ∈ s.tables.signatures := by
      exact nofun) :
    Emits (Lower.emit instr) s [instr] (.reg s.nextReg instr.ty) (s.place [instr]) := by
  have hplace : s.place [instr] = { s with
      nextReg := s.nextReg + 1
      block := { s.block with lines := s.block.lines ++ [⟨s.nextReg, instr⟩] }
      edits := s.edits ++ [(s.block.id, .append ⟨s.nextReg, instr⟩)] } := by
    rcases s with ⟨_, _, _, _, _, _, _ | _, _, _⟩ <;> simp [State.place, number, slotsOf, workOf, h]
  refine ⟨?_, .of_eq rfl fun callee args hcall => ?_⟩
  · rw [hplace]
    rfl
  · exact hcallee callee args (List.mem_singleton.mp hcall).symm

theorem store {v address : Operand} (h : address.ty = .ptr v.ty) (s : State) :
    Emits (Lower.store v address) s [.store v address] () (s.place [.store v address]) := by
  have hrun : Lower.store v address = (do let _ ← Lower.emit (.store v address)) := by
    simp [Lower.store, h]
  rw [hrun]
  exact map (f := fun _ => ()) (.emit rfl s)

theorem alloca (content : Ty) (h : s.done = []) :
    Emits (Lower.emit (.alloca content)) s [.alloca content] (.reg s.nextReg (.ptr content))
      (s.place [.alloca content]) := by
  obtain ⟨_, _, _, _, _, _, done, _, _⟩ := s
  subst h
  exact ⟨rfl, .of_eq rfl (by simp)⟩

theorem entryAlloca (content : Ty) (s : State) :
    Emits (Lower.entryAlloca content) s [.alloca content] (.reg s.nextReg (.ptr content))
      (s.place [.alloca content]) := by
  obtain ⟨_, _, _, _, _, _, done, _, _⟩ := s
  cases done with
  | nil => exact ⟨rfl, .of_eq rfl (by simp)⟩
  | cons entry rest =>
    refine ⟨?_, .of_eq rfl (by simp)⟩
    simp [State.place, number, slotsOf, workOf, Instr.isSlot]
    rfl

/-- A text gets a constant, a new one or one that is there. -/
theorem string (text : String) (s : State) :
    ∃ index s', Emits (Lower.string text) s [] (.text index (text.utf8ByteSize + 1)) s' ∧
      s'.strings[index]? = some text := by
  by_cases h : text ∈ s.strings
  · refine ⟨s.strings.idxOf text, s, ⟨?_, .refl s⟩, List.getElem?_idxOf h⟩
    change (if text ∈ s.strings then Pure.pure _ else _ : Lower Operand) s = _
    rw [if_pos h]
    rfl
  · refine ⟨s.strings.length, { s with
      strings := s.strings ++ [text]
      globals := s.globals ++ [Global.str s.strings.length text] }, ⟨?_, ?_⟩, by simp⟩
    · change (if text ∈ s.strings then Pure.pure _ else _ : Lower Operand) s = _
      rw [if_neg h]
      rfl
    · refine ⟨⟨List.prefix_append _ _, fun hnamed i t => ?_, by simp [varsOf], List.prefix_rfl,
        (Grown.refl s).declared⟩, s.place_nil.symm, nofun⟩
      rw [List.mem_append, hnamed i t, List.mem_singleton, Global.str.injEq]
      rcases Nat.lt_trichotomy i s.strings.length with hi | rfl | hi
      · rw [List.getElem?_append_left hi]
        simp [hi.ne]
      · simp [eq_comm]
      · have hend : (s.strings ++ [text]).length ≤ i := by
          rw [List.length_append]
          exact hi
        simp [List.getElem?_eq_none hend, hi.le, hi.ne']

theorem runtime (r : Runtime) (s : State) :
    ∃ s', Emits (Lower.runtime r) s [] r.function.signature s' ∧
      r.function.signature ∈ s'.tables.signatures := by
  have hrun : Lower.runtime r s = (if r.function.signature ∉ s.functions.map (·.signature) then do
      set { s with functions := s.functions ++ [r.function] }
      return r.function.signature
    else return r.function.signature : Lower Signature) s := rfl
  by_cases h : r.function.signature ∈ s.functions.map (·.signature)
  · refine ⟨s, ⟨?_, .refl s⟩, h⟩
    rw [hrun, if_neg (not_not.mpr h)]
    rfl
  · refine ⟨{ s with functions := s.functions ++ [r.function] }, ⟨?_, ?_⟩, ?_⟩
    · rw [hrun, if_pos h]
      rfl
    · refine ⟨⟨List.prefix_rfl, id, rfl, List.prefix_append _ _, fun i f hi hf => ?_⟩,
        s.place_nil.symm, nofun⟩
      rw [List.getElem?_append_right hi] at hf
      exact ⟨r, List.mem_singleton.mp (List.mem_of_getElem? hf)⟩
    · simp [State.tables]

end Emits

/-- A computation adds instructions that, with the value it returns, are as `P` says, whatever the
tables grow to afterwards. -/
def Generates (m : Lower α) (s : State) (P : Tables → List Instr → α → Prop) : Prop :=
  ∃ code a s', Emits m s code a s' ∧ ∀ tables, s'.tables.Le tables → P tables code a

namespace Generates

variable {m : Lower α} {f : α → Lower β} {P : Tables → List Instr → α → Prop}
  {Q : Tables → List Instr → β → Prop} {a : α}

theorem pure (h : ∀ tables, s.tables.Le tables → P tables [] a) :
    Generates (Pure.pure a) s P := ⟨[], a, s, .pure a s, h⟩

theorem bind (hm : Generates m s P)
    (hf : ∀ code a s', Emitted s code s' → P s'.tables code a →
      Generates (f a) s' fun tables code' b => P tables code a → Q tables (code ++ code') b) :
    Generates (m >>= f) s Q := by
  obtain ⟨code, a, s', hemits, hcode⟩ := hm
  obtain ⟨code', b, s'', hemits', hcode'⟩ := hf code a s' hemits.emitted (hcode _ (.refl _))
  refine ⟨code ++ code', b, s'', hemits.bind hemits', fun tables hle => ?_⟩
  exact hcode' tables hle (hcode tables (hemits'.emitted.tables.trans hle))

theorem imp {Q : Tables → List Instr → α → Prop} (hm : Generates m s P)
    (h : ∀ tables code a, P tables code a → Q tables code a) : Generates m s Q := by
  obtain ⟨code, a, s', hemits, hcode⟩ := hm
  exact ⟨code, a, s', hemits, fun tables hle => h tables code a (hcode tables hle)⟩

theorem above (hm : Generates m s P) :
    Generates m s fun tables code a => s.tables.Le tables ∧ P tables code a := by
  obtain ⟨code, a, s', hemits, hcode⟩ := hm
  refine ⟨code, a, s', hemits, fun tables hle => ⟨?_, hcode tables hle⟩⟩
  exact hemits.emitted.tables.trans hle

theorem map {g : α → β} (hm : Generates m s fun tables code a => Q tables code (g a)) :
    Generates (do return g (← m)) s Q := by
  obtain ⟨code, a, s', hemits, hcode⟩ := hm
  exact ⟨code, g a, s', hemits.map, hcode⟩

theorem lift_bind {x : Except Fault α} (hx : x = .ok a) (hf : Generates (f a) s Q) :
    Generates (liftM x >>= f) s Q := by
  obtain ⟨code, b, s', hemits, hcode⟩ := hf
  exact ⟨code, b, s', (Emits.lift hx s).bind hemits, hcode⟩

theorem get_bind {f : State → Lower β} (hf : Generates (f s) s Q) : Generates (get >>= f) s Q := by
  obtain ⟨code, b, s', hemits, hcode⟩ := hf
  exact ⟨code, b, s', ⟨hemits.runs, hemits.emitted⟩, hcode⟩

theorem emit {instr : Instr} (hslot : instr.isSlot = false)
    {P : Tables → List Instr → Operand → Prop}
    (h : ∀ tables, P tables [instr] (.reg s.nextReg instr.ty))
    (hcallee : ∀ callee args, instr = .call callee args → callee ∈ s.tables.signatures := by
      exact nofun) :
    Generates (Lower.emit instr) s P :=
  ⟨[instr], _, _, .emit hslot s hcallee, fun tables _ => h tables⟩

end Generates

end Lower

end Oberlet
