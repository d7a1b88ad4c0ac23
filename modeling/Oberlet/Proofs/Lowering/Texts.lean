import Oberlet.Proofs.Lowering.Tally

/-!
# The texts that code needs

Code needs string constants for literals, for the formats of the built-ins that print and read, and
for the empty string that stands in for a string that was never assigned.
-/

namespace Oberlet

open Llvm Lowering

/-! ## Texts -/

/-- The texts that a comparison of values of a type asks for: the empty string, for each operand
that is not a string constant. -/
def DataType.guards : DataType → (left right : Bool) → List String
  | .string, left, right => (if left then [] else [""]) ++ (if right then [] else [""])
  | .array size elem, _, _ => (List.replicate size.toNat (elem.guards false false)).flatten
  | _, _, _ => []

def Subprogram.format? (s : Subprogram) : Option String :=
  if s.builtin then printFormats.lookup s.name <|> (readFormats.lookup s.name).map (·.1) else none

/-- Whether the value of an expression is a string constant. -/
def Expr.isText : Expr → Bool
  | .literal _ (.string _) => true
  | .paren _ inner => inner.isText
  | .sum _ negate first rest => !negate && (rest.isEmpty && first.isText)
  | .product _ first rest => rest.isEmpty && first.isText
  | _ => false

mutual

def Expr.texts (a : Annotations) : Expr → List String
  | .literal _ (.string text) => [text]
  | .literal _ _ => []
  | .paren _ inner => inner.texts a
  | .not _ operand => operand.texts a
  | .designator ⟨_, _, selectors⟩ => textsOfAll a selectors
  | .call c => c.texts a
  | .comparison _ left _ right =>
    left.texts a ++ (right.texts a ++
      ((a.typeOf left.id).toOption.elim [] (·.guards left.isText right.isText)))
  | .sum _ _ first rest => first.texts a ++ textsOfChain a rest
  | .product _ first rest => first.texts a ++ textsOfChain a rest

/-- The texts that the code of a call asks for: those of the arguments, then the format. -/
def Call.texts (a : Annotations) : Call Expr → List String
  | ⟨node, _, args⟩ =>
    textsOfAll a args ++ ((a.symbolOf Symbol.proc? node.id).toOption.bind (·.format?)).toList

def textsOfAll (a : Annotations) : List Expr → List String
  | [] => []
  | e :: rest => e.texts a ++ textsOfAll a rest

def textsOfChain (a : Annotations) : List (BinOp × Expr) → List String
  | [] => []
  | (_, e) :: rest => e.texts a ++ textsOfChain a rest

end

def Call.halts (a : Annotations) (c : Call Expr) : Bool :=
  (a.symbolOf Symbol.proc? c.node.id).toOption.any fun s => s.builtin && s.name == "HALT"

/-- Whether no code is generated behind a statement. -/
def Stmt.ends (a : Annotations) : Stmt → Bool
  | .call _ c => c.halts a
  | .exit _ | .ret _ _ => true
  | _ => false

mutual

/-- The texts that the code of a statement asks for. The value that the body of the module returns
is not evaluated. -/
def Stmt.texts (a : Annotations) (isMain : Bool) : Stmt → List String
  | .assign _ target value => (Expr.designator target).texts a ++ value.texts a
  | .call _ c => c.texts a
  | .ite _ branches none => textsOfBranches a isMain branches
  | .ite _ branches (some body) => textsOfBranches a isMain branches ++ textsOfBody a isMain body
  | .loop _ cond body => cond.texts a ++ textsOfBody a isMain body
  | .exit _ => []
  | .ret _ none => []
  | .ret _ (some value) => if isMain then [] else value.texts a

def textsOfBranches (a : Annotations) (isMain : Bool) : List (Branch Stmt) → List String
  | [] => []
  | ⟨_, cond, body⟩ :: rest =>
    cond.texts a ++ (textsOfBody a isMain body ++ textsOfBranches a isMain rest)

/-- The texts that the code of a list of statements asks for. Nothing is generated behind one that
ends its block. -/
def textsOfBody (a : Annotations) (isMain : Bool) : List Stmt → List String
  | [] => []
  | stmt :: rest => stmt.texts a isMain ++ if stmt.ends a then [] else textsOfBody a isMain rest

end

def textsOfSubprograms (a : Annotations) : List SubprogramDecl → List String
  | [] => []
  | .forward _ _ :: rest => textsOfSubprograms a rest
  | .definition _ _ _ body :: rest => textsOfBody a false body ++ textsOfSubprograms a rest

/-- The texts that the code of a module asks for, in order. -/
def Program.texts (p : Program) (a : Annotations) : List String :=
  textsOfSubprograms a p.subprograms ++ textsOfBody a true p.body

/-! ## Constants -/

/-- The constant of a text, by the place of the text among all. -/
def constant (strings : List String) (text : String) : Operand :=
  .text (strings.idxOf text) (text.utf8ByteSize + 1)

def Llvm.Operand.isText : Operand → Bool
  | text _ _ => true
  | _ => false

def Llvm.Block.operands (b : Block) : List Operand :=
  b.lines.flatMap (·.instr.operands) ++ (b.term.map (·.operands)).getD []

def operandsOf (blocks : List Block) : List Operand := blocks.flatMap (·.operands)

def operandsIn (functions : List Function) : List Operand :=
  functions.flatMap fun f => operandsOf f.blocks

def Lowering.State.operands (s : State) : List Operand :=
  operandsIn (s.functions.eraseIdx s.function) ++ operandsOf s.blocks

/-- Two lists of operands have the same string constants, each as often. -/
def Llvm.SameTexts (xs ys : List Operand) : Prop :=
  ∀ index size, xs.count (.text index size) = ys.count (.text index size)

theorem Llvm.Operand.count_of_isText_eq_false {v : Operand} (h : v.isText = false)
    (xs : List Operand) (index size : Nat) :
    (v :: xs).count (.text index size) = xs.count (.text index size) := by
  refine List.count_cons_of_ne ?_
  rintro rfl
  cases h

variable {xs ys : List Operand}

theorem Llvm.SameTexts.of_perm (h : xs.Perm ys) : SameTexts xs ys :=
  fun _ _ => h.count_eq _

theorem Llvm.SameTexts.perm (h : SameTexts xs ys) :
    (xs.filter (·.isText)).Perm (ys.filter (·.isText)) := by
  refine List.perm_iff_count.mpr fun v => ?_
  cases hv : v.isText with
  | true =>
    rw [List.count_filter hv, List.count_filter hv]
    cases v with
    | text index size => exact h index size
    | _ => cases hv
  | false =>
    have hnot (zs : List Operand) : v ∉ zs.filter (·.isText) := fun hmem => by
      rw [(List.mem_filter.mp hmem).2] at hv
      cases hv
    rw [List.count_eq_zero_of_not_mem (hnot xs), List.count_eq_zero_of_not_mem (hnot ys)]

theorem constant_append {strings more : List String} {text : String} (h : text ∈ strings) :
    constant (strings ++ more) text = constant strings text := by
  rw [constant, constant, List.idxOf_append, if_pos h]

theorem map_constant_eraseDups (texts more : List String) :
    texts.map (constant (texts ++ more).eraseDups) = texts.map (constant texts.eraseDups) := by
  refine List.map_congr_left fun text htext => ?_
  rw [List.eraseDups_append]
  exact constant_append (List.mem_eraseDups.mpr htext)

theorem eraseDups_concat (texts : List String) (text : String) :
    (texts ++ [text]).eraseDups =
      if text ∈ texts.eraseDups then texts.eraseDups else texts.eraseDups ++ [text] := by
  by_cases h : text ∈ texts <;>
    simp [List.eraseDups_append, List.removeAll, h, List.eraseDups_cons]

/-! ## What is asked for and used -/

/-- Each text that was asked for is a constant, in the order in which they were first asked for, and
the code so far uses all of them but for those among the operands that are still at hand. The last
block has ended or not. -/
structure Spelling (o : Outset) (owed : List Runtime) (texts : List String) (hand : List Operand)
    (ended : Bool) (s : State) : Prop extends Working o owed s where
  strings : s.strings = texts.eraseDups
  uses : SameTexts (s.operands ++ hand) (texts.map (constant texts.eraseDups))
  ended : s.block.term.isSome = ended

namespace Spelling

variable {o : Outset} {owed : List Runtime} {texts : List String} {hand hand' : List Operand}
  {ended : Bool} {s : State}

theorem hand_congr (h : Spelling o owed texts hand ended s) (hhand : SameTexts hand' hand) :
    Spelling o owed texts hand' ended s := by
  refine ⟨h.toWorking, h.strings, fun index size => ?_, h.ended⟩
  rw [← h.uses index size, List.count_append, List.count_append, hhand index size]

theorem use (used : List Operand) (h : Spelling o owed texts (used ++ hand) ended s) (s' : State)
    (hglobals : s'.globals = s.globals) (hstrings : s'.strings = s.strings)
    (hfunctions : s'.functions = s.functions) (hfunction : s'.function = s.function)
    (hlines : linesOf s.blocks ⊆ linesOf s'.blocks)
    (hoperands : SameTexts (operandsOf s'.blocks) (operandsOf s.blocks ++ used)) :
    Spelling o owed texts hand s'.block.term.isSome s' := by
  refine ⟨h.extend hglobals hstrings hfunctions hfunction hlines, hstrings.trans h.strings,
    fun index size => ?_, rfl⟩
  have huses := h.uses index size
  have hnew := hoperands index size
  simp only [State.operands, hfunctions, hfunction, List.count_append] at huses hnew ⊢
  omega

/-- A text gets a constant when it is first asked for. -/
theorem ask {text : String} (h : Spelling o owed texts hand ended s) {strings : List String}
    {globals : List Global} (hstrings : strings = (texts ++ [text]).eraseDups)
    (hglobals : globals = o.vars ++ textGlobals strings) :
    Spelling o owed (texts ++ [text]) (constant strings text :: hand) ended
      { s with strings, globals } := by
  refine ⟨⟨hglobals, h.hosts, h.kept⟩, hstrings, fun index size => ?_, h.ended⟩
  have huses := h.uses index size
  rw [← map_constant_eraseDups texts [text], ← hstrings] at huses
  rw [← hstrings]
  have hsame : ({ s with strings, globals } : State).operands = s.operands := rfl
  rw [hsame]
  simp only [List.count_append, List.count_cons, List.map_append, List.map_cons, List.map_nil,
    List.count_nil] at huses ⊢
  omega

end Spelling

/-- Values that may contain operands. -/
class Lower.Holds (α : Type) where
  held : α → List Operand

open Lower.Holds (held)

instance : Lower.Holds Operand := ⟨fun v => [v]⟩

instance : Lower.Holds (Option Operand) := ⟨Option.toList⟩

instance : Lower.Holds (List Operand) := ⟨fun vs => vs⟩

instance : Lower.Holds Unit := ⟨fun _ => []⟩

/-- A computation makes the calls that are `due`, uses the operands `taken`, asks for texts, and
leaves the operands in its value to be used. The last block has not ended before and behind it. -/
def Lower.Spells {α : Type} [Holds α] (due : List Runtime) (taken : List Operand) (m : Lower α)
    (texts : List String) (P : α → Prop) : Prop :=
  ∀ o owed before hand, Ensures (Spelling o (due ++ owed) before (taken ++ hand) false) m fun a s =>
    P a ∧ Spelling o owed (before ++ texts) (held a ++ hand) false s

abbrev Lower.Anything {α : Type} (_ : α) : Prop := True

namespace Lower.Spells

variable {α β : Type} [Holds α] [Holds β] {due due' : List Runtime} {taken taken' : List Operand}
  {m : Lower α} {f : α → Lower β} {texts texts' : List String} {P : α → Prop} {Q : β → Prop}

theorem pure {a : α} (h : P a) : Spells [] (held a) (Pure.pure a) [] P := by
  intro o owed before hand
  refine .pure fun s hs => ⟨h, ?_⟩
  rwa [List.append_nil]

theorem throw (fault : Fault) : Spells due taken (throw fault : Lower α) texts P :=
  fun _ _ _ _ => .throw fault

/-- Texts are asked for in the order of the parts. -/
theorem bind (kept : List Operand) (hm : Spells due taken m texts P)
    (hf : ∀ a, P a → Spells due' (held a ++ kept) (f a) texts' Q) :
    Spells (due ++ due') (taken ++ kept) (m >>= f) (texts ++ texts') Q := by
  intro o owed before hand
  rw [List.append_assoc, List.append_assoc, ← List.append_assoc before]
  refine (hm o (due' ++ owed) before (kept ++ hand)).bind fun a => .assume fun ha => ?_
  rw [← List.append_assoc]
  exact hf a ha o owed (before ++ texts) hand

theorem lift_bind {γ : Type} {x : Except Fault γ} {f : γ → Lower β}
    (hf : ∀ a, x = .ok a → Spells due taken (f a) texts' Q) :
    Spells due taken (liftM x >>= f) texts' Q :=
  fun o owed before hand => .lift_bind fun a ha => hf a ha o owed before hand

theorem congr (h : Spells due taken m texts P) (htaken : SameTexts taken' taken) :
    Spells due taken' m texts P := by
  intro o owed before hand
  refine (h o owed before hand).of_imp fun s hs => hs.hand_congr fun index size => ?_
  rw [List.count_append, List.count_append, htaken index size]

theorem imp (h : Spells due taken m texts P) {P' : α → Prop} (himp : ∀ a, P a → P' a) :
    Spells due taken m texts P' :=
  fun o owed before hand s a s' hs hrun =>
    (h o owed before hand s a s' hs hrun).imp_left (himp a)

theorem runtime {r : Runtime} {f : Signature → Lower α}
    (h : Spells [r] taken (f r.function.signature) texts P) :
    Spells [] taken (runtime r >>= f) texts P := by
  intro o owed before hand
  refine Ensures.bind (Q := fun callee s => callee = r.function.signature ∧
    Spelling o (r :: owed) before (taken ++ hand) false s) (.get_bind fun s hs => ?_)
    fun callee => .assume fun hcallee => hcallee ▸ h o owed before hand
  dsimp only
  split
  · rename_i hr
    refine .bind (Q := fun _ => Spelling o (r :: owed) before (taken ++ hand) false) (.set ?_)
      fun _ => .pure fun _ hs => ⟨rfl, hs⟩
    refine ⟨hs.declare hr, hs.strings, fun index size => ?_, hs.ended⟩
    have huses := hs.uses index size
    simpa [State.operands, List.eraseIdx_append_of_lt_length hs.function_lt, operandsIn,
      r.blocks_function, operandsOf] using huses
  · refine .pure fun _ heq => ⟨rfl, ?_⟩
    subst heq
    exact ⟨hs.owe r, hs.strings, hs.uses, hs.ended⟩

end Lower.Spells

section

variable {o : Outset} {owed : List Runtime} {texts : List String} {hand : List Operand}

/-! ## Instructions -/

namespace Lower

theorem emit_uses (instr : Instr) :
    Ensures (Spelling o owed texts (instr.operands ++ hand) false) (emit instr) fun v s =>
      v.isText = false ∧ Spelling o owed texts hand false s := by
  rintro s _ _ hs ⟨⟩
  have hopen : s.block.term = none := by simpa using hs.ended
  have huse := hs.use instr.operands { s with
    nextReg := s.nextReg + 1
    block := { s.block with lines := s.block.lines ++ [⟨s.nextReg, instr⟩] }
    edits := s.edits ++ [(s.block.id, .append ⟨s.nextReg, instr⟩)] } rfl rfl rfl rfl
      (fun line hline => by
        simp only [State.blocks, linesOf_append, linesOf_cons, List.mem_append] at hline ⊢
        tauto)
      fun index size => by simp [operandsOf, Block.operands, hopen]
  rw [hopen] at huse
  exact ⟨rfl, huse⟩

theorem emit_spells (instr : Instr) :
    Spells [] instr.operands (emit instr) [] (·.isText = false) := by
  intro o owed before hand s v s' hs hrun
  obtain ⟨hv, huse⟩ := emit_uses instr s v s' hs hrun
  rw [List.append_nil]
  exact ⟨hv, huse.hand_congr (Operand.count_of_isText_eq_false hv hand)⟩

theorem emit_call_spells (r : Runtime) (args : List Operand) :
    Spells [r] args (emit (.call r.function.signature args)) [] (·.isText = false) := by
  intro o owed before hand s v s' hs hrun
  obtain ⟨hv, hspelling⟩ := emit_spells (.call r.function.signature args) o (r :: owed) before hand
    s v s' hs hrun
  have hline : ⟨s.nextReg, .call r.function.signature args⟩ ∈ linesOf s'.blocks := by
    cases hrun
    simp [State.blocks, linesOf_append, linesOf_cons]
  exact ⟨hv, hspelling.pay hline rfl, hspelling.strings, hspelling.uses, hspelling.ended⟩

theorem entryAlloca_spells (content : Ty) :
    Spells [] [] (entryAlloca content) [] (·.isText = false) := by
  intro o owed before hand s _ s' hs hrun
  cases (Emits.entryAlloca content s).runs.symm.trans hrun
  have hblocks : SameTexts (operandsOf (s.place [.alloca content]).blocks)
      (operandsOf s.blocks ++ []) := by
    intro index size
    cases hdone : s.done <;>
      simp [State.place, hdone, operandsOf, Block.operands, number, slotsOf, workOf, Instr.isSlot,
        Instr.operands]
  have huse := hs.use [] (s.place [.alloca content]) (by rw [State.place]; split <;> rfl)
    (by rw [State.place]; split <;> rfl) (by rw [State.place]; split <;> rfl)
    (by rw [State.place]; split <;> rfl) (linesOf_place s _) hblocks
  have hterm : (s.place [.alloca content]).block.term = s.block.term := by
    rw [State.place]
    split <;> rfl
  rw [hterm, hs.ended] at huse
  rw [List.append_nil]
  exact ⟨rfl, huse.hand_congr (Operand.count_of_isText_eq_false rfl hand)⟩

theorem string_spells (text : String) :
    Spells [] [] (string text) [text] (·.isText = true) := by
  intro o owed before hand
  refine .get_bind fun s hs => ?_
  have hstrings := eraseDups_concat before text
  rw [← hs.strings] at hstrings
  dsimp only
  split
  · rename_i hmem
    rw [if_pos hmem] at hstrings
    refine .pure fun _ heq => ⟨rfl, ?_⟩
    subst heq
    exact hs.ask hstrings.symm hs.globals
  · rename_i hmem
    rw [if_neg hmem] at hstrings
    have hindex : (s.strings ++ [text]).idxOf text = s.strings.length := by
      rw [List.idxOf_append, if_neg hmem, List.idxOf_cons_self, Nat.zero_add]
    refine .bind (Q := fun _ => Spelling o owed (before ++ [text])
      (.text s.strings.length (text.utf8ByteSize + 1) :: hand) false) (.set ?_) fun _ =>
        .pure fun _ hs => ⟨rfl, hs⟩
    have hglobals : s.globals ++ [Global.str s.strings.length text] =
        o.vars ++ textGlobals (s.strings ++ [text]) := by
      rw [hs.globals, List.append_assoc, textGlobals, textGlobals, List.mapIdx_concat]
    have hask := hs.ask hstrings.symm hglobals
    rwa [constant, hindex] at hask

theorem store_spells (value address : Operand) :
    Spells [] [value, address] (store value address) [] Anything := by
  rw [store]
  have hemit : Spells [] [value, address] (do let _ ← emit (.store value address)) [] Anything :=
    (emit_spells (.store value address)).bind [] fun v hv =>
      (Spells.pure (a := ()) trivial).congr (Operand.count_of_isText_eq_false hv [])
  split
  · exact fun _ _ _ _ => Ensures.bind (Q := fun _ _ => False) (.throw _) fun _ _ _ _ h => h.elim
  · exact hemit

theorem icmp_spells (pred : IntPred) (left right : Operand) :
    Spells [] [left, right] (icmp pred left right) [] (·.isText = false) := by
  rw [icmp]
  split
  all_goals first | exact emit_spells (.icmp pred left right) | exact .throw _

theorem fcmp_spells (pred : RealPred) (left right : Operand) :
    Spells [] [left, right] (fcmp pred left right) [] (·.isText = false) := by
  rw [fcmp]
  split
  · exact emit_spells (.fcmp pred left right)
  · exact .throw _

theorem extractValue_spells (aggregate : Operand) (index : Nat) :
    Spells [] [] (extractValue aggregate index) []
      fun v => v.isText = false ∧ aggregate.isText = false := by
  rw [extractValue]
  split
  · rename_i elem hty
    have haggregate : aggregate.isText = false := by
      cases aggregate with
      | text => cases hty
      | _ => rfl
    refine ((emit_spells (.extractValue aggregate elem index)).congr fun index size => ?_).imp
      fun v hv => ⟨hv, haggregate⟩
    exact (Operand.count_of_isText_eq_false haggregate [] index size).symm
  · exact .throw _

theorem elementPtr_spells (size : Nat) (elem : Ty) (address index : Operand) :
    Spells [] [address, index] (elementPtr size elem address index) []
      (·.isText = false) := by
  rw [elementPtr.eq_def]
  split
  · exact .throw _
  · exact emit_spells (.elementPtr size elem address index)

/-! ## Comparisons -/

theorem nonNull_spells (v : Operand) :
    Spells [] [v] (nonNull v) (if v.isText then [] else [""]) Anything := by
  cases hv : v.isText with
  | true =>
    obtain ⟨index, size, rfl⟩ : ∃ index size, v = .text index size := by
      cases v with
      | text index size => exact ⟨index, size, rfl⟩
      | _ => cases hv
    exact .pure trivial
  | false =>
    have hrun : nonNull v = (do
        let isNull ← icmp .eq v .null
        let empty ← string ""
        emit (.select isNull empty v)) := by
      cases v with
      | text index size => cases hv
      | _ => rfl
    have hselect (isNull : Operand) : Spells [] [isNull, v] (do
        let empty ← string ""
        emit (.select isNull empty v)) [""] Anything :=
      (string_spells "").bind [isNull, v] fun empty _ =>
        ((emit_spells (.select isNull empty v)).congr (.of_perm (.swap _ _ _))).imp
          fun _ _ => trivial
    have hcode := (icmp_spells .eq v .null).bind [v] fun isNull _ => hselect isNull
    rw [hrun]
    -- the string is used twice, but it is no constant
    refine hcode.congr fun index size => ?_
    simp [Operand.count_of_isText_eq_false hv]

end Lower

open Lower

theorem DataType.elementsEqual_spells {elem : DataType}
    (h : ∀ left right, Spells [] [left, right] (elem.lowerEquals left right)
      (elem.guards left.isText right.isText) (·.isText = false))
    (left right : Operand) (count : Nat) :
    Spells [] [] (elementsEqual elem.lowerEquals left right count)
      (List.replicate count (elem.guards false false)).flatten
      fun v => ∀ w, v = some w → w.isText = false ∧ left.isText = false ∧ right.isText = false := by
  induction count with
  | zero =>
    rw [elementsEqual]
    exact .pure (a := none) fun _ hw => by cases hw
  | succ count ih =>
    rw [elementsEqual, List.replicate_succ', List.flatten_concat]
    refine ih.bind [] fun before _ => ?_
    rw [List.append_nil]
    refine (extractValue_spells left count).bind before.toList fun l hl => ?_
    refine (extractValue_spells right count).bind ([l] ++ before.toList) fun r hr => ?_
    have hequals := h l r
    rw [hl.1, hr.1] at hequals
    rw [← List.append_nil (elem.guards false false)]
    have hsome {v : Operand} (hv : v.isText = false) (w : Operand) (hw : some v = some w) :
        w.isText = false ∧ left.isText = false ∧ right.isText = false := by
      cases hw
      exact ⟨hv, hl.2, hr.2⟩
    refine (hequals.bind before.toList fun same hsame => ?_).congr (.of_perm (.swap _ _ _))
    cases before with
    | none => exact .pure (a := some same) (hsome hsame)
    | some before =>
      exact ((emit_spells (.binary .and before same)).bind [] fun v hv =>
        .pure (a := some v) (hsome hv)).congr
        (.of_perm (.swap _ _ _))

/-- A comparison asks for the empty string where strings may be null. -/
theorem DataType.lowerEquals_spells (type : DataType) (left right : Operand) :
    Spells [] [left, right] (type.lowerEquals left right) (type.guards left.isText right.isText)
      (·.isText = false) := by
  induction type generalizing left right with
  | integer | boolean =>
    rw [DataType.lowerEquals]
    exact icmp_spells _ _ _
  | real =>
    rw [DataType.lowerEquals]
    exact fcmp_spells _ _ _
  | string =>
    rw [DataType.lowerEquals, DataType.guards]
    refine .runtime ((nonNull_spells left).bind [right] fun l _ => ?_)
    rw [← List.append_nil (if right.isText = true then [] else [""])]
    refine ((nonNull_spells right).bind [l] fun r _ => ?_).congr (.of_perm (.swap _ _ _))
    have hcall := (emit_call_spells .strcmp [l, r]).bind [.int 0]
      fun order _ => icmp_spells .eq order (.int 0)
    refine hcall.congr fun index size => ?_
    simp [held, List.count_cons, Nat.add_comm]
  | array size elem ih =>
    rw [DataType.lowerEquals, DataType.guards, ← List.append_nil (List.flatten _)]
    refine (DataType.elementsEqual_spells ih left right size.toNat).bind [left, right]
      fun v hv => ?_
    cases v with
    | none => exact .throw _
    | some result =>
      obtain ⟨hresult, hl, hr⟩ := hv result rfl
      refine (Spells.pure (a := result) (P := (·.isText = false)) hresult).congr
        fun index size => ?_
      have hdrop := Operand.count_of_isText_eq_false hl [right] index size
      rw [Operand.count_of_isText_eq_false hr] at hdrop
      simp only [held, Option.toList_some, List.count_append, hdrop, List.count_nil, Nat.add_zero]
  | void | unknown =>
    rw [DataType.lowerEquals]
    exact .throw _

theorem Lower.not_spells (v : Operand) :
    Spells [] [v] (emit (.binary .xor v (.bool true))) [] (·.isText = false) := by
  refine (emit_spells (.binary .xor v (.bool true))).congr fun index size => ?_
  simp [Instr.operands, List.count_cons]

theorem RelOp.lower_spells (op : RelOp) (type : DataType) (left right : Operand) :
    Spells [] [left, right] (op.lower type left right) (type.guards left.isText right.isText)
      (·.isText = false) := by
  rw [RelOp.lower.eq_def]
  split
  · exact icmp_spells _ _ _
  · exact fcmp_spells _ _ _
  · exact type.lowerEquals_spells _ _
  · rw [← List.append_nil (type.guards _ _)]
    exact (type.lowerEquals_spells left right).bind [] fun v _ => not_spells v
  · exact .throw _

/-! ## Calls -/

theorem Lower.terminate_spells (term : Terminator) :
    Ensures (Spelling o owed texts (term.operands ++ hand) false) (terminate term) fun _ =>
      Spelling o owed texts hand true := by
  rintro s _ _ hs ⟨⟩
  have hopen : s.block.term = none := by simpa using hs.ended
  refine hs.use term.operands { s with
    block := { s.block with term := some term }
    edits := s.edits ++ [(s.block.id, .finish term)] } rfl rfl rfl rfl ?_ ?_
  · simp only [State.blocks, linesOf_append, linesOf_cons]
    exact List.Subset.refl _
  · intro index size
    simp [operandsOf, Block.operands, hopen]

theorem Lower.print_spells (format : String) (value : Operand) :
    Spells [] [value] (print format [value]) [format] Anything := by
  change Spells [] [value] (do
    let printf ← runtime .printf
    let format ← string format
    let _ ← emit (.call printf [format, value])) [format] Anything
  refine .runtime ((string_spells format).bind [value] fun text _ => ?_)
  exact (emit_call_spells .printf [text, value]).bind [] fun v hv =>
    (Spells.pure (a := ()) trivial).congr (Operand.count_of_isText_eq_false hv [])

theorem Lower.read_spells (format : String) (ty : Ty) :
    Spells [] [] (read format ty) [format] (·.isText = false) := by
  refine (entryAlloca_spells ty).bind [] fun slot hslot => ?_
  refine .runtime ((string_spells format).bind [slot] fun text _ => ?_)
  refine (emit_call_spells .scanf [text, slot]).bind [] fun v hv => ?_
  refine (emit_spells (.load ty slot)).congr fun index size => ?_
  exact (Operand.count_of_isText_eq_false hv [] index size).trans
    (Operand.count_of_isText_eq_false hslot [] index size).symm

/-- What a call leaves: its value is no string constant, and HALT has none but ends the block. -/
def Called (o : Outset) (owed : List Runtime) (texts : List String) (hand : List Operand)
    (halts : Bool) (v : Option Operand) (s : State) : Prop :=
  (∀ w, v = some w → w.isText = false ∧ halts = false) ∧ Spelling o owed texts hand halts s

variable {taken args : List Operand} {sp : Subprogram}

theorem Lower.Spells.call {m : Lower (Option Operand)}
    (h : Spells [] taken m texts fun v => ∀ w, v = some w → w.isText = false) (before : List String)
    (hand : List Operand) {halts : Bool} (hhalts : halts = false) :
    Ensures (Spelling o owed before (taken ++ hand) false) m
      (Called o owed (before ++ texts) hand halts) := by
  subst hhalts
  intro s v s' hs hrun
  obtain ⟨hv, hspelling⟩ := h o owed before hand s v s' hs hrun
  refine ⟨fun w hw => ⟨hv w hw, rfl⟩, hspelling.hand_congr fun index size => ?_⟩
  cases v with
  | none => rfl
  | some w => exact (Operand.count_of_isText_eq_false (hv w rfl) hand index size).symm

theorem Lower.Spells.some {m : Lower Operand} (h : Spells [] taken m texts (·.isText = false)) :
    Spells [] taken (do return Option.some (← m)) texts
      fun v => ∀ w, v = Option.some w → w.isText = false := by
  have hsome {v : Operand} (hv : v.isText = false) (w : Operand)
    (hw : Option.some v = Option.some w) :
      w.isText = false := by
    cases hw
    exact hv
  rw [← List.append_nil taken, ← List.append_nil texts]
  exact h.bind [] fun v hv => .pure (a := Option.some v) (hsome hv)

theorem Subprogram.lowerBuiltin_spells (h : sp ∈ builtins)
    (hlength : args.length = sp.params.length) (before : List String) (hand : List Operand) :
    Ensures (Spelling o owed before (args ++ hand) false) (lowerBuiltin sp.name args)
      (Called o owed (before ++ sp.format?.toList) hand (sp.name == "HALT")) := by
  have hprint (format : String) (value : Operand) : Spells [] [value] (do
      print format [value]
      return none) [format] fun v => ∀ w : Operand, v = some w → w.isText = false :=
    (print_spells format value).bind [] fun _ _ =>
      .pure (a := none) fun _ hw => by cases hw
  simp only [builtins, List.mem_cons, List.not_mem_nil, or_false] at h
  rcases h with rfl | rfl | rfl | rfl | rfl | rfl | rfl | rfl | rfl
  iterate 4
    obtain ⟨v, rfl⟩ := List.length_eq_one_iff.mp hlength
    exact (hprint _ v).call before hand rfl
  iterate 2
    obtain rfl := List.length_eq_zero_iff.mp hlength
    exact (read_spells _ _).some.call before hand rfl
  · obtain ⟨v, rfl⟩ := List.length_eq_one_iff.mp hlength
    exact (emit_spells (.sitofp v)).some.call before hand rfl
  · obtain ⟨v, rfl⟩ := List.length_eq_one_iff.mp hlength
    exact (emit_spells (.fptosi v)).some.call before hand rfl
  · obtain ⟨v, rfl⟩ := List.length_eq_one_iff.mp hlength
    have hexit : Spells [] [v] (do
        let exit ← runtime .exit
        emit (.call exit [v])) [] (·.isText = false) := .runtime (emit_call_spells .exit [v])
    change Ensures _ (do
      let exit ← runtime .exit
      let _ ← emit (.call exit [v])
      terminate .unreachable
      return none) _
    rw [← bind_assoc]
    refine (hexit o owed before hand).bind fun w => .assume fun hw => ?_
    refine ((terminate_spells .unreachable).of_imp fun s hs => hs.hand_congr fun index size =>
      (Operand.count_of_isText_eq_false hw hand index size).symm).bind fun _ => ?_
    exact .pure fun s hs => ⟨fun _ hw => (by cases hw), hs⟩

theorem Call.halts_of_symbolOf {a : Annotations} {c : Call Expr}
    (h : a.symbolOf Symbol.proc? c.node.id = .ok sp) :
    c.halts a = (sp.builtin && sp.name == "HALT") := by
  rw [Call.halts, h]
  rfl

theorem Subprogram.lowerCall_spells (env : Env)
    (h : sp.builtin = true → sp ∈ builtins ∧ args.length = sp.params.length) (before : List String)
    (hand : List Operand) :
    Ensures (Spelling o owed before (args ++ hand) false) (sp.lowerCall env args)
      (Called o owed (before ++ sp.format?.toList) hand (sp.builtin && sp.name == "HALT")) := by
  cases hbuiltin : sp.builtin with
  | true =>
    obtain ⟨hmem, hlength⟩ := h hbuiltin
    rw [lowerCall, if_pos hbuiltin, Bool.true_and]
    exact lowerBuiltin_spells hmem hlength before hand
  | false =>
    have hformat : sp.format? = none := by simp [format?, hbuiltin]
    rw [lowerCall, hbuiltin, hformat, Bool.false_and, Option.toList_none, List.append_nil]
    refine .lift_bind fun b _ => ?_
    cases b with
    | storage => exact .throw _
    | function index =>
      refine .get_bind fun s hs => ?_
      cases s.functions[index]? with
      | none => exact .throw _
      | some callee =>
        refine Ensures.bind (fun s₁ v s₂ heq hrun =>
          emit_uses (.call callee.signature args) s₁ v s₂ (heq ▸ hs) hrun) fun v => ?_
        refine .assume fun hv => .pure fun s hs => ⟨fun w hw => ⟨?_, rfl⟩, hs⟩
        split at hw
        · cases hw
        · exact Option.some.inj hw ▸ hv

end

end Oberlet
