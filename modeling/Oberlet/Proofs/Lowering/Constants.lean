import Mathlib.Data.List.Perm.Basic
import Oberlet.Proofs.Lowering.Texts

/-!
# String constants

All code of a module uses the string constants that the texts of the module ask for.
-/

namespace Oberlet

open Llvm Lowering Lower

section

variable {o : Outset} {texts : List String} {hand : List Operand} {ended : Bool}

/-! ## Expressions -/

/-- Variables are not kept in string constants. -/
def Lowering.Env.Plain (env : Env) : Prop :=
  ∀ name address content, env.lookup name = .ok (.storage address content) →
    address.isText = false

/-- A built-in that is called gets as many arguments as it has parameters. -/
def Annotations.Supplies (a : Annotations) (part : Expr) : Prop :=
  ∀ c sp, part = .call c → a.symbolOf Symbol.proc? c.node.id = .ok sp → sp.builtin = true →
    sp ∈ Subprogram.builtins ∧ c.args.length = sp.params.length

theorem Lower.negate_spells (type : DataType) (operand : Operand) :
    Spells [] [operand] (Lower.negate type operand) [] (·.isText = false) := by
  rw [Lower.negate]
  split
  · exact emit_spells (.fneg operand)
  · exact (emit_spells (.binary .sub (.int 0) operand)).congr
      fun index size => (Operand.count_of_isText_eq_false rfl [operand] index size).symm

section

variable {env : Env} (henv : env.Plain)

include henv

set_option linter.unusedSectionVars false

mutual

/-- The code of an expression uses the texts of its literals and formats. -/
theorem Expr.lower_spells (e : Expr)
    (h : ∀ part ∈ e.parts, env.annotations.Supplies part) :
    Spells [] [] (e.lower env) (e.texts env.annotations) (·.isText = e.isText) := by
  cases e with
  | literal node value =>
    have hconstant (v : Operand) (hv : v.isText = false) :
        Spells [] [] (Pure.pure v) [] (·.isText = false) :=
      (Spells.pure (a := v) (P := (·.isText = false)) hv).congr
        fun index size => (Operand.count_of_isText_eq_false hv [] index size).symm
    rw [Expr.lower]
    cases value with
    | integer | real | boolean => exact hconstant _ rfl
    | string text => exact string_spells text
  | paren node inner =>
    rw [Expr.lower, Expr.texts, Expr.isText]
    exact inner.lower_spells ((Expr.forall_parts rfl).mp h).1
  | not node operand =>
    have hoperand := operand.lower_spells ((Expr.forall_parts rfl).mp h).1
    rw [Expr.lower, Expr.texts, ← List.append_nil (operand.texts _)]
    exact hoperand.bind [] fun v _ => not_spells v
  | designator d =>
    have hd := d.address_spells h
    rw [Expr.lower, ← List.append_nil (Expr.texts _ _)]
    exact .lift_bind fun _ _ => .lift_bind fun ty _ => hd.bind [] fun address _ =>
      emit_spells (.load ty address)
  | call c =>
    rw [Expr.lower, Expr.texts]
    intro o owed before hand
    refine (c.lower_spells h o owed before hand).bind fun v => ?_
    cases v with
    | none => exact .throw _
    | some value =>
      refine .pure fun s hs => ?_
      obtain ⟨hvalue, hopen⟩ := hs.1 value rfl
      refine ⟨hvalue, ?_⟩
      rw [← hopen]
      exact hs.2.hand_congr (Operand.count_of_isText_eq_false hvalue hand)
  | comparison node left op right =>
    obtain ⟨hleft, hright⟩ := List.forall_mem_append.mp ((Expr.forall_parts rfl).mp h).1
    rw [Expr.lower, Expr.texts]
    refine .lift_bind fun type htype => ?_
    rw [htype]
    refine (left.lower_spells hleft).bind [] fun l hl =>
      (right.lower_spells hright).bind [l] fun r hr => ?_
    rw [← hl, ← hr]
    exact (op.lower_spells type l r).congr (.of_perm (.swap _ _ _))
  | sum node negate first rest =>
    obtain ⟨hfirst, hrest⟩ := List.forall_mem_append.mp ((Expr.forall_parts rfl).mp h).1
    have hrest (type : DataType) (v : Operand) := lowerChain_spells type v rest hrest
    rw [Expr.lower, Expr.texts, Expr.isText]
    refine (first.lower_spells hfirst).bind [] fun v hv => ?_
    cases negate with
    | false =>
      rw [← hv]
      exact .lift_bind fun type _ => hrest type v
    | true =>
      refine .lift_bind fun sign _ => (Lower.negate_spells sign v).bind [] fun w hw =>
        .lift_bind fun type _ => (hrest type w).imp fun x hx => ?_
      rw [hx, hw, Bool.and_false]
      rfl
  | product node first rest =>
    obtain ⟨hfirst, hrest⟩ := List.forall_mem_append.mp ((Expr.forall_parts rfl).mp h).1
    rw [Expr.lower, Expr.texts, Expr.isText]
    refine (first.lower_spells hfirst).bind [] fun v hv => .lift_bind fun type _ => ?_
    rw [← hv]
    exact lowerChain_spells type v rest hrest

theorem lowerChain_spells (type : DataType) (value : Operand)
    (rest : List (BinOp × Expr)) (h : ∀ part ∈ partsOfChain rest, env.annotations.Supplies part) :
    Spells [] [value] (lowerChain env type value rest) (textsOfChain env.annotations rest)
      (·.isText = (rest.isEmpty && value.isText)) := by
  cases rest with
  | nil =>
    rw [lowerChain]
    exact .pure (a := value) rfl
  | cons link rest =>
    obtain ⟨op, operand⟩ := link
    obtain ⟨hoperand, hrest⟩ := List.forall_mem_append.mp h
    rw [lowerChain, textsOfChain]
    refine (operand.lower_spells hoperand).bind [value] fun v _ => ?_
    have hop : Spells [] [value, v] (op.lower type value v) [] (·.isText = false) := by
      rw [BinOp.lower]
      split
      · exact emit_spells (.binary _ value v)
      · exact .throw _
    refine (hop.bind [] fun w hw => (lowerChain_spells type w rest hrest).imp
      fun x hx => ?_).congr (.of_perm (.swap _ _ _))
    rw [hx, hw, Bool.and_false]
    rfl

theorem Designator.address_spells (d : Designator Expr)
    (h : ∀ part ∈ (Expr.designator d).parts, env.annotations.Supplies part) :
    Spells [] [] (d.address env) ((Expr.designator d).texts env.annotations) Anything := by
  obtain ⟨node, name, selectors⟩ := d
  rw [Designator.address, Expr.texts]
  refine .lift_bind fun v _ => .lift_bind fun b hb => ?_
  cases b with
  | storage address content =>
    refine (lowerSelectors_spells address content selectors
      ((Expr.forall_parts rfl).mp h).1).congr fun index size => ?_
    exact (Operand.count_of_isText_eq_false (henv _ _ _ hb) [] index size).symm
  | function index => exact .throw _

theorem lowerSelectors_spells (address : Operand) (content : Ty)
    (selectors : List Expr) (h : ∀ part ∈ partsOfAll selectors, env.annotations.Supplies part) :
    Spells [] [address] (lowerSelectors env address content selectors)
      (textsOfAll env.annotations selectors) Anything := by
  cases selectors with
  | nil =>
    rw [lowerSelectors]
    exact .pure (a := address) trivial
  | cons selector rest =>
    obtain ⟨hselector, hrest⟩ := List.forall_mem_append.mp h
    rw [lowerSelectors.eq_def, textsOfAll]
    dsimp only
    split
    · rename_i size elem
      refine (selector.lower_spells hselector).bind [address] fun index _ => ?_
      have hptr := (elementPtr_spells size elem address index).bind [] fun address _ =>
        lowerSelectors_spells address elem rest hrest
      exact hptr.congr (.of_perm (.swap _ _ _))
    · exact .throw _

theorem Call.lower_spells (c : Call Expr)
    (h : ∀ part ∈ (Expr.call c).parts, env.annotations.Supplies part) (o : Outset)
    (owed : List Runtime) (before : List String) (hand : List Operand) :
    Ensures (Spelling o owed before hand false) (c.lower env)
      (Called o owed (before ++ c.texts env.annotations) hand (c.halts env.annotations)) := by
  obtain ⟨node, callee, args⟩ := c
  obtain ⟨hargs, hself⟩ := (Expr.forall_parts rfl).mp h
  rw [Call.lower, Call.texts]
  refine .lift_bind fun sp hsp => ?_
  rw [Call.halts_of_symbolOf hsp, hsp, ← List.append_assoc]
  refine (lowerArgs_spells args hargs o owed before hand).bind fun values =>
    .assume fun hvalues => ?_
  refine sp.lowerCall_spells env (fun hbuiltin => ?_) _ hand
  obtain ⟨hmem, hlength⟩ := hself _ sp rfl hsp hbuiltin
  exact ⟨hmem, hvalues.trans hlength⟩

theorem lowerArgs_spells (args : List Expr)
    (h : ∀ part ∈ partsOfAll args, env.annotations.Supplies part) :
    Spells [] [] (lowerArgs env args) (textsOfAll env.annotations args)
      (·.length = args.length) := by
  cases args with
  | nil =>
    rw [lowerArgs]
    exact .pure (a := []) rfl
  | cons arg rest =>
    obtain ⟨harg, hrest⟩ := List.forall_mem_append.mp h
    rw [lowerArgs, textsOfAll]
    refine (arg.lower_spells harg).bind [] fun v _ => ?_
    rw [← List.append_nil (textsOfAll _ rest)]
    refine (lowerArgs_spells rest hrest).bind [v] fun values hvalues => ?_
    exact (Spells.pure (a := v :: values) (congrArg (· + 1) hvalues)).congr
      (.of_perm List.perm_append_comm)

end

end

/-! ## Statements -/

theorem newBlock_spells :
    Ensures (Spelling o [] texts hand ended) newBlock fun _ => Spelling o [] texts hand ended := by
  rintro s _ _ hs ⟨⟩
  exact ⟨⟨hs.globals, hs.hosts, hs.kept⟩, hs.strings, hs.uses, hs.ended⟩

theorem startBlock_spells (id : Nat) (stem : String) :
    Ensures (Spelling o [] texts hand ended) (startBlock id stem)
      fun _ => Spelling o [] texts hand false := by
  rintro s _ _ hs ⟨⟩
  refine hs.use [] { s with
    done := s.done ++ [s.block]
    block := .empty id stem
    edits := s.edits ++ [(id, .start)] } rfl rfl rfl rfl ?_ ?_
  · simp only [State.blocks, linesOf_append]
    exact List.subset_append_left _ _
  · intro index size
    simp [operandsOf, Block.operands, Block.empty]

theorem terminated_spells :
    Ensures (Spelling o [] texts hand ended) terminated fun b s => b = ended ∧
      Spelling o [] texts hand ended s := by
  rintro s _ _ hs ⟨⟩
  exact ⟨hs.ended, hs⟩

theorem ended_spells :
    Ensures (fun s => ∃ ended, Spelling o [] texts hand ended s) terminated fun b =>
      Spelling o [] texts hand b := by
  rintro s _ _ ⟨ended, hs⟩ ⟨⟩
  rwa [hs.ended]

theorem branchTo_spells (target : Nat) :
    Ensures (fun s => ∃ ended, Spelling o [] texts hand ended s) (branchTo target) fun _ =>
      Spelling o [] texts hand true := by
  refine ended_spells.bind fun b => ?_
  cases b with
  | false => exact terminate_spells (.br target)
  | true => exact .pure fun _ hs => hs

variable {v : Operand} {env : Env} {b : Binding} {scope : Scope} {annotations : Annotations}
  {globals : Scope}

theorem terminate_ret_spells (hv : v.isText = false) :
    Ensures (Spelling o [] texts [] false) (terminate (.ret (some v))) fun _ =>
      Spelling o [] texts [] true :=
  (terminate_spells (.ret (some v))).of_imp fun _ hs =>
    hs.hand_congr (Operand.count_of_isText_eq_false hv [])

theorem lowerStmts_ended_spells (env : Env) (body : List Stmt) :
    Maintains (Spelling o [] texts hand true) (lowerStmts env body) := by
  cases body with
  | nil =>
    rw [lowerStmts]
    exact .pure _
  | cons stmt rest =>
    rw [lowerStmts]
    refine terminated_spells.bind fun b => .assume fun hb => ?_
    rw [hb]
    exact .pure fun _ hs => hs

theorem lowerReturn_spells (henv : env.Plain) (value : Option Expr)
    (h : ∀ e, value = some e → ∀ part ∈ e.parts, env.annotations.Supplies part) (node : Node)
    (before : List String) :
    Ensures (Spelling o [] before [] false) (lowerReturn env value) fun _ =>
      Spelling o [] (before ++ (Stmt.ret node value).texts env.annotations env.isMain) [] true := by
  rw [lowerReturn.eq_def]
  cases value with
  | none =>
    rw [Stmt.texts, List.append_nil]
    split
    · exact terminate_ret_spells rfl
    · exact terminate_spells (.ret none)
  | some value =>
    rw [Stmt.texts]
    split
    · rw [List.append_nil]
      exact terminate_ret_spells rfl
    · exact (value.lower_spells henv (h value rfl) o [] before []).bind fun v =>
        .assume fun _ => terminate_spells (.ret (some v))

mutual

/-- The code of a statement uses the texts of its expressions, in their order. -/
theorem Stmt.lower_spells {env : Env} (henv : env.Plain) (stmt : Stmt)
    (h : ∀ part ∈ stmt.parts, env.annotations.Supplies part) (before : List String) :
    Ensures (Spelling o [] before [] false) (stmt.lower env) fun _ =>
      Spelling o [] (before ++ stmt.texts env.annotations env.isMain) []
        (stmt.ends env.annotations) := by
  cases stmt with
  | assign node target value =>
    obtain ⟨htarget, hvalue⟩ := List.forall_mem_append.mp h
    have hcode := (target.address_spells henv htarget).bind [] fun address _ =>
      (value.lower_spells henv hvalue).bind [address] fun v _ => store_spells v address
    rw [Stmt.lower, Stmt.texts, ← List.append_nil (value.texts _)]
    exact fun s a s' hs hrun => (hcode o [] before [] s a s' hs hrun).2
  | call node c =>
    rw [Stmt.lower, Stmt.texts]
    exact (c.lower_spells henv h o [] before []).bind fun v => .pure fun s hs => hs.2
  | ite node branches otherwise =>
    rw [Stmt.lower.eq_def]
    refine newBlock_spells.bind fun behind => newBlock_spells.bind fun first =>
      (terminate_spells (.br first)).bind fun _ => ?_
    cases otherwise with
    | none =>
      rw [Stmt.parts] at h
      rw [Stmt.texts]
      exact (lowerBranches_spells henv behind _ first branches h before).bind fun _ =>
        startBlock_spells _ _
    | some body =>
      obtain ⟨hbranches, hbody⟩ := List.forall_mem_append.mp h
      rw [Stmt.texts, ← List.append_assoc]
      refine (lowerBranches_spells henv behind _ first branches hbranches before).bind
        fun next => ?_
      refine (startBlock_spells next "if.else").bind fun _ => ?_
      exact (lowerStmts_spells henv body hbody _).bind fun _ =>
        (branchTo_spells behind).bind fun _ => startBlock_spells _ _
  | loop node cond body =>
    obtain ⟨hcond, hbody⟩ := List.forall_mem_append.mp h
    have hcond := cond.lower_spells henv hcond
    rw [Stmt.lower, Stmt.texts, ← List.append_assoc]
    refine newBlock_spells.bind fun test => newBlock_spells.bind fun inside =>
      newBlock_spells.bind fun behind => (terminate_spells (.br test)).bind fun _ => ?_
    refine (startBlock_spells test "while.cond").bind fun _ => (hcond o [] before []).bind fun v =>
      .assume fun _ => ?_
    refine (terminate_spells (.condBr v inside behind)).bind fun _ => ?_
    refine (startBlock_spells inside "while.body").bind fun _ => ?_
    have hinside : Env.Plain { env with loopExits := behind :: env.loopExits } := henv
    exact (lowerStmts_spells hinside body hbody _).bind fun _ =>
      (branchTo_spells test).bind fun _ => startBlock_spells _ _
  | exit node =>
    rw [Stmt.lower, Stmt.texts, List.append_nil]
    split
    · exact terminate_spells (.br _)
    · exact .throw _
  | ret node value =>
    rw [Stmt.lower]
    refine lowerReturn_spells henv value (fun e he part hpart => h part ?_) node before
    rw [he, Stmt.parts]
    exact hpart

theorem lowerBranches_spells {env : Env} (henv : env.Plain) (behind : Nat) (hasElse : Bool)
    (next : Nat) (branches : List (Branch Stmt))
    (h : ∀ part ∈ partsOfBranches branches, env.annotations.Supplies part) (before : List String) :
    Ensures (Spelling o [] before [] true) (lowerBranches env behind hasElse next branches) fun _ =>
      Spelling o [] (before ++ textsOfBranches env.annotations env.isMain branches) [] true := by
  cases branches with
  | nil =>
    rw [lowerBranches, textsOfBranches, List.append_nil]
    exact .pure fun _ hs => hs
  | cons branch rest =>
    obtain ⟨node, cond, body⟩ := branch
    obtain ⟨h, hrest⟩ := List.forall_mem_append.mp h
    obtain ⟨hcond, hbody⟩ := List.forall_mem_append.mp h
    have hcond := cond.lower_spells henv hcond
    have hbody := lowerStmts_spells henv body hbody
    have hrest (otherwise : Nat) := lowerBranches_spells henv behind hasElse otherwise rest hrest
    have hbranch (v : Operand) (otherwise : Nat) : Ensures
        (Spelling o [] (before ++ cond.texts env.annotations) ([v] ++ []) false) (do
          let inside ← newBlock
          terminate (.condBr v inside otherwise)
          startBlock inside "if.then"
          lowerStmts env body
          branchTo behind
          lowerBranches env behind hasElse otherwise rest) fun _ =>
        Spelling o [] (before ++ textsOfBranches env.annotations env.isMain
          (⟨node, cond, body⟩ :: rest)) [] true := by
      rw [textsOfBranches, ← List.append_assoc, ← List.append_assoc]
      refine newBlock_spells.bind fun inside =>
        (terminate_spells (.condBr v inside otherwise)).bind fun _ =>
          (startBlock_spells inside "if.then").bind fun _ => (hbody _).bind fun _ => ?_
      exact (branchTo_spells behind).bind fun _ => hrest otherwise _
    rw [lowerBranches]
    refine (startBlock_spells next "if.cond").bind fun _ => (hcond o [] before []).bind fun v =>
      .assume fun _ => ?_
    split
    · exact .bind (.pure fun _ hs => hs) fun otherwise => hbranch v otherwise
    · exact newBlock_spells.bind fun otherwise => hbranch v otherwise

theorem lowerStmts_spells {env : Env} (henv : env.Plain) (body : List Stmt)
    (h : ∀ part ∈ partsOfBody body, env.annotations.Supplies part) (before : List String) :
    Ensures (Spelling o [] before [] false) (lowerStmts env body) fun _ s =>
      ∃ ended, Spelling o [] (before ++ textsOfBody env.annotations env.isMain body)
        [] ended s := by
  cases body with
  | nil =>
    rw [lowerStmts, textsOfBody, List.append_nil]
    exact .pure fun _ hs => ⟨false, hs⟩
  | cons stmt rest =>
    obtain ⟨hstmt, hrest⟩ := List.forall_mem_append.mp h
    have hstmt := stmt.lower_spells henv hstmt
    have hrest := lowerStmts_spells henv rest hrest
    have hbody : Ensures (Spelling o [] before [] false) (do
        stmt.lower env
        lowerStmts env rest) fun _ s => ∃ ended, Spelling o []
          (before ++ textsOfBody env.annotations env.isMain (stmt :: rest)) [] ended s := by
      rw [textsOfBody, ← List.append_assoc]
      refine (hstmt before).bind fun _ => ?_
      split
      · rename_i hends
        rw [hends, List.append_nil]
        exact fun s a s' hs hrun => ⟨true, lowerStmts_ended_spells env rest s a s' hs hrun⟩
      · rename_i hends
        rw [Bool.eq_false_iff.mpr hends]
        exact hrest _
    rw [lowerStmts]
    refine terminated_spells.bind fun b => .assume fun hb => ?_
    rw [hb]
    exact hbody

end

/-! ## Functions -/

/-- No function is at hand. All texts that were asked for are used. -/
structure SpelledOut (o : Outset) (texts : List String) (s : State) : Prop extends Resting o s where
  strings : s.strings = texts.eraseDups
  uses : SameTexts (operandsIn s.functions) (texts.map (constant texts.eraseDups))

theorem operandsIn_perm {functions : List Function} {index : Nat} {f : Function}
    (h : functions[index]? = some f) :
    (operandsIn functions).Perm (operandsIn (functions.eraseIdx index) ++ operandsOf f.blocks) := by
  obtain ⟨hindex, rfl⟩ := List.getElem?_eq_some_iff.mp h
  refine ((List.getElem_cons_eraseIdx_perm hindex).symm.flatMap_right _).trans ?_
  exact List.perm_append_comm

theorem beginFunction_spells (index : Nat) :
    Ensures (fun s => SpelledOut o texts s ∧ index < s.functions.length) (beginFunction index)
      fun _ => Spelling o [] texts [] false := by
  rintro s _ _ ⟨hs, hindex⟩ ⟨⟩
  have hf := List.getElem?_eq_getElem hindex
  refine ⟨⟨hs.globals, hs.hosts.mono (List.subset_append_left _ _), _, hf, ?_⟩, hs.strings,
    fun i n => ?_, rfl⟩
  · simp only [State.blocks, hf, linesOf_append]
    exact List.subset_append_left _ _
  · rw [← hs.uses i n, (operandsIn_perm hf).count_eq]
    simp [State.operands, hf, operandsOf, Block.operands, Block.empty]

theorem endFunction_spells :
    Ensures (Spelling o [] texts [] ended) endFunction fun _ => SpelledOut o texts := by
  intro s _ s' hs hrun
  obtain rfl : s.finished = s' := (Prod.mk.inj (Except.ok.inj hrun)).2
  refine ⟨hs.finish, hs.strings, fun i n => ?_⟩
  have hfinished : s.finished.functions[s.function]? =
      some { s.functions.get ⟨s.function, hs.function_lt⟩ with blocks := s.blocks } := by
    rw [State.finished, List.getElem?_modify_eq, List.getElem?_eq_getElem hs.function_lt]
    rfl
  have huses := hs.uses i n
  rw [List.append_nil] at huses
  rw [← huses, (operandsIn_perm hfinished).count_eq, State.finished, List.eraseIdx_modify_of_eq]
  rfl

theorem addFunction_spells (f : Function) (hf : f.blocks = []) :
    Ensures (SpelledOut o texts) (addFunction f) fun index s =>
      SpelledOut ⟨o.vars, o.own ++ [f.signature]⟩ texts s ∧ index < s.functions.length := by
  rintro s _ _ hs ⟨⟩
  refine ⟨⟨hs.toResting.add, hs.strings, fun i n => ?_⟩, by simp⟩
  simpa [operandsIn, hf, operandsOf] using hs.uses i n

/-- Variables are not kept in string constants. -/
def Lowering.Scope.Plain (scope : Scope) : Prop :=
  ∀ name address content, List.lookup name scope = some (.storage address content) →
    address.isText = false

theorem Lowering.Scope.plain_nil : Scope.Plain [] := by
  intro name address content hname
  cases hname

theorem Lowering.Scope.Plain.cons (h : Scope.Plain scope) (name : String)
    (hb : ∀ address content, b = .storage address content → address.isText = false) :
    Scope.Plain ((name, b) :: scope) := by
  intro other address content hother
  rw [List.lookup_cons] at hother
  split at hother
  · exact hb address content (Option.some.inj hother)
  · exact h other address content hother

theorem Lowering.Scope.Plain.storage (h : Scope.Plain scope) (name : String) {address : Operand}
    (haddress : address.isText = false) (content : Ty) :
    Scope.Plain ((name, .storage address content) :: scope) := by
  refine h.cons name fun address' content' heq => ?_
  cases heq
  exact haddress

theorem Lowering.Env.plain_of_scopes (h : ∀ scope ∈ env.scopes, Scope.Plain scope) : env.Plain := by
  intro name address content hlookup
  rw [Env.lookup] at hlookup
  cases hfind : env.scopes.findSome? fun scope => List.lookup name scope with
  | none =>
    rw [hfind] at hlookup
    cases hlookup
  | some b =>
    rw [hfind] at hlookup
    cases hlookup
    obtain ⟨scope, hscope, hname⟩ := List.exists_of_findSome?_eq_some hfind
    exact h scope hscope name address content hname

theorem lookup_of_env {name : String}
    (h : Env.lookup ⟨annotations, [globals], [], false⟩ name = .ok b) :
    List.lookup name globals = some b := by
  cases hlookup : List.lookup name globals with
  | none => simp [Env.lookup, hlookup, throw, throwThe, MonadExceptOf.throw] at h
  | some b' =>
    simp only [Env.lookup, List.findSome?_cons, hlookup] at h
    cases h
    rfl

theorem DataType.isText_zeroValue {t : DataType} (h : t.zeroValue = .ok v) : v.isText = false := by
  cases t with
  | integer | real | string | boolean =>
    cases h
    rfl
  | void | unknown => cases h
  | array size elem =>
    rw [zeroValue] at h
    cases htarget : (array size elem).target with
    | error fault =>
      rw [htarget] at h
      cases h
    | ok ty =>
      rw [htarget] at h
      cases h
      rfl

theorem store_slot_spells {value slot : Operand} (hvalue : value.isText = false)
    (hslot : slot.isText = false) :
    Maintains (Spelling o [] texts [] false) (Lower.store value slot) := by
  intro s a s' hs hrun
  have hhand : Spelling o [] texts ([value, slot] ++ []) false s := hs.hand_congr fun i n =>
    (Operand.count_of_isText_eq_false hvalue [slot] i n).trans
      (Operand.count_of_isText_eq_false hslot [] i n)
  have hstored := (store_spells value slot o [] texts [] s a s' hhand hrun).2
  rwa [List.append_nil] at hstored

theorem entryAlloca_slot_spells (content : Ty) :
    Ensures (Spelling o [] texts [] false) (entryAlloca content) fun slot s =>
      slot.isText = false ∧ Spelling o [] texts [] false s := by
  intro s slot s' hs hrun
  obtain ⟨hslot, hspelling⟩ := entryAlloca_spells content o [] texts [] s slot s' hs hrun
  rw [List.append_nil] at hspelling
  exact ⟨hslot, hspelling.hand_congr fun i n =>
    (Operand.count_of_isText_eq_false hslot [] i n).symm⟩

theorem lowerParam_spells (function : Nat) (scope : Scope) (index : Nat) (v : Variable) :
    Ensures (fun s => Scope.Plain scope ∧ Spelling o [] texts [] false s)
      (lowerParam function scope index v) fun scope s =>
        Scope.Plain scope ∧ Spelling o [] texts [] false s := by
  refine .assume fun hscope => .get_bind fun s hs => ?_
  split
  · split
    · rename_i f _ param _
      refine Ensures.bind (Q := fun slot s => slot.isText = false ∧ Spelling o [] texts [] false s)
        (fun s₁ slot s₂ heq hrun => emit_uses (.alloca param.ty) s₁ slot s₂ (heq ▸ hs) hrun)
        fun slot => .assume fun hslot => ?_
      exact Ensures.bind (store_slot_spells rfl hslot) fun _ => .pure fun s hs =>
        ⟨hscope.storage v.name hslot param.ty, hs⟩
    · exact .throw _
  · exact .throw _

theorem lowerLocals_spells (annotations : Annotations) (scope : Scope) (decl : VarDecl) :
    Ensures (fun s => Scope.Plain scope ∧ Spelling o [] texts [] false s)
      (lowerLocals annotations scope decl) fun scope s =>
        Scope.Plain scope ∧ Spelling o [] texts [] false s := by
  refine .lift_bind fun vars _ => Ensures.foldlM (I := fun scope s =>
    Scope.Plain scope ∧ Spelling o [] texts [] false s) (fun scope v => ?_) scope vars
  refine .assume fun hscope => .lift_bind fun content _ => ?_
  refine (entryAlloca_slot_spells content).bind fun slot => .assume fun hslot => ?_
  refine .lift_bind fun value hvalue => ?_
  exact Ensures.bind (store_slot_spells (DataType.isText_zeroValue hvalue) hslot) fun _ =>
    .pure fun s hs => ⟨hscope.storage v.name hslot content, hs⟩

theorem SpelledOut.modify {s : State} (h : SpelledOut o texts s) (index : Nat)
    {g : Function → Function} (hsignature : ∀ f, (g f).signature = f.signature)
    (hblocks : ∀ f, (g f).blocks = f.blocks) :
    SpelledOut o texts { s with functions := s.functions.modify index g } := by
  refine ⟨h.toResting.modify index hsignature hblocks, h.strings, ?_⟩
  rw [operandsIn, flatMap_blocks_modify operandsOf s.functions index hblocks]
  exact h.uses

theorem renameParams_spells (index : Nat) (names : List Variable) :
    Maintains (SpelledOut o texts) (renameParams index names) := by
  refine .get_bind fun s hs => ?_
  have hsignature (f : Function) {params : List Param}
    (h : params.map (·.ty) = f.params.map (·.ty)) :
      { f with params }.signature = f.signature := by
    simp only [Function.signature, h]
  dsimp only
  split
  · exact .bind (.throw _) fun _ =>
      .set (hs.modify index (fun f => hsignature f (map_ty_rename names f.params 0)) fun _ => rfl)
  · exact .set (hs.modify index (fun f => hsignature f (map_ty_rename names f.params 0))
      fun _ => rfl)

theorem lowerDefinition_spells (hglobals : Scope.Plain globals) (node : Node) (heading : Heading)
    (decls : List VarDecl) (body : List Stmt)
    (hbound : ∀ name index, List.lookup name globals = some (.function index) →
      index < o.own.length)
    (h : ∀ part ∈ partsOfBody body, annotations.Supplies part) :
    Ensures (SpelledOut o texts) (lowerDefinition annotations globals node heading decls body)
      fun _ => SpelledOut o (texts ++ textsOfBody annotations false body) := by
  refine .lift_bind fun sp _ => .lift_bind fun b hb => ?_
  cases b with
  | storage => exact .throw _
  | function index =>
    have hindex : index < o.own.length := hbound sp.name index (lookup_of_env hb)
    refine Ensures.bind (Maintains.mapM (fun group => .lift _) _) fun groups => ?_
    refine Ensures.bind (renameParams_spells index _) fun _ => ?_
    refine ((beginFunction_spells index).of_imp fun s hs =>
      ⟨hs, hindex.trans_le hs.length_le⟩).bind fun _ => ?_
    refine Ensures.bind ((Ensures.foldlM (I := fun scope s => Scope.Plain scope ∧
      Spelling o [] texts [] false s) (fun scope (pair : Variable × Nat) =>
        lowerParam_spells index scope pair.2 pair.1) [] _).of_imp
          fun s hs => ⟨Scope.plain_nil, hs⟩) fun scope => ?_
    refine Ensures.bind (Ensures.foldlM (I := fun scope s => Scope.Plain scope ∧
      Spelling o [] texts [] false s) (lowerLocals_spells annotations) scope decls) fun scope => ?_
    refine .assume fun hscope => ?_
    have hplain : Env.Plain ⟨annotations, [scope, globals], [], false⟩ :=
      Env.plain_of_scopes (by simp [hscope, hglobals])
    refine (lowerStmts_spells hplain body h texts).bind fun _ => ended_spells.bind fun b => ?_
    cases b with
    | true => exact endFunction_spells
    | false =>
      change Ensures _ (if sp.result == .void then _ else _) _
      split
      · exact (terminate_spells (.ret none)).bind fun _ => endFunction_spells
      · exact .lift_bind fun v hv => (terminate_ret_spells (DataType.isText_zeroValue hv)).bind
          fun _ => endFunction_spells

theorem lowerMain_spells (hglobals : Scope.Plain globals) (body : List Stmt)
    (h : ∀ part ∈ partsOfBody body, annotations.Supplies part) :
    Ensures (SpelledOut o texts) (lowerMain annotations globals body)
      fun _ => SpelledOut ⟨o.vars, o.own ++ [⟨"main", .i32, [], false⟩]⟩
        (texts ++ textsOfBody annotations true body) := by
  have hplain : Env.Plain ⟨annotations, [globals], [], true⟩ :=
    Env.plain_of_scopes (by simpa using hglobals)
  refine (addFunction_spells _ rfl).bind fun index => (beginFunction_spells index).bind fun _ => ?_
  refine (lowerStmts_spells hplain body h texts).bind fun _ => ended_spells.bind fun b => ?_
  cases b with
  | true => exact endFunction_spells
  | false => exact (terminate_ret_spells rfl).bind fun _ => endFunction_spells

/-- The bodies of subprograms ask for texts one after the other. -/
theorem lowerDefinitions_spell (hglobals : Scope.Plain globals)
    (hbound : ∀ name index, List.lookup name globals = some (.function index) →
      index < o.own.length)
    (decls : List SubprogramDecl)
    (h : ∀ node heading vars body, .definition node heading vars body ∈ decls →
      ∀ part ∈ partsOfBody body, annotations.Supplies part) :
    Ensures (SpelledOut o texts) (decls.forM fun
      | .forward _ _ => Pure.pure ()
      | .definition node heading decls body =>
        lowerDefinition annotations globals node heading decls body : Lower Unit)
      fun _ => SpelledOut o (texts ++ textsOfSubprograms annotations decls) := by
  induction decls generalizing texts with
  | nil =>
    rw [textsOfSubprograms, List.append_nil]
    exact .pure fun _ hs => hs
  | cons decl rest ih =>
    have hrest := fun node heading vars body hmem =>
      h node heading vars body (List.mem_cons_of_mem _ hmem)
    cases decl with
    | forward node heading => exact .bind (.pure fun _ hs => hs) fun _ => ih hrest
    | definition node heading locals body =>
      rw [textsOfSubprograms, ← List.append_assoc]
      exact (lowerDefinition_spells hglobals node heading locals body hbound
        (h node heading locals body List.mem_cons_self)).bind fun _ => ih hrest

theorem declareGlobals_plain (annotations : Annotations) (moduleName : String) (scope : Scope)
    (decl : VarDecl) :
    Ensures (fun _ => Scope.Plain scope) (declareGlobals annotations moduleName scope decl)
      fun scope _ => Scope.Plain scope := by
  refine .lift_bind fun vars _ => Ensures.foldlM (I := fun scope _ => Scope.Plain scope)
    (fun scope v => .lift_bind fun content _ => .lift_bind fun init _ => ?_) scope vars
  exact .bind (Q := fun _ _ => Scope.Plain scope) (.modify fun _ hs => hs) fun _ =>
    .pure fun _ hs => hs.storage v.name rfl content

theorem declareFunction_plain (annotations : Annotations) (moduleName : String) (scope : Scope)
    (decl : SubprogramDecl) :
    Ensures (fun _ => Scope.Plain scope) (declareFunction annotations moduleName scope decl)
      fun scope _ => Scope.Plain scope := by
  refine .lift_bind fun sp _ => ?_
  have hkept {α : Type} (m : Lower α) :
      Ensures (fun _ => Scope.Plain scope) m fun _ _ => Scope.Plain scope := fun _ _ _ hs _ => hs
  split
  · exact .pure fun _ hs => hs
  · exact (hkept _).bind fun params => (hkept _).bind fun result => (hkept _).bind fun index =>
      .pure fun _ hs => hs.cons sp.name fun _ _ h => by cases h

end

/-! ## Modules -/

section

variable {p : Program} {annotations : Annotations}

theorem Program.Annotated.supplies (hann : p.Annotated annotations) (hwell : p.WellFormed)
    {body : Body} (hbody : body ∈ p.bodies) {part : Expr} (hpart : part ∈ partsOfBody body.stmts) :
    annotations.Supplies part := by
  rintro c sp rfl hsymbol hbuiltin
  have hannotated := hann.annotatedBy hbody (hwell.bodies body hbody) hpart
  obtain ⟨s, hname, hs⟩ := hannotated.proc c rfl
  cases hs.symm.trans hsymbol
  obtain ⟨t, ht⟩ := hannotated.typed
  cases ht.hasResult with
  | @intro node callee args s' hname' hlength hargs =>
  cases hname.symm.trans hname'
  rcases hwell.proc_of_body hbody hname with ⟨hmem, -⟩ | ⟨hfalse, -⟩
  · obtain ⟨hflag, hdefined, -⟩ := Subprogram.flags_of_mem_builtins hmem
    have hsame : (s.builtin || Program.defines p.subprograms s.name) = s.defined := by
      rw [hflag, hdefined]
      rfl
    rw [Program.finished, hsame]
    exact ⟨hmem, hlength⟩
  · cases hfalse.symm.trans hbuiltin

variable {s : State} {scope : Scope}

theorem Declares.strings_eq_nil {front : List SubprogramDecl} (h : Declares p front scope s) :
    s.strings = [] := by
  obtain ⟨values, -, hglobals⟩ := h.globals
  cases hstrings : s.strings with
  | nil => rfl
  | cons text rest =>
    have hmem : Global.str 0 text ∈ s.globals := (h.named 0 text).mpr (by rw [hstrings]; rfl)
    simp [hglobals, globalsFor] at hmem

/-- In the end the texts of the module are spelled out. -/
theorem Program.spelledOut_of_lower (hwell : p.WellFormed) (hann : p.Annotated annotations)
    {scope' : Scope} {s₁ s₂ : State}
    (hvars : p.vars.foldlM (declareGlobals annotations p.name.name) [] .initial = .ok (scope, s₁))
    (hfunctions : p.subprograms.foldlM (declareFunction annotations p.name.name) scope s₁ =
      .ok (scope', s₂))
    (hdeclares : Declares p p.subprograms scope' s₂)
    (hrun : (lowerProgram annotations p).run .initial = .ok ((), s)) :
    SpelledOut ⟨s₂.globals, s₂.functions.map (·.signature) ++ [⟨"main", .i32, [], false⟩]⟩
      (p.texts annotations) s := by
  have hscope : Scope.Plain scope := Ensures.foldlM (I := fun scope _ => Scope.Plain scope)
    (declareGlobals_plain _ _) [] p.vars _ _ _ Scope.plain_nil hvars
  have hscope' : Scope.Plain scope' := Ensures.foldlM (I := fun scope _ => Scope.Plain scope)
    (declareFunction_plain _ _) scope p.subprograms _ _ _ hscope hfunctions
  -- no code has been generated before everything is declared
  have hnone : operandsIn s₂.functions = [] :=
    List.flatMap_eq_nil_iff.mpr fun f hf => by rw [(hdeclares.blank f hf).1]; rfl
  have hspelled : SpelledOut ⟨s₂.globals, s₂.functions.map (·.signature)⟩ [] s₂ := by
    refine ⟨⟨?_, [], .nil, ?_, by simp⟩, hdeclares.strings_eq_nil, ?_⟩
    · rw [hdeclares.strings_eq_nil]
      exact (List.append_nil _).symm
    · rw [List.map_nil, List.append_nil]
    · rw [hnone]
      exact fun _ _ => rfl
  have hbound : ∀ name index, List.lookup name scope' = some (.function index) →
      index < (s₂.functions.map (·.signature)).length := by
    simpa using hdeclares.bound
  have hsupplies {name : String} {isMain : Bool} {body : Body}
    (hbody : p.HasBody name isMain body) :
      ∀ part ∈ partsOfBody body.stmts, annotations.Supplies part :=
    fun part hpart => hann.supplies hwell hbody.mem hpart
  have hdefinitions : ∀ node heading vars body, .definition node heading vars body ∈ p.subprograms →
      ∀ part ∈ partsOfBody body, annotations.Supplies part := fun node heading vars body hmem => by
    obtain ⟨front, back, hsplit⟩ := List.append_of_mem hmem
    exact hsupplies (.definition hsplit)
  change lowerProgram annotations p .initial = _ at hrun
  rw [lowerProgram, run_bind hvars, run_bind hfunctions] at hrun
  exact (lowerDefinitions_spell hscope' hbound p.subprograms hdefinitions).bind (fun _ =>
    lowerMain_spells hscope' p.body (hsupplies .main)) s₂ _ _ hspelled hrun

end

end Oberlet
