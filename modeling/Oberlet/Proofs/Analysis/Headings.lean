import Oberlet.Proofs.Analysis.Collected
import Oberlet.Proofs.Token.Order
import Oberlet.Proofs.Tree.Within

/-!
# Headings of one name

A name can have many headings in a module, of declarations and of definitions, in any order and with
other subprograms between them. What is wrong with one of them depends on those before it alone.
-/

namespace Oberlet

open Declaring

/-! ## Clashes -/

def SubprogramDecl.isDefinition : SubprogramDecl → Bool
  | forward _ _ => false
  | definition _ _ _ _ => true

/-- The subprograms of a name, in the order of the text. -/
def namesakes (name : String) (decls : List SubprogramDecl) : List SubprogramDecl :=
  decls.filter (·.heading.name.name == name)

/-- What can be wrong with a heading next to others of its name. -/
inductive Clash
  | repeated
  | redefined
  | mismatched
deriving DecidableEq

/-- What a diagnostic says about headings of a name that have the given spans. -/
def Diagnostic.clash? (name : String) (spans : List Span) (d : Diagnostic) : Option Clash :=
  match d.cause with
  | .duplicateName other =>
    if other = name ∧ d.related.any (· ∈ spans) then some .repeated else none
  | .alreadyDefined other => if other = name then some .redefined else none
  | .signatureMismatch other => if other = name then some .mismatched else none
  | _ => none

/-- Whether the first heading of a name is a declaration whose types are not those of the first
definition. -/
def declaredOtherwise (decls : List SubprogramDecl) : Bool :=
  decls.head?.any fun first => !first.isDefinition && (decls.find? (·.isDefinition)).any fun decl =>
    !first.heading.subprogram.sameSignature decl.heading.subprogram

/-- How often something is wrong with the headings of a name. -/
def Clash.times (decls : List SubprogramDecl) : Clash → Nat
  | repeated => decls.tail.countP (!·.isDefinition)
  | redefined => decls.countP (·.isDefinition) - 1
  | mismatched => (declaredOtherwise decls).toNat

/-- What a name is bound to behind its headings. -/
def boundBy (decls : List SubprogramDecl) : Option Subprogram :=
  decls.head?.map fun first =>
    { first.heading.subprogram with defined := decls.any (·.isDefinition) }

/-- What is wrong with a heading behind others of its name. -/
def Clash.behind (decls : List SubprogramDecl) (decl : SubprogramDecl) : Option Clash :=
  (boundBy decls).bind fun s =>
    if !decl.isDefinition then some repeated
    else if s.defined then some redefined
    else if s.sameSignature decl.heading.subprogram then none
    else some mismatched

theorem Clash.times_concat (decls : List SubprogramDecl) (decl : SubprogramDecl) (clash : Clash) :
    clash.times (decls ++ [decl]) =
      clash.times decls + if behind decls decl = some clash then 1 else 0 := by
  cases hhead : decls.head? with
  | none =>
    obtain rfl := List.head?_eq_none_iff.mp hhead
    cases hdecl : decl.isDefinition <;> cases clash <;>
      simp [times, behind, boundBy, declaredOtherwise, hdecl]
  | some first =>
    have htail : (decls ++ [decl]).tail = decls.tail ++ [decl] :=
      List.tail_append_of_ne_nil fun hnil => by simp [hnil] at hhead
    cases hdecl : decl.isDefinition with
    | false =>
      cases clash <;>
        simp [times, behind, boundBy, declaredOtherwise, hhead, htail, hdecl, List.find?_append]
    | true =>
      cases hfind : decls.find? (·.isDefinition) with
      | some found =>
        have hfound : ∃ decl ∈ decls, decl.isDefinition = true :=
          ⟨found, List.mem_of_find?_eq_some hfind, List.find?_some hfind⟩
        have hany := List.any_eq_true.mpr hfound
        have hcount : 0 < decls.countP (·.isDefinition) := List.countP_pos_iff.mpr hfound
        cases clash <;>
          simp [times, behind, boundBy, declaredOtherwise, hhead, htail, hdecl, List.find?_append,
            hfind, hany]
        omega
      | none =>
        have hnone := List.find?_eq_none.mp hfind
        have hany : decls.any (·.isDefinition) = false := by simpa using hnone
        have hcount : decls.countP (·.isDefinition) = 0 := List.countP_eq_zero.mpr hnone
        have hfirst := hnone first (List.mem_of_mem_head? hhead)
        generalize hs : first.heading.subprogram = s
        have hsame : ({ s with defined := false } : Subprogram).sameSignature
            decl.heading.subprogram =
            s.sameSignature decl.heading.subprogram := rfl
        cases clash <;> cases hdiffer : s.sameSignature decl.heading.subprogram <;>
          simp [times, behind, boundBy, declaredOtherwise, hhead, htail, hdecl, List.find?_append,
            hfind, hany, hcount, hfirst, hs, hsame, hdiffer]

/-- The first subprogram of a name and the definitions are meant to be one. -/
def Shares (decls : List SubprogramDecl) (decl : SubprogramDecl) : Prop :=
  decls.head? = some decl ∨ decl ∈ decls ∧ decl.isDefinition = true

variable {name : String} {decls : List SubprogramDecl} {s : Subprogram} {source : List Char}
  {p : Program} {a a' : Analysis}

theorem boundBy_namesakes (h : s ∈ boundBy (namesakes name decls)) :
    s.name = name ∧ ∃ span, s.span = some span := by
  obtain ⟨first, hhead, rfl⟩ := Option.map_eq_some_iff.mp h
  exact ⟨beq_iff_eq.mp (List.mem_filter.mp (List.mem_of_mem_head? hhead)).2, _, rfl⟩

/-- A further heading changes only whether the subprogram is defined. -/
theorem boundBy_concat (h : boundBy decls = some s) (decl : SubprogramDecl) :
    boundBy (decls ++ [decl]) = some { s with defined := s.defined || decl.isDefinition } := by
  obtain ⟨first, hhead, rfl⟩ := Option.map_eq_some_iff.mp h
  simp [boundBy, hhead]

/-! ## What is noted about a name -/

theorem Annotations.holds_annotateAll {a a' : Annotations} {finding : Finding}
    {findings : List Finding} (h : a.annotateAll findings = .ok a')
    (hfinding : finding ∈ findings ∨ a.Holds finding) : a'.Holds finding := by
  induction findings generalizing a with
  | nil =>
    cases h
    exact hfinding.resolve_left List.not_mem_nil
  | cons first rest ih =>
    change (a.annotate first).bind (·.annotateAll rest) = _ at h
    rw [annotate_eq] at h
    cases hrefusal : a.refusal first with
    | some fault =>
      rw [hrefusal] at h
      cases h
    | none =>
      rw [hrefusal] at h
      refine ih h (or_iff_not_imp_left.mpr fun hrest => ?_)
      rcases hfinding with hfinding | hfinding
      · rw [(List.mem_cons.mp hfinding).resolve_right hrest]
        exact holds_enter a first
      · -- what is held under the key of a finding would be in its way
        refine holds_enter_of_ne (fun hkey => ?_) hfinding
        cases finding <;> cases first <;> cases hkey
        · simp [refusal, Slot.typeRefusal_eq_none_iff,
            show (a.slot _).type = _ from hfinding] at hrefusal
        · simp [refusal, Slot.symbolsRefusal_eq_none_iff,
            show (a.slot _).symbols = _ from hfinding] at hrefusal

/-- The table has a property, so many things were said to be wrong with the headings of a name that
have the given spans, and some findings were made. -/
structure Noticed (name : String) (spans : List Span) (T : SymbolTable → Prop) (times : Clash → Nat)
    (found : List Finding) (a : Analysis) : Prop where
  table : T a.table
  errors : ∀ clash, a.notes.errors.countP (·.clash? name spans = some clash) = times clash
  holds : ∀ finding ∈ found, a.notes.annotations.Holds finding

section

variable {spans : List Span} {T : SymbolTable → Prop} {times times' : Clash → Nat}
  {found found' : List Finding} {α : Type} {checker : SymbolTable → Checker α} {d : Diagnostic}
  {symbol : Symbol}

/-- What a report finds is noticed. -/
theorem body_noticed (h : ∀ table, ∃ r : Report α,
      checker table = r.perform ∧ (∀ finding ∈ found', finding ∈ r.findings ∨ finding ∈ found) ∧
        ∀ clash, times clash + r.errors.countP (·.clash? name spans = some clash) = times' clash) :
    Ensures (Noticed name spans T times found) (body checker)
      fun _ => Noticed name spans T times' found' := by
  intro a value a' ha hrun
  obtain ⟨notes, hchecker, rfl⟩ := of_body_eq_ok hrun
  obtain ⟨r, hr, hfound, htimes⟩ := h a.table
  rw [hr] at hchecker
  obtain ⟨-, hannotations, herrors⟩ := Report.of_perform_eq_ok hchecker
  refine ⟨ha.table, fun clash => ?_, fun finding hfinding => ?_⟩
  · rw [herrors, List.countP_append, ha.errors, htimes]
  · exact Annotations.holds_annotateAll hannotations
      ((hfound finding hfinding).imp_right (ha.holds finding))

theorem body_unnoticed (h : ∀ table, ∃ r : Report α,
      checker table = r.perform ∧ ∀ d ∈ r.errors, d.clash? name spans = none) :
    Maintains (Noticed name spans T times found) (body checker) :=
  body_noticed fun table => by
    obtain ⟨r, hr, hnone⟩ := h table
    refine ⟨r, hr, fun _ => .inr, fun clash => ?_⟩
    rw [List.countP_eq_zero.mpr fun d hd => by simp [hnone d hd], Nat.add_zero]

theorem record_unnoticed (h : d.clash? name spans = none) :
    Maintains (Noticed name spans T times found) (record d) :=
  body_unnoticed fun _ => ⟨_, Report.perform_record d, by simpa using h⟩

theorem record_noticed (htimes : ∀ clash, times' clash =
      times clash + if d.clash? name spans = some clash then 1 else 0) :
    Ensures (Noticed name spans T times found) (record d)
      fun _ => Noticed name spans T times' found :=
  body_noticed fun _ => ⟨_, Report.perform_record d, fun _ => .inr, fun clash => by
    simp [htimes, List.countP_singleton]⟩

theorem annotate_noticed (node : Node) (symbols : List Symbol) :
    Ensures (Noticed name spans T times found) (annotate node symbols)
      fun _ => Noticed name spans T times (.symbols node.id symbols :: found) :=
  body_noticed fun _ => ⟨_, Report.perform_single (.symbols node.id symbols), by simp, by simp⟩

theorem annotate_unnoticed (node : Node) (symbols : List Symbol) :
    Maintains (Noticed name spans T times found) (annotate node symbols) :=
  body_unnoticed fun _ => ⟨_, Report.perform_single (.symbols node.id symbols), by simp⟩

theorem Diagnostic.clash?_eq_none (h : d.cause.ofDeclaration = false) :
    d.clash? name spans = none := by
  unfold clash?
  split <;> simp_all [Cause.ofDeclaration]

/-- Statements cannot clash with a heading. -/
theorem checkStmts_unnoticed (context : BodyContext) (stmts : List Stmt) :
    Maintains (Noticed name spans T times found)
      (body fun table => checkStmts table context stmts) :=
  body_unnoticed fun table => by
    obtain ⟨rs, -, hperform, hr⟩ := checkStmts_reviewed table context stmts
    exact ⟨_, hperform, fun d hd => Diagnostic.clash?_eq_none (hr.causes d hd)⟩

theorem define_unnoticed (hspan : ∀ span ∈ symbol.span, span ∉ spans)
    (hT : ∀ table, T table → T { table with current := (symbol.name, symbol) :: table.current }) :
    Maintains (Noticed name spans T times found) (define symbol) := by
  intro a value a' ha hrun
  obtain ⟨-, rfl⟩ | ⟨existing, -, hrun⟩ := of_define_eq_ok hrun
  · exact ⟨hT _ ha.table, ha.errors, ha.holds⟩
  · refine record_unnoticed ?_ a value a' ha hrun
    cases hsymbol : symbol.span <;> cases hexisting : existing.span <;>
      simp_all [Diagnostic.clash?, SymbolTable.duplicate]

theorem declareVars_unnoticed {P : String → Prop} {decls : List VarDecl}
    (hdecls : ∀ decl ∈ decls, ∀ x ∈ decl.names, x.span ∉ spans ∧ P x.name)
    (hT : ∀ (symbol : Symbol) (table : SymbolTable), P symbol.name → T table →
      T { table with current := (symbol.name, symbol) :: table.current }) :
    Maintains (Noticed name spans T times found) (declareVars decls) := by
  induction decls with
  | nil => exact .pure ()
  | cons decl rest ih =>
    obtain ⟨hdecl, hrest⟩ := List.forall_mem_cons.mp hdecls
    refine .bind (.bind ?_ fun _ => annotate_unnoticed decl.node _) fun _ => ih hrest
    rw [VarDecl.variables, List.map_map]
    generalize decl.names = names at hdecl
    induction names with
    | nil => exact .pure ()
    | cons x names ih =>
      obtain ⟨⟨hspan, hname⟩, hnames⟩ := List.forall_mem_cons.mp hdecl
      exact .bind (define_unnoticed (by simpa [Symbol.span] using hspan)
        fun table => hT _ table hname)
        fun _ => ih hnames

theorem inFrame_unnoticed {d : Declaring Unit}
    (h : ∀ outer, Maintains (Noticed name spans (·.outer = outer) times found) d) :
    Maintains (Noticed name spans T times found) (inFrame d) := by
  intro a value a' ha hrun
  obtain ⟨inner, frame, outer, hinner, houter, rfl⟩ := of_inFrame_eq_ok hrun
  have hframe := h (a.table.current :: a.table.outer) ⟨a.table.enter, a.notes⟩ () inner
    ⟨rfl, ha.errors, ha.holds⟩ hinner
  obtain ⟨rfl, rfl⟩ := List.cons.inj (houter.symm.trans hframe.table)
  exact ⟨ha.table, hframe.errors, hframe.holds⟩

theorem Heading.checkResult_unnoticed (heading : Heading) :
    Maintains (Noticed name spans T times found) heading.checkResult := by
  rw [checkResult]
  split
  · exact record_unnoticed rfl
  · exact .pure ()

theorem inside_unnoticed {params vars : List VarDecl} (context : BodyContext) (stmts : List Stmt)
    (h : ∀ group ∈ params ++ vars, ∀ x ∈ group.names, x.span ∉ spans) :
    Maintains (Noticed name spans T times found) (inFrame do
      declareVars params
      declareVars vars
      body fun table => checkStmts table context stmts) := by
  have hvars (outer : List Frame) {decls : List VarDecl} (hdecls : decls ⊆ params ++ vars) :
      Maintains (Noticed name spans (·.outer = outer) times found) (declareVars decls) :=
    declareVars_unnoticed (P := fun _ => True)
      (fun decl hdecl x hx => ⟨h decl (hdecls hdecl) x hx, trivial⟩) fun _ _ _ houter => houter
  exact inFrame_unnoticed fun outer => (hvars outer (List.subset_append_left _ _)).bind fun _ =>
    (hvars outer (List.subset_append_right _ _)).bind fun _ => checkStmts_unnoticed context stmts

/-! ## Subprograms of other names -/

variable {bound : Option Symbol}

theorem lookupLocal_define (hname : symbol.name ≠ name) (table : SymbolTable)
    (h : table.lookupLocal name = bound) :
    ({ table with
      current := (symbol.name, symbol) :: table.current } : SymbolTable).lookupLocal name =
      bound := by
  rw [← h, SymbolTable.lookupLocal, List.lookup_cons, beq_eq_false_iff_ne.mpr hname.symm]
  rfl

theorem lookupLocal_rebind {other : String} (hname : name ≠ other) (table : SymbolTable) :
    (table.rebind other symbol).lookupLocal name = table.lookupLocal name := by
  simp only [SymbolTable.rebind, SymbolTable.rebind.inFrames, SymbolTable.lookupLocal]
  split
  · rename_i heq
    split at heq <;> cases heq
    · rw [SymbolTable.lookup_rebindIn, if_neg hname]
    · rfl
  · rfl

/-- A subprogram of another name makes no difference. -/
theorem SubprogramDecl.declare_unnoticed {decl : SubprogramDecl}
    (hname : decl.heading.name.name ≠ name) (hspan : decl.heading.name.span ∉ spans)
    (hgroups : ∀ group ∈ decl.groups, ∀ x ∈ group.names, x.span ∉ spans) :
    Maintains (Noticed name spans (·.lookupLocal name = bound) times found) decl.declare := by
  have hdefine {s : Subprogram} (hs : s.name ≠ name) (hs' : ∀ span ∈ s.span, span ∉ spans) :
      Maintains (Noticed name spans (·.lookupLocal name = bound) times found) (define (.proc s)) :=
    define_unnoticed hs' (lookupLocal_define hs)
  cases decl with
  | forward node heading =>
    intro a value a' ha hrun
    rw [declare, declareForward_eq] at hrun
    refine Maintains.bind ?_ (fun _ => (hdefine hname
      (by simpa [Heading.subprogram] using hspan)).bind
      fun _ => annotate_unnoticed node _) a value a' ha hrun
    split
    · exact .pure ()
    · exact heading.checkResult_unnoticed
  | definition node heading vars stmts =>
    refine .bind ?_ fun s => (annotate_unnoticed node _).bind fun _ =>
      inside_unnoticed _ stmts hgroups
    intro a value a' ha hrun
    rw [declareDefinition_eq] at hrun
    refine (?_ : Maintains _ (_ : Declaring Subprogram)) a value a' ha hrun
    have hnew {s : Subprogram} (hs : s.name ≠ name) (hs' : ∀ span ∈ s.span, span ∉ spans) :
        Maintains (Noticed name spans (·.lookupLocal name = bound) times found)
          (heading.checkResult >>= fun _ => define (.proc s) >>= fun _ => Pure.pure s) :=
      heading.checkResult_unnoticed.bind fun _ => (hdefine hs hs').bind fun _ => .pure s
    split
    · split
      · exact (record_unnoticed (by simpa [Diagnostic.clash?] using hname)).bind fun _ => .pure _
      · refine .bind (Ensures.modify fun b hb => ⟨?_, hb.errors, hb.holds⟩) fun _ => ?_
        · exact (lookupLocal_rebind (Ne.symm hname) b.table).trans hb.table
        · dsimp only
          split
          · refine (record_unnoticed ?_).bind fun _ => .pure _
            simpa [Diagnostic.clash?, Diagnostic.on] using hname
          · exact .pure _
    · exact hnew hname (by simpa [Heading.subprogram] using hspan)
    · exact hnew hname (by simpa [Heading.subprogram] using hspan)

/-! ## Subprograms of the name -/

variable (decl : SubprogramDecl)

/-- What was noticed behind headings of a name. -/
abbrev NoticedBehind (name : String) (spans : List Span) (decls : List SubprogramDecl) :
    List Finding → Analysis → Prop :=
  Noticed name spans (·.lookupLocal name = (boundBy decls).map .proc) (·.times decls)

section

variable (hname : decl.heading.name.name = name) (hspan : decl.heading.name.span ∈ spans)
  (hdecls : ∀ s ∈ boundBy decls, s.name = name ∧ ∃ span, s.span = some span)

include hname hspan hdecls

theorem define_noticed (hnew : (boundBy decls).isSome → decl.isDefinition = false) :
    Ensures (NoticedBehind name spans decls found)
      (define (.proc { decl.heading.subprogram with defined := decl.isDefinition }))
      fun _ => NoticedBehind name spans (decls ++ [decl]) found := by
  intro a value a' ha hrun
  obtain ⟨hnone, rfl⟩ | ⟨existing, hexisting, hrun⟩ := of_define_eq_ok hrun
  · have hnone : a.table.lookupLocal decl.heading.name.name = none := hnone
    rw [hname, ha.table, Option.map_eq_none_iff, boundBy, Option.map_eq_none_iff] at hnone
    obtain rfl := List.head?_eq_none_iff.mp hnone
    refine ⟨?_, fun clash => ?_, ha.holds⟩
    · simp [SymbolTable.lookupLocal, boundBy, ← hname, Symbol.name, Heading.subprogram]
    · rw [Clash.times_concat, ha.errors]
      simp [Clash.behind, boundBy]
  · have hexisting : a.table.lookupLocal decl.heading.name.name = some existing := hexisting
    rw [hname, ha.table] at hexisting
    obtain ⟨s, hs, rfl⟩ := Option.map_eq_some_iff.mp hexisting
    obtain ⟨hsname, span, hsspan⟩ := hdecls s hs
    have hdecl := hnew (by simp [hs])
    refine record_noticed (fun clash => ?_) a value a' ⟨?_, ha.errors, ha.holds⟩ hrun
    · rw [Clash.times_concat]
      simp [Clash.behind, hs, hdecl, Diagnostic.clash?, SymbolTable.duplicate, Symbol.span,
        Symbol.name, hsname, hsspan, Heading.subprogram, hspan]
    · rw [boundBy_concat hs, hdecl, Bool.or_false, ha.table, hs]

theorem declareDefinition_noticed (hdefinition : decl.isDefinition = true) :
    Ensures (NoticedBehind name spans decls found) (declareDefinition decl.heading)
      fun s a => boundBy (decls ++ [decl]) = some s ∧
        NoticedBehind name spans (decls ++ [decl]) found a := by
  intro a value a' ha hrun
  rw [declareDefinition_eq, show a.table.lookupLocal decl.heading.name.name =
    (boundBy decls).map .proc from hname ▸ ha.table] at hrun
  refine (?_ : Ensures (NoticedBehind name spans decls found) (_ : Declaring Subprogram) fun s b =>
    boundBy (decls ++ [decl]) = some s ∧ NoticedBehind name spans (decls ++ [decl]) found b)
    a value a' ha hrun
  cases hs : boundBy decls with
  | none =>
    have hdefine := @define_noticed _ _ _ found decl hname hspan hdecls (by simp [hs])
    rw [hdefinition] at hdefine
    have hnil := List.head?_eq_none_iff.mp (Option.map_eq_none_iff.mp hs)
    exact .bind decl.heading.checkResult_unnoticed fun _ => hdefine.bind
      fun _ => .pure fun b hb => ⟨by simp [hnil, boundBy, hdefinition], hb⟩
  | some s =>
    have hbound := boundBy_concat hs decl
    rw [hdefinition, Bool.or_true] at hbound
    cases hdefined : s.defined with
    | true =>
      have hsame : { s with defined := true } = s := by rw [← hdefined]
      rw [hsame] at hbound
      simp only [Option.map_some, hdefined, if_true]
      refine Ensures.bind (Q := fun _ => NoticedBehind name spans (decls ++ [decl]) found) ?_
        fun _ => .pure fun b hb => ⟨hbound, hb⟩
      refine .of_imp (record_noticed fun clash => ?_) fun b hb => ⟨?_, hb.errors, hb.holds⟩
      · rw [Clash.times_concat]
        simp [Clash.behind, hs, hdefinition, hdefined, Diagnostic.clash?, hname]
      · rw [hb.table, hbound, hs]
    | false =>
      simp only [Option.map_some, hdefined, Bool.false_eq_true, if_false]
      refine Ensures.bind (Q := fun _ => Noticed name spans
          (·.lookupLocal name = (boundBy (decls ++ [decl])).map .proc) (·.times decls) found)
        (.modify fun b hb => ⟨?_, hb.errors, hb.holds⟩) fun _ => ?_
      · have hlookup : b.table.lookupLocal name = some (.proc s) := by rw [hb.table, hs]; rfl
        rw [hname, SymbolTable.rebind_eq (by rw [hlookup]; rfl), hbound]
        have hlookup : List.lookup name b.table.current = some (.proc s) := hlookup
        simp [SymbolTable.lookupLocal, SymbolTable.lookup_rebindIn, hlookup]
      · cases hsame : s.sameSignature decl.heading.subprogram with
        | true =>
          refine .pure fun b hb => ⟨hbound, hb.table, fun clash => ?_, hb.holds⟩
          rw [hb.errors, Clash.times_concat]
          simp [Clash.behind, hs, hdefinition, hdefined, hsame]
        | false =>
          refine Ensures.bind (record_noticed fun clash => ?_) fun _ => .pure
            fun b hb => ⟨hbound, hb⟩
          rw [Clash.times_concat]
          simp [Clash.behind, hs, hdefinition, hdefined, hsame, Diagnostic.clash?, hname,
            Diagnostic.on]

end

/-- The subprograms of a name that are meant to be one are annotated so, but for when it is defined.
-/
def Marked (decls : List SubprogramDecl) (found : List Finding) : Prop :=
  ∀ s ∈ boundBy decls, ∀ decl, Shares decls decl →
    ∃ t : Subprogram, t.name = s.name ∧ t.span = s.span ∧ .symbols decl.node.id [.proc t] ∈ found

theorem Marked.concat {t : Subprogram} (h : Marked decls found)
    (ht : (boundBy decls).isSome → decl.isDefinition = true → boundBy (decls ++ [decl]) = some t)
    (ht' : decls = [] → boundBy [decl] = some t) :
    Marked (decls ++ [decl]) (.symbols decl.node.id [.proc t] :: found) := by
  intro s hs other hother
  cases hbound : boundBy decls with
  | none =>
    obtain rfl := List.head?_eq_none_iff.mp (Option.map_eq_none_iff.mp hbound)
    obtain rfl : t = s := Option.some.inj ((ht' rfl).symm.trans hs)
    obtain rfl : other = decl := by
      rcases hother with hother | ⟨hother, -⟩
      · exact (Option.some.inj hother).symm
      · exact List.mem_singleton.mp hother
    exact ⟨t, rfl, rfl, .head _⟩
  | some s₀ =>
    obtain ⟨first, hhead, -⟩ := Option.map_eq_some_iff.mp hbound
    obtain rfl := Option.some.inj ((boundBy_concat hbound decl).symm.trans hs)
    have hcases : Shares decls other ∨ other = decl ∧ decl.isDefinition = true := by
      simp only [Shares, List.head?_append, hhead, List.mem_append, List.mem_singleton] at hother ⊢
      rcases hother with hother | ⟨hother | rfl, hdefinition⟩
      · exact .inl (.inl hother)
      · exact .inl (.inr ⟨hother, hdefinition⟩)
      · exact .inr ⟨rfl, hdefinition⟩
    rcases hcases with hother | ⟨rfl, hdefinition⟩
    · obtain ⟨t', hname, hspan, hmem⟩ := h s₀ hbound other hother
      exact ⟨t', hname, hspan, List.mem_cons_of_mem _ hmem⟩
    · obtain rfl := Option.some.inj ((ht (by simp [hbound]) hdefinition).symm.trans hs)
      exact ⟨_, rfl, rfl, .head _⟩

/-- What is true behind headings of a name. -/
def Tracked (name : String) (spans : List Span) (decls : List SubprogramDecl)
    (a : Analysis) : Prop :=
  ∃ found, NoticedBehind name spans decls found a ∧ Marked decls found

/-- One heading of the name is noticed by those before it. -/
theorem SubprogramDecl.declare_tracked (hname : decl.heading.name.name = name)
    (hspan : decl.heading.name.span ∈ spans)
    (hdecls : ∀ s ∈ boundBy decls, s.name = name ∧ ∃ span, s.span = some span)
    (hgroups : ∀ group ∈ decl.groups, ∀ x ∈ group.names, x.span ∉ spans) :
    Ensures (Tracked name spans decls) decl.declare
      fun _ => Tracked name spans (decls ++ [decl]) := by
  rintro a value a' ⟨found, ha, hmarked⟩ hrun
  cases decl with
  | forward node heading =>
    rw [declare, declareForward_eq] at hrun
    refine ⟨_, Ensures.bind (?_ : Maintains (NoticedBehind name spans decls found) _) (fun _ =>
      (define_noticed (.forward node heading) hname hspan hdecls fun _ => rfl).bind
        fun _ => annotate_noticed node _) a value a' ha hrun, hmarked.concat _ nofun fun _ => rfl⟩
    split
    · exact .pure ()
    · exact heading.checkResult_unnoticed
  | definition node heading vars stmts =>
    refine Ensures.bind (R := fun _ => Tracked name spans _) (declareDefinition_noticed
      (.definition node heading vars stmts) hname hspan hdecls rfl)
      (fun s => .assume fun hs => .bind (annotate_noticed node [.proc s])
        fun _ b v b' hb hrun => ?_) a value a' ha hrun
    refine ⟨_, inside_unnoticed _ stmts hgroups b v b' hb hrun, hmarked.concat _ (fun _ _ => hs) ?_⟩
    rintro rfl
    exact hs

/-- The headings of the name are noticed in their order. -/
theorem declareSubprograms_tracked {front rest : List SubprogramDecl}
    (hspans : ∀ decl ∈ rest, decl.heading.name.span ∈ spans ↔ decl.heading.name.name = name)
    (hgroups : ∀ decl ∈ rest, ∀ group ∈ decl.groups, ∀ x ∈ group.names, x.span ∉ spans) :
    Ensures (Tracked name spans (namesakes name front)) (declareSubprograms rest)
      fun _ => Tracked name spans (namesakes name (front ++ rest)) := by
  induction rest generalizing front with
  | nil => exact .pure fun a ha => by rwa [List.append_nil]
  | cons decl rest ih =>
    obtain ⟨hspan, hspans⟩ := List.forall_mem_cons.mp hspans
    obtain ⟨hgroup, hgroups⟩ := List.forall_mem_cons.mp hgroups
    have hrest := @ih (front ++ [decl]) hspans hgroups
    rw [List.append_assoc] at hrest
    refine .bind ?_ fun _ => hrest
    by_cases hname : decl.heading.name.name = name
    · have hconcat : namesakes name (front ++ [decl]) = namesakes name front ++ [decl] := by
        simp [namesakes, hname]
      rw [hconcat]
      exact decl.declare_tracked hname (hspan.mpr hname) (fun s => boundBy_namesakes) hgroup
    · have hsame : namesakes name (front ++ [decl]) = namesakes name front := by
        simp [namesakes, hname]
      rw [hsame]
      rintro a value a' ⟨found, ha, hmarked⟩ hrun
      exact ⟨found, decl.declare_unnoticed hname (mt hspan.mp hname) hgroup a value a' ha hrun,
        hmarked⟩

end

/-! ## Where names are written -/

/-- The spans of the names in a declaration of variables. -/
def VarDecl.spans (decl : VarDecl) : List Span := decl.names.map (·.span)

section

variable {R : List Token → Node → Prop} {ts : List Token}

theorem InOrder.vars_spans_sublist {decls : List VarDecl} (h : InOrder (IsVarDecl R) ts decls) :
    (decls.flatMap (·.spans)).Sublist (ts.map (·.span)) := by
  refine h.flatMap_sublist fun hdecl => ?_
  rw [VarDecl.spans, List.map_eq_flatMap]
  refine hdecl.names_inOrder.flatMap_sublist fun hname => ?_
  cases hname
  exact List.Sublist.refl _

theorem IsAnySubprogram.spans_sublist {decl : SubprogramDecl} (h : IsAnySubprogram R ts decl) :
    (decl.heading.name.span :: decl.groups.flatMap (·.spans)).Sublist (ts.map (·.span)) := by
  obtain ⟨next, h⟩ := h
  cases h with
  | forward hheading =>
    obtain ⟨t, name, us, rfl, hname, -⟩ := hheading.form
    simp [SubprogramDecl.groups, SubprogramDecl.heading, hname, Token.ident]
  | @definition t t₁ t₂ closing t₃ xs us vs node heading vars body hheading _ hvars =>
    obtain ⟨u, name, ws, rfl, hname, hparams⟩ := hheading.form
    have hgroups := hparams.vars_spans_sublist.append hvars.vars.vars_spans_sublist
    rw [SubprogramDecl.heading, hname, SubprogramDecl.groups, List.flatMap_append]
    simp only [List.map_append, List.map_cons, List.cons_append]
    refine .cons _ (.cons_cons _ (hgroups.trans (.append (List.Sublist.refl _) (.cons _ ?_))))
    exact List.sublist_append_left _ _

theorem IsProgram.spans_sublist {p : Program} (h : IsProgram R ts p) :
    (p.name.span :: (p.vars.flatMap (·.spans) ++ p.subprograms.flatMap fun decl =>
      decl.heading.name.span :: decl.groups.flatMap (·.spans))).Sublist (ts.map (·.span)) := by
  cases h with
  | @mk t name t₁ t₂ closing t₃ xs us vs node _ _ _ _ _ _ _ hvars hsubprograms =>
    have hdecls := hvars.vars.vars_spans_sublist.append
      (hsubprograms.inOrder.flatMap_sublist fun hdecl => hdecl.spans_sublist)
    simp only [List.map_append, List.map_cons]
    refine .cons _ (.cons_cons _ (.cons _ (hdecls.trans (.append (List.Sublist.refl _) ?_))))
    exact List.sublist_append_left _ _

end

/-- No two names that a module declares stand at one place. -/
theorem Program.spans_nodup (h : Program.parse source = .ok p) :
    (p.name.span :: (p.vars.flatMap (·.spans) ++ (p.subprograms.map (·.heading.name.span) ++
      p.subprograms.flatMap (·.groups.flatMap (·.spans))))).Nodup := by
  obtain ⟨hfault, ts, eof, hts, -, hprogram⟩ := phrase_of_parse Parser.anyNode_spanned h
  have hnodup := (TokenStream.successive hfault hts).nodup_spans.sublist hprogram.spans_sublist
  refine ((List.Perm.append_left _ ?_).cons _).nodup_iff.mpr hnodup
  exact List.map_append_flatMap_perm _ _ _

/-! ## The analysis of a module -/

/-- The analysis of a module up to the end of its frame, before annotations are settled. -/
def Program.declareOpen (p : Program) : Declaring Unit := do
  let symbol := Symbol.mod p.name.name (some p.name.span)
  define symbol
  annotate p.node [symbol]
  modify fun analysis => { analysis with table := analysis.table.enter }
  p.declareInside

theorem Program.of_declare_eq_ok (h : p.declare a = .ok ((), a')) :
    ∃ inside, p.declareOpen a = .ok ((), inside) ∧ a'.notes =
      ⟨inside.notes.annotations.mapSymbols (.settled inside.table.current),
        inside.notes.errors⟩ := by
  rw [declare_eq] at h
  obtain ⟨_, around, haround, hframe⟩ := of_run_bind_eq_ok h
  obtain ⟨_, defined, hdefined, hannotate⟩ := of_run_bind_eq_ok haround
  obtain ⟨inner, frame, outer, hinner, -, rfl⟩ := of_inFrame_eq_ok hframe
  obtain ⟨_, inside, hinside, hsettle⟩ := of_run_bind_eq_ok hinner
  cases hsettle
  refine ⟨inside, ?_, rfl⟩
  rw [declareOpen, run_bind hdefined, run_bind hannotate]
  exact hinside

theorem Program.declareOpen_tracked (hparse : Program.parse source = .ok p)
    (hname : ∀ decl ∈ p.vars, ∀ x ∈ decl.names, x.name ≠ name) :
    Ensures (· = ⟨.initial, ⟨.ofSize p.nodeCount, []⟩⟩) p.declareOpen fun _ =>
      Tracked name ((namesakes name p.subprograms).map (·.heading.name.span))
        (namesakes name p.subprograms) := by
  have hnodup := spans_nodup hparse
  simp only [List.nodup_cons, List.mem_append, not_or, List.nodup_append] at hnodup
  obtain ⟨⟨-, hmod, -⟩, -, ⟨hheadings, -, hgroups⟩, hvars⟩ := hnodup
  generalize hspans : (namesakes name p.subprograms).map (·.heading.name.span) = spans
  have hsubset : spans ⊆ p.subprograms.map (·.heading.name.span) :=
    hspans ▸ List.map_subset _ (List.filter_subset_self _)
  have hvars : ∀ decl ∈ p.vars, ∀ x ∈ decl.names, x.span ∉ spans := fun decl hdecl x hx hmem =>
    hvars x.span (List.mem_flatMap_of_mem hdecl (List.mem_map_of_mem hx)) _
      (.inl (hsubset hmem)) rfl
  have hgroups : ∀ decl ∈ p.subprograms, ∀ group ∈ decl.groups, ∀ x ∈ group.names, x.span ∉ spans :=
    fun decl hdecl group hgroup x hx hmem => hgroups x.span (hsubset hmem) _
      (List.mem_flatMap_of_mem hdecl (List.mem_flatMap_of_mem hgroup (List.mem_map_of_mem hx))) rfl
  have hheadings : ∀ decl ∈ p.subprograms,
      decl.heading.name.span ∈ spans ↔ decl.heading.name.name = name := by
    intro decl hdecl
    rw [← hspans, List.mem_map]
    constructor
    · rintro ⟨other, hother, heq⟩
      obtain ⟨hmem, hother⟩ := List.mem_filter.mp hother
      rw [← List.inj_on_of_nodup_map hheadings hmem hdecl heq]
      exact beq_iff_eq.mp hother
    · exact fun hname => ⟨decl, List.mem_filter.mpr ⟨hdecl, beq_iff_eq.mpr hname⟩, rfl⟩
  have hmod : p.name.span ∉ spans := fun hmem => hmod (hsubset hmem)
  -- around the frame of the module, nothing is known about the name and nothing is said
  have haround : Ensures (· = ⟨.initial, ⟨.ofSize p.nodeCount, []⟩⟩)
      (define (.mod p.name.name (some p.name.span)))
      fun _ => Noticed name spans (fun _ => True) (·.times []) [] :=
    .of_imp (define_unnoticed (by simpa [Symbol.span] using hmod) fun _ _ => trivial) fun a ha => by
      subst ha
      exact ⟨trivial, fun clash => by cases clash <;> rfl, by simp⟩
  refine haround.bind fun _ => Ensures.bind (annotate_unnoticed p.node _) fun _ =>
    Ensures.bind (Q := fun _ => NoticedBehind name spans [] [])
      (.modify fun a ha => ⟨rfl, ha.errors, ha.holds⟩) fun _ => ?_
  refine .bind (declareVars_unnoticed (P := (· ≠ name))
    (fun decl hdecl x hx => ⟨hvars decl hdecl x hx, hname decl hdecl x hx⟩)
    fun symbol table hsymbol => lookupLocal_define hsymbol table) fun _ => ?_
  refine .bind (.of_imp (@declareSubprograms_tracked _ _ [] _ hheadings hgroups)
    fun a ha => ⟨[], ha, nofun⟩) fun _ => ?_
  rintro a value a' ⟨found, ha, hmarked⟩ hrun
  exact ⟨found, checkStmts_unnoticed _ _ a value a' ha hrun, hmarked⟩

/-- In the end a subprogram shows what its name is bound to. -/
theorem Symbol.settled_proc {frame : Frame} {t : Subprogram}
    (h : frame.lookup t.name = some (.proc s)) (hspan : t.span = s.span) :
    settled frame (.proc t) = .proc s := by
  simp [settled, h, hspan]

/-- What is wrong with the headings of a name that is not that of a variable of the module is said
as often as the headings require. In the end the name is bound to the subprogram of its first
heading, which is defined exactly if there is a definition, and which the first heading and all
definitions are annotated with. -/
theorem headings_settled {source : List Char} {p : Program} {name : String}
    (hparse : Program.parse source = .ok p)
    (hname : ∀ decl ∈ p.vars, ∀ x ∈ decl.names, x.name ≠ name) :
    ∃ inside analysis, p.declareOpen ⟨.initial, ⟨.ofSize p.nodeCount, []⟩⟩ = .ok ((), inside) ∧
      p.analyze = .ok analysis ∧
      (∀ clash, analysis.notes.errors.countP (·.clash? name
        ((namesakes name p.subprograms).map (·.heading.name.span)) = some clash) =
          clash.times (namesakes name p.subprograms)) ∧
      ∀ first ∈ (namesakes name p.subprograms).head?, ∃ s : Subprogram,
        inside.table.lookupLocal name = some (.proc s) ∧
        s = { first.heading.subprogram with defined := s.defined } ∧
        (s.defined ↔ ∃ decl ∈ namesakes name p.subprograms, decl.isDefinition) ∧
        ∀ decl ∈ namesakes name p.subprograms, decl = first ∨ decl.isDefinition →
          analysis.notes.annotations.symbolOf Symbol.proc? decl.node.id = .ok s := by
  obtain ⟨analysis, hanalyze, -⟩ := (Program.regular_of_ofTokens hparse).analyze
  obtain ⟨inside, hopen, hnotes⟩ := Program.of_declare_eq_ok (Program.of_analyze_eq_ok hanalyze)
  obtain ⟨found, hnoticed, hmarked⟩ := Program.declareOpen_tracked hparse hname _
    () inside rfl hopen
  refine ⟨inside, analysis, hopen, hanalyze, fun clash => ?_, fun first hfirst => ?_⟩
  · rw [hnotes]
    exact hnoticed.errors clash
  · have hfirst : (namesakes name p.subprograms).head? = some first := hfirst
    have hbound : boundBy (namesakes name p.subprograms) = some { first.heading.subprogram with
        defined := (namesakes name p.subprograms).any (·.isDefinition) } := by
      rw [boundBy, hfirst]
      rfl
    have hlookup := hnoticed.table
    rw [hbound] at hlookup
    refine ⟨_, hlookup, rfl, List.any_eq_true, fun decl hdecl hshares => ?_⟩
    obtain ⟨t, htname, htspan, hmem⟩ := hmarked _ hbound decl (by
      rw [Shares, hfirst]
      exact hshares.imp (congrArg some ·.symm) fun h => ⟨hdecl, h⟩)
    have hholds := Annotations.holds_mapSymbols (Symbol.settled inside.table.current)
      (hnoticed.holds _ hmem)
    have htlookup : inside.table.lookupLocal t.name = _ :=
      (congrArg _ (htname.trans (boundBy_namesakes hbound).1)).trans hlookup
    rw [hnotes]
    exact Annotations.symbolOf_of_holds hholds
      (congrArg Symbol.proc? (Symbol.settled_proc htlookup htspan))

/-- A text with two declarations and two definitions of a name, with a subprogram between them in
which two variables have the same name. -/
def crowdedText : List Char :=
  ("MODULE M; PROCEDURE F(a: INTEGER); PROCEDURE G; VAR F, F: INTEGER; BEGIN END G; " ++
    "PROCEDURE F(b: BOOLEAN); BEGIN END F; PROCEDURE F; PROCEDURE F; BEGIN END F; END M.").toList

theorem crowded_headings_settled : ∃ p analysis, Program.parse crowdedText = .ok p ∧
    p.analyze = .ok analysis ∧ ∀ clash, analysis.notes.errors.countP (·.clash? "F"
      ((namesakes "F" p.subprograms).map (·.heading.name.span)) = some clash) = 1 := by
  have htext : ((Program.parse crowdedText).toOption.map fun p => (p.vars.length,
      [Clash.repeated, .redefined, .mismatched].map (·.times (namesakes "F" p.subprograms)))) =
        some (0, [1, 1, 1]) := by
    decide +kernel
  obtain ⟨p, hp, hcounts⟩ := Option.map_eq_some_iff.mp htext
  simp only [Prod.mk.injEq, List.length_eq_zero_iff, List.map_cons, List.cons.injEq] at hcounts
  obtain ⟨hvars, hrepeated, hredefined, hmismatched, -⟩ := hcounts
  have hparse := eq_ok_of_toOption hp
  obtain ⟨-, analysis, -, hanalyze, hclash, -⟩ := @headings_settled _ p "F" hparse (by simp [hvars])
  refine ⟨p, analysis, hparse, hanalyze, fun clash => (hclash clash).trans ?_⟩
  cases clash
  · exact hrepeated
  · exact hredefined
  · exact hmismatched

end Oberlet
