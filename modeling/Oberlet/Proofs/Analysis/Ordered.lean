import Oberlet.Proofs.Analysis.Declaration
import Oberlet.Proofs.Analysis.Ledger

/-!
# The order of diagnostics

At the end of a name there may be two diagnostics, of which the one that says that the name is taken
comes last.
-/

namespace Oberlet

variable {α β : Type} {source : List Char} {lo hi : Mark} {ds : List Diagnostic}

/-! ## Diagnostics in order -/

/-- The diagnostics lie in the text, in its order, and before a mark. -/
structure Ascending (source : List Char) (hi : Mark) (ds : List Diagnostic) : Prop where
  each : ∀ d ∈ ds, d.Sited .origin source
  pairs : ds.Pairwise fun d d' => d.mark < d'.mark
  below : ∀ d ∈ ds, d.mark < hi

theorem Ascending.mono (h : Ascending source lo ds) (hle : lo ≤ hi) : Ascending source hi ds :=
  ⟨h.each, h.pairs, fun d hd => (h.below d hd).trans_le hle⟩

theorem Ascending.concat {d : Diagnostic} (h : Ascending source lo ds) (hd : d.Sited .origin source)
    (hlo : lo ≤ d.mark) (hhi : d.mark < hi) :
    Ascending source hi (ds ++ [d]) := by
  refine ⟨List.forall_mem_append.mpr ⟨h.each, by simpa using hd⟩,
    List.pairwise_append.mpr ⟨h.pairs, List.pairwise_singleton _ _, fun d' hd' e he => ?_⟩,
    List.forall_mem_append.mpr ⟨fun d' hd' => ?_, by simpa using hhi⟩⟩
  · rw [List.mem_singleton.mp he]
    exact (h.below d' hd').trans_le hlo
  · exact ((h.below d' hd').trans_le hlo).trans hhi

theorem Diagnostic.mark_on (span : Span) {cause : Diagnostic.Cause}
    (h : cause.ofDeclaration = false) : (Diagnostic.on span cause).mark = span.ending 1 := by
  cases cause <;> first | rfl | simp [Cause.ofDeclaration] at h

/-- That marks ascend can be followed through the text. -/
theorem ascending_ledger : Ledger source (Ascending source) where
  mono hle h := h.mono hle
  add hspan hcause h := h.concat (.on hspan.sited _)
    (hspan.lower.trans_eq (Diagnostic.mark_on _ hcause).symm)
    ((Diagnostic.mark_on _ hcause).trans_lt hspan.upper)

/-- The symbol was written in the text, or nowhere. -/
def Symbol.Sited (source : List Char) (symbol : Symbol) : Prop :=
  ∀ span, symbol.span = some span → span.Sited .origin source

/-- All symbols of a frame were written in the text, or nowhere. -/
def Frame.Sited (source : List Char) (frame : Frame) : Prop :=
  ∀ entry ∈ frame, entry.2.Sited source

/-- The diagnostics so far and the symbols of the table lie in the text, and the diagnostics are in
its order and before a mark. -/
structure Analysis.Orderly (source : List Char) (hi : Mark) (a : Analysis) : Prop where
  errors : Ascending source hi a.notes.errors
  current : a.table.current.Sited source
  outer : ∀ frame ∈ a.table.outer, frame.Sited source

theorem Frame.Sited.rebindIn {frame : Frame} {name : String} {symbol : Symbol}
    (h : frame.Sited source) (hsymbol : symbol.Sited source) :
    Frame.Sited source (SymbolTable.rebindIn name symbol frame) := by
  induction frame with
  | nil => exact h
  | cons entry rest ih =>
    obtain ⟨hentry, hrest⟩ := List.forall_mem_cons.mp h
    rw [SymbolTable.rebindIn]
    split
    · exact List.forall_mem_cons.mpr ⟨hsymbol, hrest⟩
    · exact List.forall_mem_cons.mpr ⟨hentry, ih hrest⟩

theorem SymbolTable.sited_rebind {table : SymbolTable} {symbol : Symbol} (name : String)
    (hcurrent : table.current.Sited source) (houter : ∀ frame ∈ table.outer, frame.Sited source)
    (hsymbol : symbol.Sited source) : (table.rebind name symbol).current.Sited source ∧
      ∀ frame ∈ (table.rebind name symbol).outer, frame.Sited source := by
  have hframes (frames : List Frame) (h : ∀ frame ∈ frames, frame.Sited source) :
      ∀ frame ∈ rebind.inFrames name symbol frames, frame.Sited source := by
    induction frames with
    | nil => exact h
    | cons frame rest ih =>
      obtain ⟨hframe, hrest⟩ := List.forall_mem_cons.mp h
      rw [rebind.inFrames]
      split
      · exact List.forall_mem_cons.mpr ⟨hframe.rebindIn hsymbol, hrest⟩
      · exact List.forall_mem_cons.mpr ⟨hframe, ih hrest⟩
  have hall := hframes _ (List.forall_mem_cons.mpr ⟨hcurrent, houter⟩)
  rw [rebind]
  split
  · rename_i hrebind
    exact List.forall_mem_cons.mp (hrebind ▸ hall)
  · exact ⟨hcurrent, houter⟩

/-- The diagnostic about a taken name points to the new symbol. -/
theorem SymbolTable.duplicate_spec {existing new : Symbol} {span : Span}
    (hexisting : existing.Sited source) (hspan : new.span = some span)
    (hnew : span.Sited .origin source) :
    (duplicate existing new).Sited .origin source ∧
    (duplicate existing new).mark = span.ending 2 := by
  refine ⟨⟨?_, fun other hother => ?_⟩, ?_⟩
  · cases hname : existing.span with
    | none => exact ⟨span, by simp [duplicate, hname, hspan], hnew⟩
    | some other => exact ⟨other, by simp [duplicate, hname], hexisting other hname⟩
  · obtain rfl : span = other := Option.some.inj (hspan.symm.trans hother)
    exact hnew
  · cases hname : existing.span <;> simp [duplicate, Diagnostic.mark, hname, hspan]

namespace Declaring

/-- What the analysis records leads from one mark to another. -/
def Adds (source : List Char) (lo hi : Mark) (d : Declaring α) : Prop :=
  Ensures (Analysis.Orderly source lo) d fun _ => Analysis.Orderly source hi

variable {mid : Mark}

theorem Adds.pure (a : α) (hle : lo ≤ hi) : Adds source lo hi (Pure.pure a : Declaring α) :=
  Ensures.pure fun _ h => ⟨h.errors.mono hle, h.current, h.outer⟩

theorem Adds.bind {d : Declaring α} {f : α → Declaring β} (hd : Adds source lo mid d)
    (hf : ∀ a, Adds source mid hi (f a)) : Adds source lo hi (d >>= f) := Ensures.bind hd hf

theorem body_adds {checker : SymbolTable → Checker α}
    (h : ∀ table, Checker.Adds (Ascending source) lo hi (checker table)) :
    Adds source lo hi (body checker) := by
  intro a value a' ha hrun
  obtain ⟨notes, hchecker, rfl⟩ := of_body_eq_ok hrun
  exact ⟨h a.table a.notes value notes ha.errors hchecker, ha.current, ha.outer⟩

theorem record_adds {d : Diagnostic} (hd : d.Sited .origin source) (hlo : lo ≤ d.mark)
    (hhi : d.mark < hi) : Adds source lo hi (record d) :=
  body_adds fun _ => .modify fun _ hnotes => hnotes.concat hd hlo hhi

theorem annotate_adds (node : Node) (symbols : List Symbol) :
    Adds source lo lo (annotate node symbols) :=
  body_adds fun _ => Checker.annotateSymbols_adds node.id symbols

theorem define_adds {symbol : Symbol} {span : Span} (hsymbol : symbol.span = some span)
    (hspan : span.Sited .origin source) (hlo : lo ≤ span.ending 2) (hhi : span.ending 2 < hi) :
    Adds source lo hi (define symbol) := by
  intro a value a' ha hrun
  obtain ⟨-, rfl⟩ | ⟨existing, hname, hrun⟩ := of_define_eq_ok hrun
  · refine ⟨ha.errors.mono (hlo.trans hhi.le),
      List.forall_mem_cons.mpr ⟨fun other hother => ?_, ha.current⟩, ha.outer⟩
    obtain rfl : span = other := Option.some.inj (hsymbol.symm.trans hother)
    exact hspan
  · have hexisting := ha.current _ (mem_of_lookup_eq_some hname)
    obtain ⟨hsited, hmark⟩ := SymbolTable.duplicate_spec hexisting hsymbol hspan
    exact record_adds hsited (hlo.trans_eq hmark.symm) (hmark.trans_lt hhi) a value a' ha hrun

theorem inFrame_adds {d : Declaring Unit} (h : Adds source lo hi d) :
    Adds source lo hi (inFrame d) := by
  intro a value a' ha hrun
  obtain ⟨inner, frame, outer, hinner, houter, rfl⟩ := of_inFrame_eq_ok hrun
  have henter : Analysis.Orderly source lo ⟨a.table.enter, a.notes⟩ :=
    ⟨ha.errors, by simp [SymbolTable.enter, Frame.Sited],
      List.forall_mem_cons.mpr ⟨ha.current, ha.outer⟩⟩
  have hp := h _ () inner henter hinner
  obtain ⟨hframe, hrest⟩ := List.forall_mem_cons.mp (houter ▸ hp.outer)
  exact ⟨hp.errors, hframe, hrest⟩

theorem Adds.row {P : List Token → α → Prop} {f : α → Declaring Unit} {g : List α → Declaring Unit}
    (hnil : g [] = Pure.pure ()) (hcons : ∀ x xs, g (x :: xs) = f x >>= fun _ => g xs)
    (hf : ∀ {us x lo hi}, P us x → Between source lo us hi → Adds source lo hi (f x))
    {ts : List Token} {xs : List α} (h : InOrder P ts xs) (hts : Between source lo ts hi) :
    Adds source lo hi (g xs) := by
  induction h generalizing lo with
  | nil =>
    rw [hnil]
    exact .pure () hts.le
  | cons hparts hx _ ih =>
    obtain ⟨mid, hus, hvs⟩ := hts.split hparts
    rw [hcons]
    exact (hf hx hus).bind fun _ => ih hvs

end Declaring

open Declaring

section

variable {ts : List Token}

theorem VarDecl.declare_adds {decl : VarDecl} (h : IsVarDecl Covers ts decl)
    (hts : Between source lo ts hi) : Adds source lo hi decl.declare := by
  refine .bind ?_ fun _ => annotate_adds decl.node _
  rw [VarDecl.variables, List.map_map]
  refine Adds.row (g := fun names => defineAll (names.map _)) rfl (fun _ _ => rfl)
    (fun hname hus => ?_) h.names_inOrder hts
  cases hname with
  | mk _ =>
    obtain ⟨hlo, hhi⟩ := hus.token (.head _) (k := 2) (by decide)
    exact define_adds rfl (hus.row.each _ (.head _)) hlo hhi

theorem declareVars_adds {decls : List VarDecl} (h : InOrder (IsVarDecl Covers) ts decls)
    (hts : Between source lo ts hi) : Adds source lo hi (declareVars decls) :=
  .row (P := IsVarDecl Covers) rfl (fun _ _ => rfl) VarDecl.declare_adds h hts

section

variable {heading : Heading} (hname : heading.name.span.Sited .origin source)
  (hlo : lo ≤ heading.name.span.ending 1)

include hname hlo

theorem Heading.checkResult_adds :
    Adds source lo (heading.name.span.ending 2) heading.checkResult := by
  have hlt := heading.name.span.ending_lt (k := 1) (l := 2) (by decide)
  rw [Heading.checkResult]
  split
  · exact record_adds (.on hname _) hlo hlt
  · exact .pure () (hlo.trans hlt.le)

theorem declareForward_adds (node : Node) :
    Adds source lo (heading.name.span.ending 3) (declareForward node heading) := by
  intro a value a' ha hrun
  rw [declareForward_eq] at hrun
  refine Adds.bind (?_ : Adds source lo (heading.name.span.ending 2) _)
    (fun _ => .bind (define_adds rfl hname (le_refl _) (Span.ending_lt _ (by decide)))
      fun _ => annotate_adds node _) a value a' ha hrun
  split
  · exact .pure () (hlo.trans (Span.ending_lt _ (by decide)).le)
  · exact Heading.checkResult_adds hname hlo

theorem declareDefinition_adds :
    Adds source lo (heading.name.span.ending 3) (declareDefinition heading) := by
  have hlt := heading.name.span.ending_lt (k := 1) (l := 3) (by decide)
  have hnew (s : Subprogram) (hs : (Symbol.proc s).span = some heading.name.span) :
      Adds source lo (heading.name.span.ending 3) (do
        heading.checkResult
        define (.proc s)
        return s) :=
    (Heading.checkResult_adds hname hlo).bind fun _ =>
      (define_adds hs hname (le_refl _) (Span.ending_lt _ (by decide))).bind fun _ =>
        .pure _ (le_refl _)
  intro a value a' ha hrun
  rw [declareDefinition_eq] at hrun
  refine (?_ : Adds source lo _ (_ : Declaring Subprogram)) a value a' ha hrun
  split
  · -- the declared symbol is the one that is rebound, and it keeps its span
    rename_i declared hlookup
    have hdeclared : (Symbol.proc declared).Sited source :=
      ha.current _ (mem_of_lookup_eq_some hlookup)
    split
    · refine (record_adds ⟨⟨heading.name.span, rfl, hname⟩, ?_⟩ hlo hlt).bind fun _ =>
        .pure _ (le_refl _)
      exact hdeclared
    · refine .bind (Ensures.modify fun b hb => ?_ : Adds source lo lo _) fun _ => ?_
      · have hdefined : (Symbol.proc { declared with defined := true }).Sited source := hdeclared
        obtain ⟨hcurrent, houter⟩ :=
          SymbolTable.sited_rebind heading.name.name hb.current hb.outer hdefined
        exact ⟨hb.errors, hcurrent, houter⟩
      · dsimp only
        split
        · exact (record_adds (.on hname _) hlo hlt).bind fun _ => .pure _ (le_refl _)
        · exact .pure _ (hlo.trans hlt.le)
  · exact hnew _ rfl
  · exact hnew _ rfl

end

theorem IsHeading.behind_name {heading : Heading} {us vs : List Token}
    (h : IsHeading Covers us heading) (hts : Between source lo (us ++ vs) hi) :
    heading.name.span.Sited .origin source ∧ lo ≤ heading.name.span.ending 1 ∧
      ∃ ws, InOrder (IsVarDecl Covers) ws heading.params ∧
        Between source (heading.name.span.ending 3) (ws ++ vs) hi := by
  obtain ⟨t, name, ws, rfl, hname, hparams⟩ := h.form
  rw [hname]
  have hmem : name ∈ t :: name :: ws ++ vs := by simp
  refine ⟨hts.row.each name hmem, (hts.token hmem (by decide)).1, ws, hparams, ?_⟩
  exact (show Between source lo ([t] ++ name :: (ws ++ vs)) hi from hts).behind_token

/-- A subprogram has its diagnostics between its ends. -/
theorem SubprogramDecl.declare_adds {decl : SubprogramDecl} (h : IsAnySubprogram Covers ts decl)
    (hts : Between source lo ts hi) : Adds source lo hi decl.declare := by
  obtain ⟨next, h⟩ := h
  cases h with
  | forward hheading =>
    obtain ⟨hname, hlo, us, -, hus⟩ := hheading.behind_name hts
    intro a value a' ha hrun
    have ha' := declareForward_adds hname hlo _ a value a' ha hrun
    exact ⟨ha'.errors.mono hus.le, ha'.current, ha'.outer⟩
  | @definition t t₁ t₂ closing t₃ xs us vs node heading vars body hheading _ hvars _ hbody =>
    obtain ⟨hname, hlo, ws, hparams, hws⟩ := hheading.behind_name hts
    obtain ⟨mid, hws, hrest⟩ := hws.split (List.Sublist.refl _)
    have hparts : (us ++ vs).Sublist (t :: (us ++ t₁ :: (vs ++ [t₂, closing, t₃]))) :=
      .cons _ (.append (List.Sublist.refl us) (.cons _ (List.sublist_append_left _ _)))
    obtain ⟨mid', hus, hvs⟩ := hrest.split hparts
    exact (declareDefinition_adds hname hlo).bind fun s =>
      (annotate_adds node [.proc s]).bind fun _ =>
        inFrame_adds ((declareVars_adds hparams hws).bind fun _ =>
          (declareVars_adds hvars.vars hus).bind fun _ => body_adds fun table =>
            checkStmts_adds ascending_ledger table ⟨s.name, s.result, false⟩ body hbody.inOrder hvs)

theorem Program.declare_adds {p : Program} (h : IsProgram Covers ts p)
    (hts : Between source lo ts hi) : Adds source lo hi p.declare := by
  cases h with
  | @mk t name t₁ t₂ closing t₃ xs us vs node _ _ _ _ _ _ _ hvars hsubprograms hbody =>
    have hmem : name ∈ t :: name :: t₁ :: (xs ++ (us ++ (vs ++ [t₂, closing, t₃]))) := by simp
    have hlo := (hts.token hmem (k := 2) (by decide)).1
    have hbehind := (show Between source lo ([t] ++ name :: _) hi from hts).behind_token
    have hparts : (xs ++ (us ++ vs)).Sublist (t₁ :: (xs ++ (us ++ (vs ++ [t₂, closing, t₃])))) :=
      .cons _ (.append (List.Sublist.refl xs)
        (.append (List.Sublist.refl us) (List.sublist_append_left _ _)))
    obtain ⟨mid, hxs, hrest⟩ := hbehind.split hparts
    obtain ⟨mid', hus, hvs⟩ := hrest.split (List.Sublist.refl _)
    have hsettle : Adds source hi hi settle :=
      .modify fun a ha => ⟨ha.errors, ha.current, ha.outer⟩
    refine (define_adds rfl (hts.row.each name hmem) hlo (name.span.ending_lt (l := 3)
      (by decide))).bind fun _ => (annotate_adds node _).bind fun _ => ?_
    exact inFrame_adds ((declareVars_adds hvars.vars hxs).bind fun _ =>
      (Adds.row (P := IsAnySubprogram Covers) rfl (fun _ _ => rfl) SubprogramDecl.declare_adds
        hsubprograms.inOrder hus).bind fun _ =>
          (body_adds fun table => checkStmts_adds ascending_ledger table _ _ hbody.stmts hvs).bind
            fun _ => hsettle)

end

/-- No two diagnostics of a module have the same mark. -/
theorem Program.analyze_ascending {p : Program} {a : Analysis} (h : Program.parse source = .ok p)
    (hanalyze : p.analyze = .ok a) : ∃ hi, Ascending source hi a.notes.errors := by
  obtain ⟨hfault, ts, eof, hts, -, hprogram⟩ := Program.phrase_of_parse covers_spanned h
  have hrow := (TokenStream.row source).sublist (hts ▸ List.sublist_append_left ts [eof])
  have hn : Covers ts p.node := by
    cases hprogram with
    | mk _ _ _ _ _ _ _ _ _ _ hn => exact hn
  have hbetween := hn.between (TokenStream.successive hfault hts) hrow
  have hinitial : Analysis.Orderly source p.node.span.opening
      ⟨.initial, ⟨.ofSize p.nodeCount, []⟩⟩ := by
    refine ⟨⟨by simp, .nil, by simp⟩, ?_, by simp [SymbolTable.initial]⟩
    simp [Frame.Sited, Symbol.Sited, Symbol.span, SymbolTable.initial, Subprogram.builtins,
      Subprogram.ofBuiltin]
  exact ⟨_, (Program.declare_adds hprogram hbetween _ () a hinitial
    (Program.of_analyze_eq_ok hanalyze)).errors⟩

end Oberlet
