import Oberlet.Proofs.Analysis.Report
import Oberlet.Proofs.Tree.Layout

/-!
# Where diagnostics are found

The analysis walks through a tree from left to right, and what it finds about a phrase it finds when
it has seen the phrase. So the diagnostics are in the order in which the phrases end that they are
about.
-/

namespace Oberlet

variable {α β : Type} {source : List Char}

/-! ## Marks -/

/-- A place in the text, and how late something is found there. -/
abbrev Mark := (ℤ ×ₗ ℤ) ×ₗ ℕ

namespace Span

variable {s s' : Span}

/-- The mark behind all that is found about what ends where a span begins. -/
def opening (s : Span) : Mark := toLex (s.start, 3)

def ending (s : Span) (k : ℕ) : Mark := toLex (s.stop, k)

theorem ending_lt (s : Span) {k l : ℕ} (h : k < l) : s.ending k < s.ending l :=
  Prod.Lex.toLex_lt_toLex.mpr (.inr ⟨rfl, h⟩)

theorem opening_le_ending (h : s.start < s.stop) (k : ℕ) : s.opening ≤ s.ending k :=
  (Prod.Lex.toLex_lt_toLex.mpr (.inl h)).le

theorem Inside.ending_le (h : s.Inside s') (k : ℕ) : s.ending k ≤ s'.ending k :=
  Prod.Lex.toLex_mono ⟨h.stop, le_refl k⟩

theorem Before.ending_le_opening (h : s.Before s') : s.ending 3 ≤ s'.opening :=
  Prod.Lex.toLex_mono ⟨h, le_refl 3⟩

end Span

/-- Where a diagnostic is found: at the end of what it is about. If a name is taken twice, that is
the second time. -/
def Diagnostic.mark (d : Diagnostic) : Mark :=
  match d.cause with
  | .duplicateName _ | .duplicateBuiltin _ _ => (d.related.getD default).ending 2
  | _ => (d.span.getD default).ending 1

/-- The tokens lie in the text, one behind the other, between two marks. -/
structure Between (source : List Char) (lo : Mark) (ts : List Token) (hi : Mark) : Prop where
  le : lo ≤ hi
  lower : ∀ t ∈ ts, lo ≤ t.span.opening
  upper : ∀ t ∈ ts, t.span.ending 3 ≤ hi
  successive : Successive ts
  row : Row source ts

/-- Something can be found about a span behind one mark and before another. -/
structure Refusable (source : List Char) (lo : Mark) (span : Span) (hi : Mark) : Prop where
  sited : span.Sited .origin source
  lower : lo ≤ span.ending 1
  upper : span.ending 1 < hi

section

variable {ts us vs : List Token} {t : Token} {n m : Node} {lo mid hi : Mark}

theorem Covers.exists_ending (h : Covers ts n) :
    ∃ t ∈ ts, ∀ k, n.span.ending k = t.span.ending k := by
  obtain ⟨first, last, -, hlast, hspan⟩ := h
  refine ⟨last, List.mem_of_getLast? hlast, fun k => ?_⟩
  rw [hspan]
  rfl

/-- The tokens of a node lie between its ends. -/
theorem Covers.between (h : Covers ts n) (hts : Successive ts) (hrow : Row source ts) :
    Between source n.span.opening ts (n.span.ending 3) :=
  ⟨Span.opening_le_ending (h.nonempty hts) 3,
    fun t ht => Prod.Lex.toLex_mono ⟨(h.inside hts t ht).start, le_refl 3⟩,
    fun t ht => (h.inside hts t ht).ending_le 3, hts, hrow⟩

theorem Covers.ending_le (h : Covers ts n) (hts : ∀ t ∈ ts, t.span.Inside m.span) (k : ℕ) :
    n.span.ending k ≤ m.span.ending k := by
  obtain ⟨t, ht, heq⟩ := h.exists_ending
  rw [heq]
  exact (hts t ht).ending_le k

namespace Between

theorem sublist (h : Between source lo ts hi) (hus : us.Sublist ts) : Between source lo us hi :=
  ⟨h.le, fun t ht => h.lower t (hus.subset ht), fun t ht => h.upper t (hus.subset ht),
    h.successive.sublist hus, h.row.sublist hus⟩

variable {k : ℕ}

theorem token (h : Between source lo ts hi) (ht : t ∈ ts) (hk : k < 3) :
    lo ≤ t.span.ending k ∧ t.span.ending k < hi :=
  ⟨(h.lower t ht).trans (Span.opening_le_ending (h.successive.each t ht) k),
    (t.span.ending_lt hk).trans_le (h.upper t ht)⟩

theorem node (h : Between source lo ts hi) (hn : Covers ts n) (hk : k < 3) :
    lo ≤ n.span.ending k ∧ n.span.ending k < hi := by
  obtain ⟨t, ht, heq⟩ := hn.exists_ending
  rw [heq]
  exact h.token ht hk

theorem refusable_token (h : Between source lo ts hi) (ht : t ∈ ts) :
    Refusable source lo t.span hi :=
  ⟨h.row.each t ht, (h.token ht (by decide)).1, (h.token ht (by decide)).2⟩

theorem refusable (h : Between source lo ts hi) (hn : Covers ts n) :
    Refusable source (n.span.ending 0) n.span hi :=
  ⟨hn.sited h.row, (n.span.ending_lt (by decide)).le, (h.node hn (by decide)).2⟩

theorem behind_token (h : Between source lo (us ++ t :: vs) hi) :
    Between source (t.span.ending 3) vs hi := by
  have hvs : Between source lo vs hi :=
    h.sublist ((List.sublist_cons_self t vs).trans (List.sublist_append_right us _))
  refine ⟨h.upper t (by simp), fun u hu => ?_, hvs.upper, hvs.successive, hvs.row⟩
  have hpairs := (List.pairwise_append.mp h.successive.pairs).2.1
  exact ((List.pairwise_cons.mp hpairs).1 u hu).ending_le_opening

theorem upTo_token (h : Between source lo (us ++ t :: vs) hi) :
    Between source lo us (t.span.ending 0) := by
  have hus := h.sublist (List.sublist_append_left us _)
  have ht := Span.opening_le_ending (h.successive.each t (by simp)) 0
  refine ⟨(h.lower t (by simp)).trans ht, hus.lower, fun u hu => ?_, hus.successive, hus.row⟩
  have hbefore := (List.pairwise_append.mp h.successive.pairs).2.2 u hu t (by simp)
  exact (Span.Before.ending_le_opening hbefore).trans ht

theorem weaken (h : Between source mid ts hi) (hle : lo ≤ mid) : Between source lo ts hi :=
  ⟨hle.trans h.le, fun t ht => hle.trans (h.lower t ht), h.upper, h.successive, h.row⟩

/-- Parts that follow each other are separated by a mark. -/
theorem split (h : Between source lo ts hi) (hparts : (us ++ vs).Sublist ts) :
    ∃ mid, Between source lo us mid ∧ Between source mid vs hi := by
  replace h := h.sublist hparts
  rcases List.eq_nil_or_concat us with rfl | ⟨front, t, rfl⟩
  · exact ⟨lo, ⟨le_refl lo, by simp, by simp, ⟨by simp, .nil⟩, ⟨by simp, .nil⟩⟩, h⟩
  · rw [List.concat_eq_append] at h ⊢
    have hus := h.sublist (List.sublist_append_left _ vs)
    rw [List.append_assoc] at h
    refine ⟨t.span.ending 3, ⟨?_, hus.lower, fun u hu => ?_, hus.successive, hus.row⟩,
      h.behind_token⟩
    · exact (h.token (by simp) (by decide)).1.trans (t.span.ending_lt (k := 0) (by decide)).le
    · rcases List.mem_append.mp hu with hu | hu
      · exact (h.upTo_token.upper u hu).trans (t.span.ending_lt (by decide)).le
      · rw [List.mem_singleton.mp hu]

theorem behind (h : Between source lo ts hi) (hparts : (us ++ vs).Sublist ts) (hn : Covers us n) :
    Between source (n.span.ending 0) vs hi := by
  obtain ⟨mid, hus, hvs⟩ := h.split hparts
  exact hvs.weaken (hus.node hn (by decide)).2.le

end Between

end

/-! ## Expressions -/

/-- What is true of the diagnostics up to a mark is true of them up to later ones, and with
further diagnostics about statements at later marks. -/
structure Ledger (source : List Char) (H : Mark → List Diagnostic → Prop) : Prop where
  mono : ∀ {lo hi ds}, lo ≤ hi → H lo ds → H hi ds
  add : ∀ {lo span hi ds cause}, Refusable source lo span hi → cause.ofDeclaration = false →
    H lo ds → H hi (ds ++ [.on span cause])

namespace Checker

def Adds (H : Mark → List Diagnostic → Prop) (lo hi : Mark) (c : Checker α) : Prop :=
  Ensures (fun notes => H lo notes.errors) c fun _ notes => H hi notes.errors

end Checker

namespace Typing

/-- The mark that is reached with a result, or without one. -/
def reached (hi fail : Mark) : Except Diagnostic α → Mark
  | .ok _ => hi
  | .error _ => fail

/-- What the analysis records leads from one mark to another if there is a result, and to a third
otherwise. -/
def Adds (H : Mark → List Diagnostic → Prop) (lo hi fail : Mark) (t : Typing α) : Prop :=
  Ensures (fun notes : Notes => H lo notes.errors) t.run fun r notes =>
    H (reached hi fail r) notes.errors

end Typing

section

variable {H : Mark → List Diagnostic → Prop} (hH : Ledger source H) {lo mid hi fail : Mark}
  {ts : List Token}

include hH

namespace Checker

theorem Adds.pure (a : α) (hle : lo ≤ hi) : Adds H lo hi (Pure.pure a : Checker α) :=
  Ensures.pure fun _ h => hH.mono hle h

/-- A diagnostic about a refusable span can be recorded. -/
theorem report_adds {span : Span} (h : Refusable source lo span hi) {cause : Diagnostic.Cause}
    (hcause : cause.ofDeclaration = false) : Adds H lo hi (report span cause) :=
  .modify fun _ hnotes => hH.add h hcause hnotes

omit hH in
theorem annotateType_adds (id : Nat) (type : DataType) : Adds H lo lo (annotateType id type) :=
  .get_bind fun _ hnotes => .lift_bind fun _ _ => .set hnotes

omit hH in
theorem annotateSymbols_adds (id : Nat) (symbols : List Symbol) :
    Adds H lo lo (annotateSymbols id symbols) :=
  .get_bind fun _ hnotes => .lift_bind fun _ _ => .set hnotes

end Checker

namespace Typing

namespace Adds

theorem pure (a : α) (hle : lo ≤ hi) : Adds H lo hi fail (Pure.pure a : Typing α) :=
  Ensures.pure (a := Except.ok a) fun _ h => hH.mono hle h

omit hH in
theorem throw (d : Diagnostic) : Adds H fail hi fail (throw d : Typing α) :=
  Ensures.pure (a := Except.error d) fun _ h => h

omit hH in
theorem bind {t : Typing α} {f : α → Typing β} (ht : Adds H lo mid fail t)
    (hf : ∀ a, Adds H mid hi fail (f a)) : Adds H lo hi fail (t >>= f) := by
  refine Ensures.bind ht fun r => ?_
  cases r with
  | error d => exact throw d
  | ok a => exact hf a

omit hH in
theorem lift {c : Checker α} (hc : Checker.Adds H lo hi c) : Adds H lo hi fail (liftM c) :=
  Ensures.bind hc fun a => Ensures.pure (a := Except.ok a) fun _ h => h

variable {t : Typing α}

theorem upTo (ht : Adds H lo mid fail t) (hle : mid ≤ hi) : Adds H lo hi fail t := by
  intro notes r notes' hnotes hrun
  have hr := ht notes r notes' hnotes hrun
  cases r with
  | error d => exact hr
  | ok a => exact hH.mono hle hr

theorem since (ht : Adds H mid hi fail t) (hle : lo ≤ mid) : Adds H lo hi fail t :=
  Ensures.of_imp ht fun _ h => hH.mono hle h

theorem refuse {span : Span} (h : Refusable source lo span fail) {cause : Diagnostic.Cause}
    (hcause : cause.ofDeclaration = false) :
    Adds H lo hi fail (Typing.refuse span cause : Typing α) :=
  bind (lift (Checker.report_adds hH h hcause)) fun _ => throw _

theorem orRefuse {span : Span} (h : Refusable source lo span fail) {cause : Diagnostic.Cause}
    (hcause : cause.ofDeclaration = false) {b : Bool} {t : Unit → Typing α}
    (ht : Adds H lo hi fail (t ())) :
    Adds H lo hi fail (if b then Typing.refuse span cause >>= t else t ()) := by
  split
  · exact bind (refuse hH h hcause) fun _ => ht
  · exact ht

omit hH in
theorem conclude (id : Nat) (type : DataType) : Adds H lo lo fail (do
    Checker.annotateType id type
    return type) :=
  bind (lift (Checker.annotateType_adds id type)) fun _ =>
    Ensures.pure (a := Except.ok type) fun _ h => h

omit hH in
/-- An analysis goes on from where its part was left, in either way. -/
theorem attempt_bind {hi' fail' : Mark} {f : Except Diagnostic α → Typing β}
    (ht : Adds H lo hi' fail' t) (hok : ∀ a, Adds H hi' hi fail (f (.ok a)))
    (herror : ∀ d, Adds H fail' hi fail (f (.error d))) : Adds H lo hi fail (t.attempt >>= f) := by
  refine Ensures.bind
    (Ensures.bind ht fun r => Ensures.pure (a := Except.ok r) fun _ h => ⟨r, rfl, h⟩)
    (Q := fun r notes => ∃ r', r = .ok r' ∧ H (reached hi' fail' r') notes.errors) fun r => ?_
  rintro notes b notes' ⟨r', rfl, hnotes⟩ hrun
  cases r' with
  | ok a => exact hok a notes b notes' hnotes hrun
  | error d => exact herror d notes b notes' hnotes hrun

omit hH in
theorem type?_bind {f : Option α → Checker β} (ht : Adds H lo mid fail t)
    (hsome : ∀ a, Checker.Adds H mid hi (f (some a))) (hnone : Checker.Adds H fail hi (f none)) :
    Checker.Adds H lo hi (t.type? >>= f) := by
  intro notes b notes' hnotes hrun
  change Except.bind (Except.bind (t notes) _) _ = _ at hrun
  obtain ⟨p, hp, hrun⟩ := bind_eq_ok.mp hrun
  obtain ⟨⟨r, middle⟩, ht', hp⟩ := bind_eq_ok.mp hp
  have hr := ht notes r middle hnotes ht'
  cases r with
  | error d => cases hp; exact hnone middle b notes' hr hrun
  | ok a => cases hp; exact hsome a middle b notes' hr hrun

end Adds

section

variable (table : SymbolTable) {name : Ident} (hname : Refusable source lo name.span fail)

include hname

theorem resolve_adds : Adds H lo lo fail (resolve table name) := by
  rw [resolve]
  split
  · exact .pure hH _ (le_refl lo)
  · exact .refuse hH hname rfl

theorem resolveVar_adds : Adds H lo lo fail (resolveVar table name) := by
  refine (resolve_adds hH table hname).bind fun symbol => ?_
  cases symbol with
  | var v => exact .pure hH v (le_refl lo)
  | proc s => exact .refuse hH hname rfl
  | mod name span => exact .refuse hH hname rfl

theorem resolveProc_adds : Adds H lo lo fail (resolveProc table name) := by
  refine (resolve_adds hH table hname).bind fun symbol => ?_
  cases symbol with
  | var v => exact .refuse hH hname rfl
  | proc s => exact .pure hH s (le_refl lo)
  | mod name span => exact .refuse hH hname rfl

end

end Typing

open Typing

variable (table : SymbolTable)

mutual

/-- An expression that is given up has no diagnostic behind its own end. -/
theorem Expr.check_adds (e : Expr) {lo hi : Mark} {ts : List Token}
    (h : IsExpr Covers ts e) (hts : Between source lo ts hi) :
    Adds H lo (e.span.ending 0) hi (e.check table) := by
  obtain ⟨hform, hn⟩ := h.form
  have hinside := hn.inside hts.successive
  have hend := (hts.node hn (k := 0) (by decide)).1
  have hrefusable := hts.refusable hn
  cases e with
  | literal node value =>
    rw [Expr.check]
    exact (Adds.conclude node.id value.type).since hH hend
  | paren node inner =>
    cases hform with
    | paren hinner =>
      obtain ⟨us, hus, hinner⟩ := hinner
      have hle := hinner.form.2.ending_le (fun t ht => hinside t (hus.subset ht)) 0
      rw [Expr.check]
      exact ((inner.check_adds hinner (hts.sublist hus)).upTo hH hle).bind fun type =>
        .conclude node.id type
  | not node operand =>
    cases hform with
    | not hoperand =>
      obtain ⟨us, hus, hoperand⟩ := hoperand
      have hle := hoperand.form.2.ending_le (fun t ht => hinside t (hus.subset ht)) 0
      rw [Expr.check]
      exact ((operand.check_adds hoperand (hts.sublist hus)).upTo hH hle).bind fun type =>
        .orRefuse hH hrefusable rfl (.conclude node.id .boolean)
  | designator d => exact d.check_adds h.designator hts
  | call c => exact c.check_adds false hform hn hts
  | comparison node left op right =>
    cases hform with
    | comparison hoperands =>
      cases hoperands with
      | @cons _ us vs _ _ hparts hleft hright =>
        obtain ⟨ws, hws, hright⟩ := hright.within right (.head _)
        have hbehind := hts.behind hparts hleft.form.2
        have hle := hright.form.2.ending_le (fun t ht =>
          hinside t (hparts.subset (List.mem_append_right _ (hws.subset ht)))) 0
        rw [Expr.check]
        exact (left.check_adds hleft
            (hts.sublist ((List.sublist_append_left _ _).trans hparts))).bind fun _ =>
          ((right.check_adds hright (hbehind.sublist hws)).upTo hH hle).bind fun _ =>
            .orRefuse hH hrefusable rfl
              (.orRefuse hH hrefusable rfl (.conclude node.id .boolean))
  | sum node negate first rest =>
    cases hform with
    | @sum us vs _ _ _ _ hparts hfirst hrest =>
      have hus := hts.sublist ((List.sublist_append_left us vs).trans hparts)
      rw [Expr.check]
      exact (first.check_adds hfirst hus).bind fun type =>
        .orRefuse hH (hus.refusable hfirst.form.2) rfl
          ((checkChain_adds type rest hfirst.form.2 hrest (hts.sublist hparts)
            fun t ht => hinside t (hparts.subset ht)).bind fun _ => .conclude node.id type)
  | product node first rest =>
    cases hform with
    | @product us vs _ _ _ hparts hfirst hrest =>
      have hus := hts.sublist ((List.sublist_append_left us vs).trans hparts)
      rw [Expr.check]
      exact (first.check_adds hfirst hus).bind fun type =>
        (checkChain_adds type rest hfirst.form.2 hrest (hts.sublist hparts)
          fun t ht => hinside t (hparts.subset ht)).bind fun _ => .conclude node.id type

theorem Designator.check_adds (d : Designator Expr) {lo hi : Mark}
    {ts : List Token} (h : IsDesignator Covers ts d) (hts : Between source lo ts hi) :
    Adds H lo (d.node.span.ending 0) hi (d.check table) := by
  obtain ⟨node, name, selectors⟩ := d
  cases h with
  | @mk t us _ _ _ hselectors hn =>
    have hus := hts.sublist (List.sublist_cons_self t us)
    rw [Designator.check]
    refine (resolveVar_adds hH table (hts.refusable_token (by simp))).bind fun v => ?_
    refine .bind (.lift (Checker.annotateSymbols_adds node.id _)) fun _ => ?_
    exact (checkSelectors_adds node selectors v.type hselectors hus (hts.refusable hn)
      (hts.node hn (by decide)).1
      fun t ht => hn.inside hts.successive t (List.mem_cons_of_mem _ ht)).bind fun type =>
        .conclude node.id type

theorem Call.check_adds (discards : Bool) (c : Call Expr) {lo hi : Mark}
    {ts : List Token} (h : ExprForm Covers ts (.call c)) (hn : Covers ts c.node)
    (hts : Between source lo ts hi) :
    Adds H lo (c.node.span.ending 0) hi (c.check table discards) := by
  obtain ⟨node, callee, args⟩ := c
  have hend := (hts.node hn (k := 0) (by decide)).1
  have hrefusable := hts.refusable hn
  cases h with
  | call ht hargs =>
    rw [Call.check]
    refine (resolveProc_adds hH table (hts.refusable_token ht)).bind fun s => ?_
    refine .bind (.lift (Checker.annotateSymbols_adds node.id _)) fun _ =>
      .orRefuse hH ⟨hrefusable.sited, hend.trans hrefusable.lower, hrefusable.upper⟩ rfl ?_
    exact (checkArgs_adds s.name 1 args s.params hargs hts hend
      (hn.inside hts.successive)).bind fun _ =>
        .orRefuse hH hrefusable rfl (.conclude node.id s.result)

theorem checkChain_adds (type : DataType) (rest : List (BinOp × Expr))
    {lo hi : Mark} {ts us : List Token} {previous whole : Node} (hprevious : Covers ts previous)
    (h : Chained Covers us rest) (hts : Between source lo (ts ++ us) hi)
    (hinside : ∀ t ∈ ts ++ us, t.span.Inside whole.span) :
    Adds H (previous.span.ending 0) (whole.span.ending 0) hi
      (checkChain table type previous.span rest) := by
  cases rest with
  | nil =>
    rw [checkChain]
    exact .pure hH () (hprevious.ending_le (fun t ht => hinside t (List.mem_append_left _ ht)) 0)
  | cons link rest =>
    cases h with
    | @cons _ vs _ _ hlink hrest =>
      cases hlink with
      | @mk t us op operand _ hoperand =>
        have hcovers := hoperand.form.2
        have hus : Between source lo (ts ++ us) hi :=
          hts.sublist (.append (List.Sublist.refl ts) (.cons t (List.sublist_append_left us vs)))
        have hbehind := hus.behind (List.Sublist.refl _) hprevious
        have hrest' : (us ++ vs).Sublist (ts ++ (t :: us ++ vs)) :=
          (List.sublist_cons_self t _).trans (List.sublist_append_right _ _)
        have hrefusable := hbehind.refusable hcovers
        have hjoined : Refusable source (operand.span.ending 0)
            (previous.span.cover operand.span) hi :=
          ⟨hprevious.joined hcovers hus.row, hrefusable.lower, hrefusable.upper⟩
        rw [checkChain]
        exact (operand.check_adds hoperand hbehind).bind fun _ =>
          .orRefuse hH hrefusable rfl (.orRefuse hH hjoined rfl
            (checkChain_adds type rest hcovers hrest (hts.sublist hrest')
              fun t ht => hinside t (hrest'.subset ht)))

theorem checkSelectors_adds (whole : Node) (selectors : List Expr)
    (type : DataType) {lo hi : Mark} {ts : List Token}
    (h : Repeated (Enclosed .lbracket .rbracket (IsExpr Covers)) ts selectors)
    (hts : Between source lo ts hi)
    (hrefusable : Refusable source (whole.span.ending 0) whole.span hi)
    (hlo : lo ≤ whole.span.ending 0) (hinside : ∀ t ∈ ts, t.span.Inside whole.span) :
    Adds H lo (whole.span.ending 0) hi (checkSelectors table whole.span selectors type) := by
  cases selectors with
  | nil =>
    rw [checkSelectors]
    exact .pure hH type hlo
  | cons selector rest =>
    cases h with
    | @cons _ vs _ _ hselector hrest =>
      cases hselector with
      | @mk opening closing us _ _ hselector _ =>
        -- whatever is found wrong with a selector is found before its closing bracket
        have hus : Between source lo (us ++ closing :: vs) hi := hts.sublist (by simp)
        have hvs := hus.behind_token.weaken (closing.span.ending_lt (k := 0) (by decide)).le
        have hclosing : closing.span.ending 0 ≤ whole.span.ending 0 :=
          (hinside closing (by simp)).ending_le 0
        have helem : Adds H (closing.span.ending 0) (whole.span.ending 0) hi (match type.elem? with
            | some elem => checkSelectors table whole.span rest elem
            | none => refuse whole.span (.notAnArray type)) := by
          cases type.elem? with
          | none => exact (Adds.refuse hH hrefusable rfl).since hH hclosing
          | some elem =>
            exact checkSelectors_adds whole rest elem hrest hvs hrefusable hclosing
              fun t ht => hinside t (by simp [ht])
        have hindex := hus.upTo_token.refusable hselector.form.2
        rw [checkSelectors]
        refine (selector.check_adds hselector hus.upTo_token).attempt_bind
          (fun indexType => ?_) fun d => helem
        dsimp only
        split
        · exact .bind (.lift (Checker.report_adds hH hindex rfl)) fun _ => helem
        · exact helem.since hH (hindex.lower.trans hindex.upper.le)

theorem checkArgs_adds (name : String) (number : Nat) (args : List Expr)
    (params : List Variable) {lo hi : Mark} {ts : List Token} {whole : Node}
    (h : InOrder (IsExpr Covers) ts args) (hts : Between source lo ts hi)
    (hlo : lo ≤ whole.span.ending 0) (hinside : ∀ t ∈ ts, t.span.Inside whole.span) :
    Adds H lo (whole.span.ending 0) hi (checkArgs table name number args params) := by
  cases args with
  | nil => cases params <;> exact .pure hH () hlo
  | cons arg args =>
    cases params with
    | nil => exact .pure hH () hlo
    | cons param params =>
      cases h with
      | @cons _ us vs _ _ hparts harg hargs =>
        have hleft := (List.sublist_append_left us vs).trans hparts
        have hright := (List.sublist_append_right us vs).trans hparts
        have hcovers := harg.form.2
        rw [checkArgs]
        exact (arg.check_adds harg (hts.sublist hleft)).bind fun _ =>
          .orRefuse hH ((hts.sublist hleft).refusable hcovers) rfl
            (checkArgs_adds name (number + 1) args params hargs (hts.behind hparts hcovers)
              (hcovers.ending_le (fun t ht => hinside t (hleft.subset ht)) 0)
              fun t ht => hinside t (hright.subset ht))

end

/-! ## Statements -/

theorem Expr.checkGuard_adds {cond : Expr} (h : IsExpr Covers ts cond)
    (hts : Between source lo ts hi) :
    Checker.Adds H lo hi (cond.checkGuard table) := by
  have hrefusable := hts.refusable h.form.2
  refine (cond.check_adds hH table h hts).type?_bind (fun type => ?_) (.pure hH () (le_refl hi))
  dsimp only
  split
  · exact Checker.report_adds hH hrefusable rfl
  · exact .pure hH () (hrefusable.lower.trans hrefusable.upper.le)

theorem Between.orReport {node : Node} (hts : Between source lo ts hi) (hn : Covers ts node)
    {cause : Diagnostic.Cause} (hcause : cause.ofDeclaration = false) (b : Bool) :
    Adds H (node.span.ending 0) hi hi (do
      if b then Checker.report node.span cause) := by
  split
  · exact .lift (Checker.report_adds hH (hts.refusable hn) hcause)
  · exact .pure hH () (hts.node hn (by decide)).2.le

mutual

/-- A statement has its diagnostics between its ends. -/
theorem Stmt.check_adds (context : BodyContext) (stmt : Stmt) {lo hi : Mark}
    {ts : List Token} (h : IsStmt Covers ts stmt) (hts : Between source lo ts hi) :
    Checker.Adds H lo hi (stmt.check table context) := by
  have hdone : Checker.Adds H hi hi (pure () : Checker Unit) := .pure hH () (le_refl hi)
  cases stmt with
  | assign node target value =>
    cases h with
    | @assign t us vs _ _ _ htarget _ hvalue hn =>
      have hcovers : Covers us target.node := (IsFactor.designator htarget).isExpr.form.2
      have hbehind := hts.behind (List.Sublist.refl _) hcovers
      have hvs := List.sublist_cons_self t vs
      have hle := hvalue.form.2.ending_le (fun u hu => hn.inside hts.successive u (by simp [hu])) 0
      have hassign : Adds H lo hi hi (checkAssign table node target value) :=
        (target.check_adds hH table htarget (hts.sublist (List.sublist_append_left _ _))).bind
          fun _ => ((value.check_adds hH table hvalue (hbehind.sublist hvs)).upTo hH hle).bind
            fun _ => hts.orReport hH hn rfl _
      exact hassign.type?_bind (fun _ => hdone) hdone
  | call node c =>
    have hcall : ExprForm Covers ts (.call c) ∧ Covers ts c.node := by
      cases h with
      | call hc _ => exact (IsFactor.call hc).form
      | name _ _ hm => exact ⟨.call (by simp) .nil, hm⟩
    have hle := (hts.node hcall.2 (k := 0) (by decide)).2.le
    exact (c.check_adds hH table true hcall.1 hcall.2 hts).type?_bind
      (fun _ => .pure hH () hle) hdone
  | ite node branches otherwise =>
    obtain ⟨-, us, vs, hparts, hbranches, hotherwise⟩ := h.ite_form
    obtain ⟨mid, hus, hvs⟩ := hts.split hparts
    rw [Stmt.check.eq_def]
    refine Ensures.bind (checkBranches_adds context branches hbranches hus) fun _ => ?_
    cases otherwise with
    | none => exact Checker.Adds.pure hH () hvs.le
    | some body => exact checkStmts_adds context body hotherwise hvs
  | loop node cond body =>
    cases h with
    | @loop t t₁ t₂ us vs _ _ _ _ hcond _ hbody =>
      have hparts : (us ++ vs).Sublist (t :: (us ++ t₁ :: (vs ++ [t₂]))) :=
        .cons _ (.append (List.Sublist.refl us) (.cons _ (List.sublist_append_left _ _)))
      obtain ⟨mid, hus, hvs⟩ := hts.split hparts
      rw [Stmt.check]
      exact Ensures.bind (cond.checkGuard_adds hH table hcond hus) fun _ =>
        checkStmts_adds _ body hbody.inOrder hvs
  | exit node =>
    cases h with
    | exit _ hn =>
      have hrefusable := hts.refusable hn
      have hlo := (hts.node hn (by decide)).1.trans hrefusable.lower
      rw [Stmt.check]
      split
      · exact Checker.report_adds hH ⟨hrefusable.sited, hlo, hrefusable.upper⟩ rfl
      · exact .pure hH () hts.le
  | ret node value =>
    cases h with
    | @ret t us _ _ _ hvalue hn =>
      have hret : Adds H lo hi hi (checkReturn table context node value) := by
        cases value with
        | none =>
          exact (hts.orReport hH hn rfl _).since hH (hts.node hn (by decide)).1
        | some value =>
          obtain ⟨vs, hvs, hvalue⟩ := hvalue.within value rfl
          have hvs := hvs.trans (List.sublist_cons_self t us)
          have hle := hvalue.form.2.ending_le
            (fun u hu => hn.inside hts.successive u (hvs.subset hu)) 0
          exact ((value.check_adds hH table hvalue (hts.sublist hvs)).upTo hH hle).bind fun _ =>
            hts.orReport hH hn rfl _
      exact hret.type?_bind (fun _ => hdone) hdone

theorem checkBranches_adds (context : BodyContext)
    (branches : List (Branch Stmt)) {lo hi : Mark} {ts : List Token}
    (h : InOrder (IsAnyBranch Covers) ts branches) (hts : Between source lo ts hi) :
    Checker.Adds H lo hi (checkBranches table context branches) := by
  cases branches with
  | nil =>
    rw [checkBranches]
    exact .pure hH () hts.le
  | cons branch rest =>
    cases h with
    | @cons _ us vs _ _ hparts hbranch hrest =>
      obtain ⟨kind, hbranch⟩ := hbranch
      obtain ⟨mid, hus, hvs⟩ := hts.split hparts
      cases hbranch with
      | @mk _ t t₁ xs ys _ cond body _ hcond _ hbody =>
        have hparts : (xs ++ ys).Sublist (t :: (xs ++ t₁ :: ys)) :=
          .cons _ (.append (List.Sublist.refl xs) (List.sublist_cons_self _ _))
        obtain ⟨mid', hxs, hys⟩ := hus.split hparts
        rw [checkBranches]
        exact Ensures.bind (cond.checkGuard_adds hH table hcond hxs) fun _ =>
          .bind (checkStmts_adds context body hbody.inOrder hys) fun _ =>
            checkBranches_adds context rest hrest hvs

theorem checkStmts_adds (context : BodyContext) (body : List Stmt)
    {lo hi : Mark} {ts : List Token} (h : InOrder (IsStmt Covers) ts body)
    (hts : Between source lo ts hi) : Checker.Adds H lo hi (checkStmts table context body) := by
  cases body with
  | nil =>
    rw [checkStmts]
    exact .pure hH () hts.le
  | cons stmt rest =>
    cases h with
    | @cons _ us vs _ _ hparts hstmt hrest =>
      obtain ⟨mid, hus, hvs⟩ := hts.split hparts
      rw [checkStmts]
      exact Ensures.bind (stmt.check_adds context hstmt hus) fun _ =>
        checkStmts_adds context rest hrest hvs

end

end

end Oberlet
