import Oberlet.Proofs.Token.Order
import Oberlet.Proofs.Tree.Located
import Oberlet.Proofs.Tree.Nodes

/-!
# How the spans of a tree lie

Every node that is read has the span of its phrase. The phrases of the children of a node are parts
of its own phrase, one behind the other. `NodeTree.Laid` is what is left of the grammar when only
the nodes are regarded.
-/

namespace Oberlet

/-- The node has the span of the phrase, and the trees below it are laid out in the phrase, one
behind the other. -/
inductive NodeTree.Laid : List Token → NodeTree → Prop
  | mk {ts : List Token} {node : Node} {children : List NodeTree} : Covers ts node →
      InOrder NodeTree.Laid ts children → NodeTree.Laid ts ⟨node, children⟩

section

variable {α β : Type} {P : List Token → α → Prop} {Q : List Token → β → Prop} {ts : List Token}
  {xs : List α}

theorem InOrder.map {f : α → β} (h : InOrder P ts xs) (hf : ∀ {us x}, P us x → Q us (f x)) :
    InOrder Q ts (xs.map f) := by
  induction h with
  | nil => exact .nil
  | cons hsublist hx _ ih => exact .cons hsublist (hf hx) ih

theorem InOrder.pairwise (h : InOrder P ts xs) :
    xs.Pairwise fun x y => ∃ us vs, (us ++ vs).Sublist ts ∧ P us x ∧ P vs y := by
  induction h with
  | nil => exact .nil
  | @cons ts us vs x xs hsublist hx hxs ih =>
    refine List.pairwise_cons.mpr ⟨fun y hy => ?_, ih.imp ?_⟩
    · obtain ⟨ws, hws, hy⟩ := hxs.within y hy
      exact ⟨us, ws, ((List.Sublist.refl _).append hws).trans hsublist, hx, hy⟩
    · rintro y z ⟨vs', ws, hparts, hy, hz⟩
      exact ⟨vs', ws, hparts.trans ((List.sublist_append_right _ _).trans hsublist), hy, hz⟩

end

/-! ## Spans and phrases -/

section

variable {ts us : List Token} {n m : Node} {t root child : NodeTree}

theorem Covers.inside (h : Covers ts n) (hts : Successive ts) :
    ∀ t ∈ ts, t.span.Inside n.span := by
  obtain ⟨first, last, hfirst, hlast, hspan⟩ := h
  intro t ht
  rw [hspan]
  constructor
  · obtain ⟨rest, rfl⟩ := List.head?_eq_some_iff.mp hfirst
    rcases List.mem_cons.mp ht with rfl | ht
    · exact le_refl _
    · have hbefore : first.span.Before t.span := (List.pairwise_cons.mp hts.pairs).1 t ht
      exact (hts.each first (by simp)).le.trans hbefore
  · obtain ⟨front, rfl⟩ := List.getLast?_eq_some_iff.mp hlast
    rcases List.mem_append.mp ht with ht | ht
    · have hbefore : t.span.Before last.span :=
        (List.pairwise_append.mp hts.pairs).2.2 t ht last (by simp)
      exact hbefore.trans (hts.each last (by simp)).le
    · rw [List.mem_singleton.mp ht]
      exact le_refl _

theorem Covers.inside_of_sublist (h : Covers ts n) (h' : Covers us m) (hus : us.Sublist ts)
    (hts : Successive ts) : m.span.Inside n.span := by
  obtain ⟨first, last, hfirst, hlast, hspan⟩ := h'
  rw [hspan]
  exact ⟨(h.inside hts first (hus.subset (List.mem_of_head? hfirst))).start,
    (h.inside hts last (hus.subset (List.mem_of_getLast? hlast))).stop⟩

theorem Covers.before (h : Covers ts n) (h' : Covers us m) (hts : Successive (ts ++ us)) :
    n.span.Before m.span := by
  obtain ⟨first, last, -, hlast, hspan⟩ := h
  obtain ⟨first', last', hfirst', -, hspan'⟩ := h'
  rw [hspan, hspan']
  exact (List.pairwise_append.mp hts.pairs).2.2 last (List.mem_of_getLast? hlast) first'
    (List.mem_of_head? hfirst')

theorem Covers.nonempty (h : Covers ts n) (hts : Successive ts) : n.span.start < n.span.stop := by
  obtain ⟨first, last, hfirst, hlast, hspan⟩ := id h
  have hmem := List.mem_of_head? hfirst
  have hstop := (h.inside hts first hmem).stop
  rw [hspan] at hstop ⊢
  exact (hts.each first hmem).trans_le hstop

namespace NodeTree.Laid

theorem covers (h : t.Laid ts) : Covers ts t.node := by
  cases h with
  | mk hn _ => exact hn

theorem children (h : t.Laid ts) : InOrder NodeTree.Laid ts t.children := by
  cases h with
  | mk _ hchildren => exact hchildren

theorem reaches (h : root.Laid ts) (ht : root.Reaches t) : Within NodeTree.Laid ts t := by
  induction ht with
  | root => exact ⟨ts, List.Sublist.refl _, h⟩
  | child _ hchild ih =>
    obtain ⟨us, hus, hlaid⟩ := ih
    exact (hlaid.children.within _ hchild).mono hus

/-- A node lies inside of the one above it. -/
theorem inside (h : t.Laid ts) (hts : Successive ts) (hchild : child ∈ t.children) :
    child.node.span.Inside t.node.span := by
  obtain ⟨us, hus, hlaid⟩ := h.children.within child hchild
  exact h.covers.inside_of_sublist hlaid.covers hus hts

/-- Siblings lie one behind the other. -/
theorem ordered (h : t.Laid ts) (hts : Successive ts) :
    t.children.Pairwise fun c d => c.node.span.Before d.node.span := by
  refine h.children.pairwise.imp ?_
  rintro c d ⟨us, vs, hsublist, hc, hd⟩
  exact hc.covers.before hd.covers (hts.sublist hsublist)

end NodeTree.Laid

end

/-! ## Expressions -/

mutual

theorem Expr.laid (e : Expr) {ts : List Token} (h : IsExpr Covers ts e) : e.tree.Laid ts := by
  obtain ⟨hform, hn⟩ := h.form
  cases e with
  | literal node value => exact .mk hn .nil
  | paren node inner =>
    cases hform with
    | paren hinner =>
      obtain ⟨us, hus, hinner⟩ := hinner
      exact .mk hn (.single ⟨us, hus, inner.laid hinner⟩)
  | not node operand =>
    cases hform with
    | not hoperand =>
      obtain ⟨us, hus, hoperand⟩ := hoperand
      exact .mk hn (.single ⟨us, hus, operand.laid hoperand⟩)
  | designator d =>
    obtain ⟨node, name, selectors⟩ := d
    cases hform with
    | designator _ hselectors => exact .mk hn (laid_all selectors hselectors)
  | call c =>
    obtain ⟨node, callee, args⟩ := c
    cases hform with
    | call _ hargs => exact .mk hn (laid_all args hargs)
  | comparison node left op right =>
    cases hform with
    | comparison hoperands =>
      cases hoperands with
      | cons hsublist hleft hright =>
        obtain ⟨us, hus, hright⟩ := hright.within right (by simp)
        exact .mk hn (.cons hsublist (left.laid hleft) (.single ⟨us, hus, right.laid hright⟩))
  | sum node negate first rest =>
    cases hform with
    | sum hsublist hfirst hrest =>
      exact .mk hn (.cons hsublist (first.laid hfirst) (laid_chain rest hrest))
  | product node first rest =>
    cases hform with
    | product hsublist hfirst hrest =>
      exact .mk hn (.cons hsublist (first.laid hfirst) (laid_chain rest hrest))

theorem laid_all (es : List Expr) {ts : List Token} (h : InOrder (IsExpr Covers) ts es) :
    InOrder NodeTree.Laid ts (treesOfAll es) := by
  cases es with
  | nil => exact .nil
  | cons e rest =>
    cases h with
    | cons hsublist he hrest => exact .cons hsublist (e.laid he) (laid_all rest hrest)

theorem laid_chain (rest : List (BinOp × Expr)) {ts : List Token} (h : Chained Covers ts rest) :
    InOrder NodeTree.Laid ts (treesOfChain rest) := by
  cases rest with
  | nil => exact .nil
  | cons link rest =>
    cases h with
    | cons hlink hrest =>
      cases hlink with
      | mk _ hoperand =>
        exact .cons (List.sublist_cons_self _ _) (Expr.laid _ hoperand) (laid_chain rest hrest)

end

theorem IsDesignator.laid {ts : List Token} {d : Designator Expr} (h : IsDesignator Covers ts d) :
    (Expr.designator d).tree.Laid ts :=
  Expr.laid _ (IsFactor.designator h).isExpr

theorem IsCall.laid {ts : List Token} {c : Call Expr} (h : IsCall Covers ts c) :
    (Expr.call c).tree.Laid ts :=
  Expr.laid _ (IsFactor.call h).isExpr

/-! ## Statements -/

mutual

theorem Stmt.laid (stmt : Stmt) {ts : List Token} (h : IsStmt Covers ts stmt) :
    stmt.tree.Laid ts := by
  cases stmt with
  | assign node target value =>
    cases h with
    | assign htarget _ hvalue hn =>
      refine .mk hn (.cons (List.Sublist.refl _) htarget.laid (.single ?_))
      exact ⟨_, List.sublist_cons_self _ _, value.laid hvalue⟩
  | call node c =>
    cases h with
    | call hc hn => exact .mk hn (.single ⟨_, List.Sublist.refl _, hc.laid⟩)
    | name _ hn hm => exact .mk hn (.single ⟨_, List.Sublist.refl _, .mk hm .nil⟩)
  | ite node branches otherwise =>
    have hform := h.ite_form
    cases otherwise with
    | none =>
      obtain ⟨hn, us, vs, hsublist, hbranches, -⟩ := hform
      refine .mk hn ((laid_branches branches hbranches).mono ?_)
      exact (List.sublist_append_left _ _).trans hsublist
    | some body =>
      obtain ⟨hn, us, vs, hsublist, hbranches, hotherwise⟩ := hform
      have hbody := laid_body body hotherwise
      exact .mk hn (((laid_branches branches hbranches).append hbody).mono hsublist)
  | loop node cond body =>
    cases h with
    | loop _ hcond _ hbody _ hn =>
      refine .mk hn (.cons (List.sublist_cons_self _ _) (cond.laid hcond) ?_)
      exact (laid_body body hbody.inOrder).mono (.cons _ (List.sublist_append_left _ _))
  | exit node =>
    cases h with
    | exit _ hn => exact .mk hn .nil
  | ret node value =>
    cases h with
    | ret _ hvalue hn =>
      cases hvalue with
      | none => exact .mk hn .nil
      | some hvalue =>
        exact .mk hn (.single ⟨_, List.sublist_cons_self _ _, Expr.laid _ hvalue⟩)

theorem laid_branches (branches : List (Branch Stmt)) {ts : List Token}
    (h : InOrder (IsAnyBranch Covers) ts branches) :
    InOrder NodeTree.Laid ts (treesOfBranches branches) := by
  cases branches with
  | nil => exact .nil
  | cons branch rest =>
    cases h with
    | cons hsublist hbranch hrest =>
      refine .cons hsublist ?_ (laid_branches rest hrest)
      obtain ⟨node, cond, body⟩ := branch
      obtain ⟨kind, hbranch⟩ := hbranch
      cases hbranch with
      | mk _ hcond _ hbody hn =>
        refine .mk hn (.cons (List.sublist_cons_self _ _) (cond.laid hcond) ?_)
        exact (laid_body body hbody.inOrder).mono (List.sublist_cons_self _ _)

theorem laid_body (body : List Stmt) {ts : List Token} (h : InOrder (IsStmt Covers) ts body) :
    InOrder NodeTree.Laid ts (treesOfBody body) := by
  cases body with
  | nil => exact .nil
  | cons stmt rest =>
    cases h with
    | cons hsublist hstmt hrest => exact .cons hsublist (stmt.laid hstmt) (laid_body rest hrest)

end

/-! ## Declarations -/

section

variable {ts : List Token}

theorem IsVarDecl.laid {decl : VarDecl} (h : IsVarDecl Covers ts decl) : decl.tree.Laid ts := by
  cases h with
  | mk _ _ _ _ hn => exact .mk hn .nil

theorem IsHeading.laid {heading : Heading} (h : IsHeading Covers ts heading) :
    heading.tree.Laid ts := by
  have hparams := h.params_inOrder
  cases h with
  | mk _ _ _ _ hn => exact .mk hn (hparams.map IsVarDecl.laid)

theorem IsAnySubprogram.laid {decl : SubprogramDecl} (h : IsAnySubprogram Covers ts decl) :
    decl.tree.Laid ts := by
  obtain ⟨next, h⟩ := h
  cases h with
  | forward hheading _ _ _ hn =>
    exact .mk hn (.single ⟨_, List.sublist_append_left _ _, hheading.laid⟩)
  | definition hheading _ hvars _ hbody _ _ _ _ hn =>
    refine .mk hn (.cons (List.Sublist.refl _) hheading.laid ?_)
    refine ((hvars.vars.map IsVarDecl.laid).append ?_).mono (List.sublist_cons_self _ _)
    exact (laid_body _ hbody.inOrder).mono (.cons _ (List.sublist_append_left _ _))

theorem IsProgram.laid {p : Program} (h : IsProgram Covers ts p) : p.tree.Laid ts := by
  cases h with
  | mk _ _ _ hvars hsubprograms hbody _ _ _ _ hn =>
    have hdecls := (hvars.vars.map IsVarDecl.laid).append
      ((hsubprograms.inOrder.map IsAnySubprogram.laid).append (laid_body _ hbody.stmts))
    refine .mk hn (hdecls.mono (.cons _ (.cons _ (.cons _ ?_))))
    simp

end

/-! ## Modules -/

/-- How the spans of a module lie. -/
structure Program.SpansNest (source : List Char) (p : Program) : Prop where
  /-- The tokens of the text are the phrase of the module, and every node has the span from the
  first to the last token of its phrase. -/
  covers : ∃ ts eof, (TokenStream.ofSource source).tokens = ts ++ [eof] ∧ eof.kind = .eof ∧
    IsProgram Covers ts p
  /-- No span is empty. -/
  nonempty : ∀ t, p.tree.Reaches t → t.node.span.start < t.node.span.stop
  /-- The spans of the children of a node lie inside its own. -/
  inside : ∀ t, p.tree.Reaches t → ∀ child ∈ t.children, child.node.span.Inside t.node.span
  /-- The spans of the children of a node are in the order of the text and do not overlap. -/
  ordered : ∀ t, p.tree.Reaches t → t.children.Pairwise fun c d => c.node.span.Before d.node.span

/-- The spans of a module that was read are those of its phrases, so they are nested and ordered. -/
theorem parsed_spans_nest {source : List Char} {p : Program} (h : Program.parse source = .ok p) :
    p.SpansNest source := by
  obtain ⟨hfault, ts, eof, htokens, heof, hprogram⟩ := Program.phrase_of_parse covers_spanned h
  have hts := TokenStream.successive hfault htokens
  have hlaid (t : NodeTree) (ht : p.tree.Reaches t) : ∃ us, t.Laid us ∧ Successive us := by
    obtain ⟨us, hus, hlaid⟩ := hprogram.laid.reaches ht
    exact ⟨us, hlaid, hts.sublist hus⟩
  refine ⟨⟨ts, eof, htokens, heof, hprogram⟩, fun t ht => ?_, fun t ht child hchild => ?_,
    fun t ht => ?_⟩
  all_goals obtain ⟨us, hlaid, hus⟩ := hlaid t ht
  · exact hlaid.covers.nonempty hus
  · exact hlaid.inside hus hchild
  · exact hlaid.ordered hus

/-- A module with a comment inside of a statement, and with statements on several lines. -/
def unevenText : List Char :=
  ("MODULE M; PROCEDURE P(a, b: REAL);\nBEGIN RETURN -a (* and *)\n\t* b END P;" ++
    "\nBEGIN P( 1.5,\n 2.5 ) ;; IF x[1][2] < 3 THEN P ELSIF (TRUE) THEN\nELSE EXIT END END M.").toList

theorem unevenText_spans : ∃ p, Program.parse unevenText = .ok p ∧
    p.SpansNest unevenText := by
  have hok : (Program.parse unevenText).toOption.isSome = true := by decide +kernel
  obtain ⟨p, hp⟩ := Option.isSome_iff_exists.mp hok
  have hparse := eq_ok_of_toOption hp
  exact ⟨p, hparse, parsed_spans_nest hparse⟩

end Oberlet
