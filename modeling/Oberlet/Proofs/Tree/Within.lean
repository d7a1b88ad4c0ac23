import Oberlet.Proofs.Tree.Accepted

/-!
# Parts of phrases

Whatever a phrase is made of is read from a part of its tokens, and the parts of what stands in a
row follow one another. So what is true of the tokens of a text can be passed on to the parts of its
tree.
-/

namespace Oberlet

/-- Something is read from a part of the tokens. -/
def Within {α : Type} (P : List Token → α → Prop) (ts : List Token) (x : α) : Prop :=
  ∃ us, us.Sublist ts ∧ P us x

/-- Things are read from parts of the tokens, each from a part behind those of the things before
it. -/
inductive InOrder {α : Type} (P : List Token → α → Prop) : List Token → List α → Prop
  | nil {ts : List Token} : InOrder P ts []
  | cons {ts us vs : List Token} {x : α} {xs : List α} : (us ++ vs).Sublist ts → P us x →
      InOrder P vs xs → InOrder P ts (x :: xs)

section

variable {α : Type} {P Q : List Token → α → Prop} {ts us : List Token} {x : α} {xs ys : List α}
  {kind left right : Token.Kind} {option : Option α}

theorem Within.mono (h : Within P us x) (hus : us.Sublist ts) : Within P ts x := by
  obtain ⟨vs, hvs, hx⟩ := h
  exact ⟨vs, hvs.trans hus, hx⟩

theorem Optional.within (h : Optional P ts option) :
    ∀ x ∈ option, Within P ts x := by
  cases h with
  | none => simp
  | some hx =>
    rintro _ ⟨⟩
    exact ⟨ts, List.Sublist.refl _, hx⟩

theorem After.within (h : After kind P ts x) : Within P ts x := by
  cases h with
  | mk _ hx => exact ⟨_, List.sublist_cons_self _ _, hx⟩

theorem Before.within (h : Before kind P ts x) : Within P ts x := by
  cases h with
  | mk hx _ => exact ⟨_, List.sublist_append_left _ _, hx⟩

theorem Enclosed.within (h : Enclosed left right P ts x) : Within P ts x := by
  cases h with
  | mk _ hx _ => exact ⟨_, .cons _ (List.sublist_append_left _ _), hx⟩

namespace InOrder

theorem within (h : InOrder P ts xs) : ∀ x ∈ xs, Within P ts x := by
  induction h with
  | nil => simp
  | @cons ts us vs x xs hsublist hx _ ih =>
    refine List.forall_mem_cons.mpr
      ⟨⟨us, (List.sublist_append_left _ _).trans hsublist, hx⟩, fun y hy => ?_⟩
    exact (ih y hy).mono ((List.sublist_append_right _ _).trans hsublist)

theorem mono (h : InOrder P us xs) (hus : us.Sublist ts) : InOrder P ts xs := by
  cases h with
  | nil => exact .nil
  | cons hsublist hx hxs => exact .cons (hsublist.trans hus) hx hxs

theorem imp (h : InOrder P ts xs) (himp : ∀ {us x}, P us x → Within Q us x) : InOrder Q ts xs := by
  induction h with
  | nil => exact .nil
  | cons hsublist hx _ ih =>
    obtain ⟨ws, hws, hx⟩ := himp hx
    exact .cons ((hws.append (List.Sublist.refl _)).trans hsublist) hx ih

theorem single (h : Within P ts x) : InOrder P ts [x] := by
  obtain ⟨us, hus, hx⟩ := h
  have hsublist : (us ++ []).Sublist ts := by simpa using hus
  exact .cons hsublist hx .nil

theorem append (hxs : InOrder P ts xs) (hys : InOrder P us ys) :
    InOrder P (ts ++ us) (xs ++ ys) := by
  induction hxs with
  | nil => exact hys.mono (List.sublist_append_right _ _)
  | @cons ts vs ws x xs hsublist hx _ ih =>
    refine .cons ?_ hx ih
    rw [← List.append_assoc]
    exact hsublist.append (List.Sublist.refl _)

theorem flatMap_sublist {β : Type} {f : α → List β} {g : Token → β}
    (hf : ∀ {us x}, P us x → (f x).Sublist (us.map g)) (h : InOrder P ts xs) :
    (xs.flatMap f).Sublist (ts.map g) := by
  induction h with
  | nil => exact List.nil_sublist _
  | cons hsublist hx _ ih =>
    rw [List.flatMap_cons]
    exact ((hf hx).append ih).trans (List.map_append ▸ hsublist.map g)

end InOrder

theorem Repeated.inOrder (h : Repeated P ts xs) : InOrder P ts xs := by
  induction h with
  | nil => exact .nil
  | cons hx _ ih => exact .cons (List.Sublist.refl _) hx ih

theorem Listed.inOrder (h : Listed kind P ts xs) : InOrder P ts xs := by
  cases h with
  | nil => exact .nil
  | cons hx hxs => exact .cons (List.Sublist.refl _) hx (hxs.inOrder.imp After.within)

theorem Optional.inOrder (h : Optional P ts option) :
    InOrder P ts option.toList := by
  cases option with
  | none => exact .nil
  | some x => exact .single (h.within x rfl)

theorem Optional.row {S : List Token → List α → Prop} {option : Option (List α)}
    (h : Optional S ts option) (hS : ∀ {us xs}, S us xs → InOrder P us xs) :
    InOrder P ts (option.getD []) := by
  cases h with
  | none => exact .nil
  | some hxs => exact hS hxs

end

/-! ## Expressions -/

/-- The operands of a chain behind the first, whatever the operators are. -/
def Chained (R : List Token → Node → Prop) : List Token → List (BinOp × Expr) → Prop :=
  Repeated (ChainLink (fun _ _ => True) (IsExpr R))

/-- What an expression is made of, without regard to precedence. -/
inductive ExprForm (R : List Token → Node → Prop) (ts : List Token) : Expr → Prop
  | literal {n : Node} {value : Literal} : ExprForm R ts (.literal n value)
  | paren {n : Node} {inner : Expr} : Within (IsExpr R) ts inner → ExprForm R ts (.paren n inner)
  | not {n : Node} {operand : Expr} : Within (IsExpr R) ts operand →
      ExprForm R ts (.not n operand)
  | designator {t : Token} {n : Node} {selectors : List Expr} : t ∈ ts →
      InOrder (IsExpr R) ts selectors → ExprForm R ts (.designator ⟨n, t.ident, selectors⟩)
  | call {t : Token} {n : Node} {args : List Expr} : t ∈ ts →
      InOrder (IsExpr R) ts args → ExprForm R ts (.call ⟨n, t.ident, args⟩)
  | comparison {n : Node} {left right : Expr} {op : RelOp} :
      InOrder (IsExpr R) ts [left, right] → ExprForm R ts (.comparison n left op right)
  | sum {us vs : List Token} {n : Node} {negate : Bool} {first : Expr}
    {rest : List (BinOp × Expr)} :
      (us ++ vs).Sublist ts → IsExpr R us first → Chained R vs rest →
      ExprForm R ts (.sum n negate first rest)
  | product {us vs : List Token} {n : Node} {first : Expr} {rest : List (BinOp × Expr)} :
      (us ++ vs).Sublist ts → IsExpr R us first → Chained R vs rest →
      ExprForm R ts (.product n first rest)

section

variable {R : List Token → Node → Prop} {ts us : List Token} {e : Expr}

theorem IsFactor.isExpr (h : IsFactor R ts e) : IsExpr R ts e := .single (.single (.single h))

theorem IsProduct.isExpr (h : IsProduct R ts e) : IsExpr R ts e := .single (.single h)

theorem Repeated.chained {Sign : Token.Kind → BinOp → Prop} {P : List Token → Expr → Prop}
    {rest : List (BinOp × Expr)} (h : Repeated (ChainLink Sign P) us rest)
    (hP : ∀ {ts e}, P ts e → IsExpr R ts e) : Chained R us rest := by
  induction h with
  | nil => exact .nil
  | cons hfirst _ ih =>
    cases hfirst with
    | mk _ hoperand => exact .cons (.mk trivial (hP hoperand)) ih

theorem IsDesignator.form {d : Designator Expr} (h : IsDesignator R ts d) :
    ExprForm R ts (.designator d) := by
  cases h with
  | mk _ hselectors _ =>
    refine .designator (by simp) (.mono ?_ (List.sublist_cons_self _ _))
    exact hselectors.inOrder.imp Enclosed.within

theorem IsCall.form {c : Call Expr} (h : IsCall R ts c) : ExprForm R ts (.call c) := by
  cases h with
  | mk _ hargs _ =>
    obtain ⟨us, hus, hlisted⟩ := hargs.within
    exact .call (by simp) (hlisted.inOrder.mono (hus.trans (List.sublist_cons_self _ _)))

theorem IsFactor.form (h : IsFactor R ts e) : ExprForm R ts e ∧ R ts e.node := by
  cases h with
  | literal _ hn => exact ⟨.literal, hn⟩
  | designator hd =>
    refine ⟨hd.form, ?_⟩
    cases hd with
    | mk _ _ hn => exact hn
  | call hc =>
    refine ⟨hc.form, ?_⟩
    cases hc with
    | mk _ _ hn => exact hn
  | paren henclosed hn => exact ⟨.paren henclosed.within, hn⟩
  | not _ hoperand hn => exact ⟨.not ⟨_, List.sublist_cons_self _ _, hoperand.isExpr⟩, hn⟩

theorem IsProduct.form (h : IsProduct R ts e) : ExprForm R ts e ∧ R ts e.node := by
  cases h with
  | single h => exact h.form
  | chain hfirst hrest _ hn =>
    exact ⟨.product (List.Sublist.refl _) hfirst.isExpr (hrest.chained IsFactor.isExpr), hn⟩

theorem IsSum.form (h : IsSum R ts e) : ExprForm R ts e ∧ R ts e.node := by
  cases h with
  | single h => exact h.form
  | chain hfirst hrest _ hn =>
    exact ⟨.sum (List.Sublist.refl _) hfirst.isExpr (hrest.chained IsProduct.isExpr), hn⟩
  | negated _ hfirst hrest hn =>
    exact ⟨.sum (List.sublist_cons_self _ _) hfirst.isExpr (hrest.chained IsProduct.isExpr), hn⟩

theorem IsExpr.designator {d : Designator Expr} (h : IsExpr R ts (.designator d)) :
    IsDesignator R ts d := by
  cases h with
  | single h =>
    cases h with
    | single h =>
      cases h with
      | single h =>
        cases h with
        | designator hd => exact hd

/-- An expression has one of the forms, and the node of its phrase. -/
theorem IsExpr.form (h : IsExpr R ts e) : ExprForm R ts e ∧ R ts e.node := by
  cases h with
  | single h => exact h.form
  | @comparison t ts us _ _ _ _ hleft _ hright hn =>
    refine ⟨.comparison (.cons (List.Sublist.refl _) (.single hleft) (.single ?_)), hn⟩
    exact ⟨us, List.sublist_cons_self _ _, .single hright⟩

end

/-! ## Statements -/

section

variable {R : List Token → Node → Prop} {ts : List Token}

/-- Statements stand in the text in their order. -/
theorem IsStmts.inOrder {ts : List Token} {body : List Stmt} (h : IsStmts R ts body) :
    InOrder (IsStmt R) ts body := by
  cases h with
  | last hfirst => exact hfirst.inOrder
  | @cons t ts us first rest hfirst _ hrest =>
    exact hfirst.inOrder.append ((IsStmts.inOrder hrest).mono (List.sublist_cons_self t _))
termination_by ts.length
decreasing_by simp; omega

theorem Optional.stmts {kind : Token.Kind} {body : Option (List Stmt)}
    (h : Optional (After kind (IsStmts R)) ts body) : InOrder (IsStmt R) ts (body.getD []) := by
  refine h.row fun hbody => ?_
  obtain ⟨us, hus, hstmts⟩ := hbody.within
  exact hstmts.inOrder.mono hus

/-- A branch of an IF statement, whether it is the first or not. -/
def IsAnyBranch (R : List Token → Node → Prop) (ts : List Token) (b : Branch Stmt) : Prop :=
  ∃ kind, IsBranch R kind ts b

theorem IsStmt.ite_form {n : Node} {branches : List (Branch Stmt)} {otherwise : Option (List Stmt)}
    (h : IsStmt R ts (.ite n branches otherwise)) :
    R ts n ∧ ∃ us vs, (us ++ vs).Sublist ts ∧ InOrder (IsAnyBranch R) us branches ∧
      InOrder (IsStmt R) vs (otherwise.getD []) := by
  cases h with
  | @ite t ts us vs _ _ _ _ hfirst hrest hotherwise _ hn =>
    refine ⟨hn, ts ++ us, vs, by simp, .cons (List.Sublist.refl _) ⟨_, hfirst⟩ ?_, hotherwise.stmts⟩
    exact hrest.inOrder.imp fun hbranch => ⟨_, List.Sublist.refl _, _, hbranch⟩

end

/-! ## Declarations -/

section

variable {R : List Token → Node → Prop} {ts : List Token} {decl : VarDecl} {heading : Heading}
  {source : List Char} {p : Program}

theorem IsVarDecl.names_inOrder (h : IsVarDecl R ts decl) :
    InOrder IsIdent ts decl.names := by
  cases h with
  | @mk t ts us vs _ first rest _ hfirst hrest =>
    refine .cons (.append (List.Sublist.refl ts) (List.sublist_append_left us _)) hfirst ?_
    exact hrest.inOrder.imp After.within

theorem IsVarDecl.tokens (h : IsVarDecl R ts decl) :
    ∀ x ∈ decl.names, ∃ t ∈ ts, t.kind = .ident ∧ x = t.ident := by
  intro x hx
  obtain ⟨us, hus, hident⟩ := h.names_inOrder.within x hx
  cases hident with
  | mk ht => exact ⟨_, hus.subset (by simp), ht, rfl⟩

theorem Optional.vars {vars : Option (List VarDecl)} (h : Optional (IsVarBlock R) ts vars) :
    InOrder (IsVarDecl R) ts (vars.getD []) := by
  refine h.row fun hblock => ?_
  obtain ⟨us, hus, hdecls⟩ := hblock.within
  exact (hdecls.inOrder.imp Before.within).mono hus

theorem IsHeading.form (h : IsHeading R ts heading) :
    ∃ t name us, ts = t :: name :: us ∧ heading.name = name.ident ∧
      InOrder (IsVarDecl R) us heading.params := by
  cases h with
  | @mk t name ts us _ _ _ _ _ hparams =>
    refine ⟨t, name, ts ++ us, rfl, rfl, InOrder.mono (hparams.row fun henclosed => ?_)
      (List.sublist_append_left _ _)⟩
    obtain ⟨vs, hvs, hdecls⟩ := henclosed.within
    exact hdecls.inOrder.mono hvs

theorem IsHeading.params_inOrder (h : IsHeading R ts heading) :
    InOrder (IsVarDecl R) ts heading.params := by
  obtain ⟨t, name, us, rfl, -, hparams⟩ := h.form
  exact hparams.mono (.cons _ (List.sublist_cons_self _ _))

/-- A subprogram, whatever is behind it. -/
def IsAnySubprogram (R : List Token → Node → Prop) (ts : List Token) (decl : SubprogramDecl) :
    Prop :=
  ∃ next, IsSubprogram R next ts decl

theorem IsSubprograms.inOrder {next : Token.Kind} {decls : List SubprogramDecl}
    (h : IsSubprograms R next ts decls) : InOrder (IsAnySubprogram R) ts decls := by
  induction h with
  | nil => exact .nil
  | cons hfirst _ ih => exact .cons (List.Sublist.refl _) ⟨_, hfirst⟩ ih

/-! ## Modules -/

theorem Program.phrase_of_parse (hR : Parser.Spanned R) (h : Program.parse source = .ok p) :
    (TokenStream.ofSource source).fault = none ∧
      ∃ ts eof, (TokenStream.ofSource source).tokens = ts ++ [eof] ∧ eof.kind = .eof ∧
        IsProgram R ts p :=
  TokenStream.phrase_of_ofTokens hR (TokenStream.ofSource_delimited source) h

theorem Token.Writable.spelled {t : Token} (h : t.Writable) (hkind : t.kind = .ident) :
    Spelled .ident t.value.toList :=
  (h.name hkind).resolve_left (by simp)

/-- All names of a module are spelled as identifiers are. -/
theorem Program.names_spelled (h : Program.parse source = .ok p) :
    Spelled .ident p.name.name.toList ∧
      (∀ decl ∈ p.vars, ∀ x ∈ decl.names, Spelled .ident x.name.toList) ∧
      ∀ decl ∈ p.subprograms, Spelled .ident decl.heading.name.name.toList ∧
        ∀ group ∈ decl.heading.params, ∀ x ∈ group.names, Spelled .ident x.name.toList := by
  obtain ⟨-, ts, eof, hts, -, hprogram⟩ := Program.phrase_of_parse (R := AnyNode)
    (fun _ _ _ _ _ _ => trivial) h
  have hwritable : ∀ t ∈ ts, t.Writable := fun t ht =>
    TokenStream.writable_ofSource source t (hts ▸ List.mem_append_left _ ht)
  cases hprogram with
  | @mk t name t₁ t₂ closing t₃ ts us vs _ vars _ _ _ _ hname _ hvars hsubprograms =>
    refine ⟨(hwritable name (by simp)).spelled hname, fun decl hdecl x hx => ?_,
      fun decl hdecl => ?_⟩
    · obtain ⟨ws, hws, hvar⟩ := hvars.vars.within decl hdecl
      obtain ⟨u, hu, hkind, rfl⟩ := hvar.tokens x hx
      exact (hwritable u (by simp [hws.subset hu])).spelled hkind
    · obtain ⟨ws, hws, _, hsubprogram⟩ := hsubprograms.inOrder.within decl hdecl
      have hspelled {heading : Heading} {front : List Token}
          (hheading : IsHeading AnyNode front heading) (hfront : front ⊆ ws) :
            Spelled .ident heading.name.name.toList ∧
              ∀ group ∈ heading.params, ∀ x ∈ group.names, Spelled .ident x.name.toList := by
        have hall : ∀ u ∈ front, u.Writable := fun u hu =>
          hwritable u (by simp [hws.subset (hfront hu)])
        refine ⟨(hheading.name_valid hall).resolve_left (by simp), fun group hgroup x hx => ?_⟩
        obtain ⟨us, hus, hgroup⟩ := hheading.params_inOrder.within group hgroup
        obtain ⟨u, hu, hkind, rfl⟩ := hgroup.tokens x hx
        exact (hall u (hus.subset hu)).spelled hkind
      cases hsubprogram with
      | forward hheading => exact hspelled hheading (List.subset_append_left _ _)
      | definition hheading => exact hspelled hheading (List.subset_append_left _ _)

end

end Oberlet
