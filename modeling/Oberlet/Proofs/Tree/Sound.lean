import Oberlet.Proofs.Tree.Reads

/-!
# What is read follows the grammar

Every parser of the grammar reads the phrases of its production, as `Reads` says. The bound on the
depth of calls may be larger in the other text.
-/

namespace Oberlet

namespace Parser

variable {α : Type} {kind : Token.Kind}

/-! ## Expressions -/

theorem relOp?_eq_some_iff {op : RelOp} :
    relOp? kind = some op ↔ RelSign kind op := by
  constructor
  · intro h
    unfold relOp? at h
    split at h <;> cases h <;> constructor
  · rintro (_ | _) <;> rfl

variable {op : BinOp}

theorem sumOp?_eq_some_iff : sumOp? kind = some op ↔ SumSign kind op := by
  constructor
  · intro h
    unfold sumOp? at h
    split at h <;> cases h <;> constructor
  · rintro (_ | _) <;> rfl

theorem productOp?_eq_some_iff :
    productOp? kind = some op ↔ ProductSign kind op := by
  constructor
  · intro h
    unfold productOp? at h
    split at h <;> cases h <;> constructor
  · rintro (_ | _) <;> rfl

theorem Reads.literalValue {depth weight : Nat} {Good : List Token → Token → α → Prop}
    {Phrase : List Token → Prop} {start next : Token} {used : List Token}
    {f f' : Literal → Parser α}
    (hbegun : Completable Phrase used) (hf : ∀ value, IsLiteral next value →
      Reads depth weight Good Phrase start used next (f value) (f' value)) :
    Reads depth weight Good Phrase start used next (Parser.literalValue >>= f)
      (Parser.literalValue >>= f') := by
  unfold Parser.literalValue
  simp only [bind_assoc]
  refine .token ?_
  split
  · rename_i hkind
    split
    · rename_i hle
      exact hf _ (.integer hkind (Nat.lt_succ_of_le hle))
    · exact .failed (.integer hkind)
  · rename_i hkind
    split
    · rename_i value hvalue
      have hrange : Decimal.realValue next.value.toList < Binary64.overflow := by
        refine not_le.mp fun h => ?_
        rw [Binary64.ofLiteral?_eq_none_iff.mpr h] at hvalue
        cases hvalue
      refine hf _ ?_
      have := IsLiteral.real hkind hrange
      rwa [hvalue] at this
    · exact .failed (.real hkind)
  · rename_i hkind
    exact hf _ (.string hkind)
  · rename_i hkind
    exact hf _ (.yes hkind)
  · rename_i hkind
    exact hf _ (.no hkind)
  · exact .rejected hbegun

theorem Reads.more {P : List Token → α → Prop} {depth weight : Nat} {start next : Token}
    {used : List Token} {a : α} {p p' : Parser (List α)} (hfirst : P used a) (hused : used ≠ [])
    (hrest : ReadsTree depth weight (Repeated P) next [] next p p') :
    ReadsTree (depth + 1) weight (Repeated P) start used next (do return a :: (← p))
      (do return a :: (← p')) := by
  have hlength := List.length_pos_of_ne_nil hused
  exact .bind hrest (by omega) (.done fun ts ⟨rest, hrest⟩ => ⟨_, .cons hfirst hrest⟩)
    fun ts _ rest hrest _ _ => .pure (.cons hfirst hrest)

section

variable {R : List Token → Node → Prop} (hR : Spanned R)

include hR

-- In a mutual block, the linter does not see what the calls of other theorems use.
set_option linter.unusedSectionVars false

theorem completable_factor : Completable (Derivable (IsFactor R)) [] :=
  .words [.fixed .trueKw] (by simp +decide) fun _ ht _ =>
    ⟨_, .literal (.yes ht) (hR.nodeOf (by simp))⟩

theorem literal_reads (depth weight : Nat) (t : Token) :
    ReadsTree depth weight (IsFactor R) t [] t literal literal := by
  refine .token (.literalValue (completable_factor hR) fun value hvalue => ?_)
  refine .advance hvalue.kind_ne_eof fun t₁ => .node hR (by simp) fun n hn => .pure ?_
  exact .literal hvalue hn

variable {ts : List Token} {depth extra : Nat}

theorem derivable_call {name opening closing : Token} {args : List Expr}
    (hname : name.kind = .ident) (hopening : opening.kind = .lparen)
    (hargs : Listed .comma (IsExpr R) ts args) (hclosing : closing.kind = .rparen) :
    Derivable (IsCall R) ([name] ++ [opening] ++ ts ++ [closing]) := by
  have hcall := IsCall.mk hname (.mk hopening hargs hclosing) (hR.nodeOf (by simp))
  exact ⟨_, by simpa using hcall⟩

mutual

/-- What is read as an expression is one. -/
theorem expr_reads {depth : Nat} (t : Token) :
    ReadsTree depth 5 (IsExpr R) t [] t (expr depth) (expr (extra + depth)) := by
  match depth with
  | 0 => exact .overrun (by decide)
  | depth + 1 =>
    refine .token (.bind (sum_reads t) (by grind) (.done fun ts ⟨e, he⟩ => ⟨e, .single he⟩)
      fun ts t₁ left hleft _ _ => .kind ?_)
    split
    · rename_i op hop
      refine .advance (by rintro h; rw [h] at hop; cases hop) fun t₂ => ?_
      have hop := relOp?_eq_some_iff.mp hop
      refine .bind (sum_reads t₂) (by grind) (.done fun us ⟨e, he⟩ => ?_)
        fun us t₃ right hright _ _ => .node hR (by simp) fun n hn => .pure ?_
      · exact ⟨_, by simpa using IsExpr.comparison hleft hop he (hR.nodeOf (by simp))⟩
      · simpa using IsExpr.comparison hleft hop hright (by simpa using hn)
    · exact .pure (by simpa using .single hleft)

theorem sum_reads {depth : Nat} (t : Token) :
    ReadsTree depth 4 (IsSum R) t [] t (sum depth) (sum (extra + depth)) := by
  match depth with
  | 0 => exact .overrun (by decide)
  | depth + 1 =>
    refine .token (.kind ?_)
    dsimp only
    split
    · rename_i hminus
      have hkind : t.kind = .minus := by simpa using hminus
      have hnegated {ts us : List Token} {first : Expr} {rest : List (BinOp × Expr)}
          (hfirst : IsProduct R ts first)
          (hrest : Repeated (ChainLink SumSign (IsProduct R)) us rest) :
          Derivable (IsSum R) ([] ++ [t] ++ ts ++ us) :=
        ⟨_, by simpa using IsSum.negated hkind hfirst hrest (hR.nodeOf (by simp))⟩
      refine .advance (by simp [hkind]) fun t₁ => ?_
      refine .bind (product_reads t₁) (by grind)
        (.done fun ts ⟨e, he⟩ => by simpa using hnegated he .nil) fun ts t₂ first hfirst _ _ => ?_
      refine .bind (sumRest_reads t₂) (by grind)
        (.done fun us ⟨rest, hrest⟩ => hnegated hfirst hrest) fun us t₃ rest hrest _ _ => ?_
      simp only [hminus, Bool.not_true, Bool.false_and, Bool.false_eq_true, if_false]
      refine .node hR (by simp) fun n hn => .pure ?_
      simpa using IsSum.negated hkind hfirst hrest (by simpa using hn)
    · rename_i hminus
      refine .bind (product_reads t) (by grind) (.done fun ts ⟨e, he⟩ => ⟨e, .single he⟩)
        fun ts t₂ first hfirst _ _ => ?_
      refine .bind (sumRest_reads t₂) (by grind)
        (.done fun us ⟨rest, hrest⟩ => ?_) fun us t₃ rest hrest _ _ => ?_
      · by_cases hne : rest = []
        · subst hne
          cases hrest
          exact ⟨first, by simpa using .single hfirst⟩
        · exact ⟨_, .chain hfirst hrest hne (hR.nodeOf (by simp [hrest.operand_ne_nil hne]))⟩
      · simp only [hminus, Bool.not_false, Bool.true_and]
        split
        · rename_i hempty
          obtain rfl := List.isEmpty_iff.mp hempty
          cases hrest
          exact .pure (by simpa using .single hfirst)
        · rename_i hempty
          have hne : rest ≠ [] := fun h => hempty (List.isEmpty_iff.mpr h)
          refine .node hR (by simp [hrest.operand_ne_nil hne]) fun n hn => .pure ?_
          exact .chain hfirst hrest hne hn

theorem sumRest_reads {depth : Nat} (t : Token) :
    ReadsTree depth 1 (Repeated (ChainLink SumSign (IsProduct R))) t [] t (sumRest depth)
      (sumRest (extra + depth)) := by
  match depth with
  | 0 => exact .overrun (by decide)
  | depth + 1 =>
    refine .kind ?_
    split
    · rename_i op hop
      refine .advance (by rintro h; rw [h] at hop; cases hop) fun t₁ => ?_
      have hop := sumOp?_eq_some_iff.mp hop
      refine .bind (product_reads t₁) (by grind)
        (.done fun ts ⟨e, he⟩ => ⟨_, .one (.mk hop he)⟩)
        fun ts t₂ operand hoperand _ _ => ?_
      exact .more (.mk hop hoperand) (by simp) (sumRest_reads t₂)
    · exact .pure .nil

theorem product_reads {depth : Nat} (t : Token) :
    ReadsTree depth 3 (IsProduct R) t [] t (product depth) (product (extra + depth)) := by
  match depth with
  | 0 => exact .overrun (by decide)
  | depth + 1 =>
    refine .token (.bind (factor_reads t) (by grind)
      (.done fun ts ⟨e, he⟩ => ⟨e, .single he⟩) fun ts t₁ first hfirst _ _ => ?_)
    refine .bind (productRest_reads t₁) (by grind)
      (.done fun us ⟨rest, hrest⟩ => ?_) fun us t₂ rest hrest _ _ => ?_
    · by_cases hne : rest = []
      · subst hne
        cases hrest
        exact ⟨first, by simpa using .single hfirst⟩
      · exact ⟨_, .chain hfirst hrest hne (hR.nodeOf (by simp [hrest.operand_ne_nil hne]))⟩
    · split
      · rename_i hempty
        obtain rfl := List.isEmpty_iff.mp hempty
        cases hrest
        exact .pure (by simpa using .single hfirst)
      · rename_i hempty
        have hne : rest ≠ [] := fun h => hempty (List.isEmpty_iff.mpr h)
        refine .node hR (by simp [hrest.operand_ne_nil hne]) fun n hn => .pure ?_
        exact .chain hfirst hrest hne hn

theorem productRest_reads {depth : Nat} (t : Token) :
    ReadsTree depth 1 (Repeated (ChainLink ProductSign (IsFactor R))) t [] t (productRest depth)
      (productRest (extra + depth)) := by
  match depth with
  | 0 => exact .overrun (by decide)
  | depth + 1 =>
    refine .kind ?_
    split
    · rename_i op hop
      refine .advance (by rintro h; rw [h] at hop; cases hop) fun t₁ => ?_
      have hop := productOp?_eq_some_iff.mp hop
      refine .bind (factor_reads t₁) (by grind)
        (.done fun ts ⟨e, he⟩ => ⟨_, .one (.mk hop he)⟩)
        fun ts t₂ operand hoperand _ _ => ?_
      exact .more (.mk hop hoperand) (by simp) (productRest_reads t₂)
    · exact .pure .nil

theorem factor_reads {depth : Nat} (t : Token) :
    ReadsTree depth 2 (IsFactor R) t [] t (factor depth) (factor (extra + depth)) := by
  match depth with
  | 0 => exact .overrun (by decide)
  | depth + 1 =>
    refine .token (.kind ?_)
    split
    · rename_i hkind
      refine .advance (by simp [hkind]) fun t₁ => ?_
      refine .bind (factor_reads t₁) (by grind)
        (.done fun ts ⟨e, he⟩ => ⟨_, .not hkind he (hR.nodeOf (by simp))⟩)
        fun ts t₂ operand hoperand _ _ => .node hR (by simp) fun n hn => .pure ?_
      exact .not hkind hoperand hn
    · rename_i hkind
      refine .advance (by simp [hkind]) fun t₁ => ?_
      refine .bind (expr_reads t₁) (by grind)
        (.single .rparen rfl fun ts t' ⟨e, he⟩ ht' => ?_) fun ts t₂ inner hinner _ hbegun => ?_
      · exact ⟨_, .paren (.mk hkind he ht') (hR.nodeOf (by simp))⟩
      · refine .want (by decide) hbegun fun hclosing _ t₃ => .node hR (by simp) fun n hn => .pure ?_
        exact .paren (.mk hkind hinner hclosing) hn
    · refine .ident (completable_factor hR) fun hkind _ t₁ => .kind ?_
      split
      · exact .extend (call_reads hkind t₁) (by grind) (fun _ _ c hc => ⟨c, hc⟩)
          (.done fun ts ⟨c, hc⟩ => ⟨_, .call hc⟩) fun ts t₂ c hc _ => .pure (.call hc)
      · exact .extend (designator_reads hkind t₁) (by grind) (fun _ _ d hd => ⟨d, hd.1⟩)
          (.done fun ts ⟨d, hd⟩ => ⟨_, .designator hd⟩)
          fun ts t₂ d hd _ => .pure (.designator hd.1)
    · exact literal_reads hR (depth + 1) 2 t

theorem call_reads {depth : Nat} {name : Token}
    (hname : name.kind = .ident) (t : Token) :
    ReadsTree depth 1 (IsCall R) name [name] t (call depth name.ident)
      (call (extra + depth) name.ident) := by
  match depth with
  | 0 => exact .overrun (by decide)
  | depth + 1 =>
    have hopened : Completable (Derivable (IsCall R)) [name] :=
      .words [.fixed .lparen, .fixed .rparen] (by simp +decide)
        fun _ ht₁ _ _ ht₂ _ => derivable_call hR hname ht₁ .nil ht₂
    refine .want (by decide) hopened fun hopening _ t₁ => ?_
    have rest {ts : List Token} {args : List Expr} (hargs : Listed .comma (IsExpr R) ts args)
        (t₂ : Token) : ReadsTree (depth + 1) 1 (IsCall R) name ([name] ++ [t] ++ ts) t₂
          (do
            let _ ← want .rparen
            return Call.mk (← node name.span) name.ident args)
          (do
            let _ ← want .rparen
            return Call.mk (← node name.span) name.ident args) := by
      refine .want (by decide) (.words [.fixed .rparen] (by simp +decide) fun _ ht₂ _ =>
        derivable_call hR hname hopening hargs ht₂) fun hclosing _ t₃ => ?_
      refine .node hR (by simp) fun n hn => .pure ?_
      simpa using IsCall.mk hname (.mk hopening hargs hclosing) (by simpa using hn)
    refine .kind ?_
    split
    · exact rest .nil t₁
    · refine .bind (expr_reads t₁) (by grind)
        (.single .rparen rfl fun ts t' ⟨e, he⟩ ht' => ?_) fun ts t₂ first hfirst _ _ => ?_
      · simpa using derivable_call hR hname hopening (.cons he .nil) ht'
      · refine .bind (argsRest_reads t₂) (by grind)
          (.single .rparen rfl fun us t' ⟨args, hargs⟩ ht' => ?_) fun us t₃ args hargs _ _ => ?_
        · simpa using derivable_call hR hname hopening (.cons hfirst hargs) ht'
        · rw [List.append_assoc]
          exact rest (.cons hfirst hargs) t₃

theorem argsRest_reads {depth : Nat} (t : Token) :
    ReadsTree depth 1 (Repeated (After .comma (IsExpr R))) t [] t (argsRest depth)
      (argsRest (extra + depth)) := by
  match depth with
  | 0 => exact .overrun (by decide)
  | depth + 1 =>
    refine .kind ?_
    split
    · rename_i hcomma
      have hkind : t.kind = .comma := by simpa using hcomma
      refine .advance (by simp [hkind]) fun t₁ => ?_
      refine .bind (expr_reads t₁) (by grind)
        (.done fun ts ⟨e, he⟩ => ⟨_, .one (.mk hkind he)⟩)
        fun ts t₂ arg harg _ _ => ?_
      exact .more (.mk hkind harg) (by simp) (argsRest_reads t₂)
    · exact .pure .nil

theorem designator_reads {depth : Nat} {name : Token}
    (hname : name.kind = .ident) (t : Token) :
    Reads depth 1 (fun ts _ d => IsDesignator R ts d ∧ d.name = name.ident)
      (Derivable (IsDesignator R)) name [name] t (designator depth name.ident)
      (designator (extra + depth) name.ident) := by
  match depth with
  | 0 => exact .overrun (by decide)
  | depth + 1 =>
    refine .bind (selectors_reads t) (by grind)
      (.done fun ts ⟨es, hes⟩ => ⟨_, .mk hname hes (hR.nodeOf (by simp))⟩)
      fun ts t₁ selectors hselectors _ _ => .node hR (by simp) fun n hn => .pure ?_
    exact ⟨.mk hname hselectors hn, rfl⟩

theorem selectors_reads {depth : Nat} (t : Token) :
    ReadsTree depth 1 (Repeated (Enclosed .lbracket .rbracket (IsExpr R))) t [] t
      (selectors depth) (selectors (extra + depth)) := by
  match depth with
  | 0 => exact .overrun (by decide)
  | depth + 1 =>
    refine .kind ?_
    split
    · rename_i hbracket
      have hkind : t.kind = .lbracket := by simpa using hbracket
      refine .advance (by simp [hkind]) fun t₁ => ?_
      refine .bind (expr_reads t₁) (by grind)
        (.single .rbracket rfl fun ts t' ⟨e, he⟩ ht' => ?_) fun ts t₂ index hindex _ hbegun => ?_
      · exact ⟨_, .one (.mk hkind he ht')⟩
      · refine .want (by decide) hbegun fun hclosing _ t₃ => ?_
        exact .more (.mk hkind hindex hclosing) (by simp) (selectors_reads t₃)
    · exact .pure .nil

end

/-! ## Statements -/

theorem completable_stmt : Completable (Derivable (IsStmt R)) [] :=
  .words [.fixed .exitKw] (by simp +decide) fun _ ht _ => ⟨_, .exit ht (hR.nodeOf (by simp))⟩

theorem designator_leads :
    LeadsTo (Derivable (IsDesignator R)) (Derivable (IsStmt R)) [] := by
  refine .words [.fixed .assign, .fixed .trueKw] (by simp +decide) ?_
  intro ts ⟨target, htarget⟩ t ht _ t₁ ht₁ _
  have hvalue : IsExpr R [t₁] _ :=
    .single (.single (.single (.literal (.yes ht₁) (hR.nodeOf (by simp)))))
  exact ⟨_, .assign htarget ht hvalue (hR.nodeOf (by simp))⟩

theorem namedStmt_reads (t : Token) :
    ReadsTree depth 1 (IsStmt R) t [] t (namedStmt depth) (namedStmt (extra + depth)) := by
  refine .token (.ident (completable_stmt hR) fun hkind _ t₁ => .kind ?_)
  split
  · exact .extend (call_reads hR hkind t₁) (Nat.le_refl _) (fun _ _ c hc => ⟨c, hc⟩)
      (.done fun ts ⟨c, hc⟩ => ⟨_, .call hc (hR.nodeOf (by simpa using hc.ne_nil))⟩)
      fun ts t₂ c hc _ => .node hR hc.ne_nil fun n hn => .pure (.call hc hn)
  · refine .extend (designator_reads hR hkind t₁) (Nat.le_refl _) (fun _ _ d hd => ⟨d, hd.1⟩)
      (designator_leads hR) ?_
    rintro ts t₂ target ⟨htarget, hname⟩ hbegun
    refine .kind ?_
    split
    · rename_i hassign
      have hkind₂ : t₂.kind = .assign := by simpa using hassign
      refine .advance (by simp [hkind₂]) fun t₃ => ?_
      refine .bind (expr_reads hR t₃) (by grind) (.done fun us ⟨value, hvalue⟩ => ?_)
        fun us t₄ value hvalue _ _ => .node hR (by simp) fun n hn => .pure ?_
      · exact ⟨_, by simpa using IsStmt.assign htarget hkind₂ hvalue (hR.nodeOf (by simp))⟩
      · simpa using IsStmt.assign htarget hkind₂ hvalue (by simpa using hn)
    · split
      · rename_i hempty
        cases htarget with
        | mk hkind' hselectors _ =>
          obtain rfl := List.isEmpty_iff.mp hempty
          cases hselectors
          refine .node hR (by simp) fun n hn => .node hR (by simp) fun m hm => .pure ?_
          rw [← hname]
          exact .name hkind' hn hm
      · exact .reject hbegun

mutual

theorem stmts_reads {depth : Nat} (t : Token) :
    ReadsTree depth 3 (IsStmts R) t [] t (stmts depth) (stmts (extra + depth)) := by
  match depth with
  | 0 => exact .overrun (by decide)
  | depth + 1 =>
    have rest {ts : List Token} {first : Option Stmt} (hfirst : Optional (IsStmt R) ts first)
        (t₁ : Token) : ReadsTree (depth + 1) 3 (IsStmts R) t ts t₁
          (do
            if (← Parser.kind) == .semi then
              advance
              return first.toList ++ (← stmts depth)
            else return first.toList)
          (do
            if (← Parser.kind) == .semi then
              advance
              return first.toList ++ (← stmts (extra + depth))
            else return first.toList) := by
      refine .kind ?_
      split
      · rename_i hsemi
        have hkind : t₁.kind = .semi := by simpa using hsemi
        refine .advance (by simp [hkind]) fun t₂ => ?_
        refine .bind (stmts_reads t₂) (by grind) (.done fun us ⟨others, hothers⟩ => ?_)
          fun us t₃ others hothers _ _ => .pure ?_
        · exact ⟨_, by simpa using IsStmts.cons hfirst hkind hothers⟩
        · simpa using IsStmts.cons hfirst hkind hothers
      · exact .pure (.last hfirst)
    refine .kind ?_
    split
    · exact rest .none t
    · refine .bind (stmt_reads t) (by grind)
        (.done fun ts ⟨first, hfirst⟩ => ⟨_, .last (.some hfirst)⟩) fun ts t₁ first hfirst _ _ => ?_
      exact rest (.some hfirst) t₁

theorem stmt_reads {depth : Nat} (t : Token) :
    ReadsTree depth 2 (IsStmt R) t [] t (stmt depth) (stmt (extra + depth)) := by
  match depth with
  | 0 => exact .overrun (by decide)
  | depth + 1 =>
    refine .token (.kind ?_)
    split
    · rename_i hkind
      have hite {ts us vs : List Token} {t' : Token} {first : Branch Stmt}
          {others : List (Branch Stmt)} {otherwise : Option (List Stmt)}
          (hfirst : IsBranch R .ifKw ts first) (hothers : Repeated (IsBranch R .elsifKw) us others)
          (hotherwise : Optional (After .elseKw (IsStmts R)) vs otherwise)
          (ht' : t'.kind = .endKw) : Derivable (IsStmt R) (ts ++ (us ++ (vs ++ [t']))) :=
        ⟨_, .ite hfirst hothers hotherwise ht' (hR.nodeOf (by simp))⟩
      refine .bind (branch_reads hkind (by decide)) (by grind)
        (.single .endKw rfl fun ts t' ⟨first, hfirst⟩ ht' => by
          simpa using hite hfirst .nil .none ht')
        fun ts t₁ first hfirst _ _ => ?_
      have hlength := hfirst.length_pos
      refine .bind (branches_reads t₁) (by grind)
        (.single .endKw rfl fun us t' ⟨others, hothers⟩ ht' => by
          simpa using hite hfirst hothers .none ht')
        fun us t₂ others hothers _ _ => ?_
      have rest {vs : List Token} {otherwise : Option (List Stmt)}
          (hotherwise : Optional (After .elseKw (IsStmts R)) vs otherwise) (t₃ : Token) :
          ReadsTree (depth + 1) 2 (IsStmt R) t ([] ++ ts ++ us ++ vs) t₃
            (do
              let _ ← want .endKw
              return Stmt.ite (← node t.span) (first :: others) otherwise)
            (do
              let _ ← want .endKw
              return Stmt.ite (← node t.span) (first :: others) otherwise) := by
        refine .want (by decide) (.words [.fixed .endKw] (by simp +decide) fun _ ht' _ => by
          simpa using hite hfirst hothers hotherwise ht') fun hclosing _ t₄ => ?_
        refine .node hR (by simp) fun n hn => .pure ?_
        simpa using IsStmt.ite hfirst hothers hotherwise hclosing (by simpa using hn)
      refine .kind ?_
      split
      · rename_i helse
        have hkind₂ : t₂.kind = .elseKw := by simpa using helse
        refine .advance (by simp [hkind₂]) fun t₃ => ?_
        refine .bind (stmts_reads t₃) (by grind)
          (.single .endKw rfl fun vs t' ⟨body, hbody⟩ ht' => by
            simpa using hite hfirst hothers (.some (.mk hkind₂ hbody)) ht')
          fun vs t₄ body hbody _ _ => ?_
        rw [List.append_assoc]
        exact .known (rest (.some (.mk hkind₂ hbody)) t₄)
      · refine .known ?_
        rw [← List.append_nil ([] ++ ts ++ us)]
        exact rest .none t₂
    · rename_i hkind
      have hloop {ts us : List Token} {t₁ t₂ : Token} {cond : Expr} {body : List Stmt}
          (hcond : IsExpr R ts cond) (ht₁ : t₁.kind = .doKw) (hbody : IsStmts R us body)
          (ht₂ : t₂.kind = .endKw) : Derivable (IsStmt R) (t :: (ts ++ t₁ :: (us ++ [t₂]))) :=
        ⟨_, .loop hkind hcond ht₁ hbody ht₂ (hR.nodeOf (by simp))⟩
      refine .advance (by simp [hkind]) fun t₁ => ?_
      refine .bind (expr_reads hR t₁) (by grind)
        (.words [.fixed .doKw, .fixed .endKw] (by simp +decide)
          fun ts ⟨cond, hcond⟩ _ hs₁ _ _ hs₂ _ => by simpa using hloop hcond hs₁ (.last .none) hs₂)
        fun ts t₂ cond hcond _ hbegun => .want (by decide) hbegun fun hdo _ t₃ => ?_
      refine .bind (stmts_reads t₃) (by grind)
        (.single .endKw rfl fun us t' ⟨body, hbody⟩ ht' => by simpa using hloop hcond hdo hbody ht')
        fun us t₄ body hbody _ hbegun => .want (by decide) hbegun fun hend _ t₅ => ?_
      refine .node hR (by simp) fun n hn => .pure ?_
      simpa using IsStmt.loop hkind hcond hdo hbody hend (by simpa using hn)
    · rename_i hkind
      refine .advance (by simp [hkind]) fun t₁ => .node hR (by simp) fun n hn => .pure ?_
      exact .exit hkind hn
    · rename_i hkind
      refine .advance (by simp [hkind]) fun t₁ => .kind ?_
      split
      · refine .known (.node hR (by simp) fun n hn => .pure ?_)
        exact .ret hkind .none hn
      · refine .bind (expr_reads hR t₁) (by grind)
          (.done fun ts ⟨value, hvalue⟩ => ⟨_, .ret hkind (.some hvalue) (hR.nodeOf (by simp))⟩)
          fun ts t₂ value hvalue _ _ => .known (.node hR (by simp) fun n hn => .pure ?_)
        exact .ret hkind (.some hvalue) hn
    · exact (namedStmt_reads hR t).mono (by grind)
    · exact .reject (completable_stmt hR)

theorem branches_reads {depth : Nat} (t : Token) :
    ReadsTree depth 2 (Repeated (IsBranch R .elsifKw)) t [] t (branches depth)
      (branches (extra + depth)) := by
  match depth with
  | 0 => exact .overrun (by decide)
  | depth + 1 =>
    refine .kind ?_
    split
    · rename_i helsif
      have hkind : t.kind = .elsifKw := by simpa using helsif
      refine .bind (branch_reads hkind (by decide)) (by grind)
        (.done fun ts ⟨first, hfirst⟩ => ⟨_, .one hfirst⟩)
        fun ts t₁ first hfirst _ _ => ?_
      exact .more hfirst (List.ne_nil_of_length_pos hfirst.length_pos) (branches_reads t₁)
    · exact .pure .nil

theorem branch_reads {depth : Nat} {t : Token}
    {kind : Token.Kind} (hkind : t.kind = kind) (hne : kind ≠ .eof) :
    ReadsTree depth 1 (IsBranch R kind) t [] t (branch depth) (branch (extra + depth)) := by
  match depth with
  | 0 => exact .overrun (by decide)
  | depth + 1 =>
    have hbranch {ts us : List Token} {t₁ : Token} {cond : Expr} {body : List Stmt}
        (hcond : IsExpr R ts cond) (ht₁ : t₁.kind = .thenKw) (hbody : IsStmts R us body) :
        Derivable (IsBranch R kind) (t :: (ts ++ t₁ :: us)) :=
      ⟨_, .mk hkind hcond ht₁ hbody (hR.nodeOf (by simp))⟩
    refine .token (.advance (hkind ▸ hne) fun t₁ => ?_)
    refine .bind (expr_reads hR t₁) (by grind)
      (.single .thenKw rfl fun ts t' ⟨cond, hcond⟩ ht' => by
        simpa using hbranch hcond ht' (.last .none))
      fun ts t₂ cond hcond _ hbegun => .want (by decide) hbegun fun hthen _ t₃ => ?_
    refine .bind (stmts_reads t₃) (by grind)
      (.done fun us ⟨body, hbody⟩ => by simpa using hbranch hcond hthen hbody)
      fun us t₄ body hbody _ _ => .node hR (by simp) fun n hn => .pure ?_
    simpa using IsBranch.mk hkind hcond hthen hbody (by simpa using hn)

end

/-! ## Declarations -/

omit hR in
theorem derivable_oneArray {t size t₁ : Token} {elem : DataType} (ht : t.kind = .arrayKw)
    (hsize : size.kind = .intLit) (hone : size.value.toList = ['1']) (ht₁ : t₁.kind = .ofKw)
    (helem : IsType ts elem) : Derivable IsType (t :: size :: t₁ :: ts) := by
  have hvalue : Decimal.ofDigits size.value.toList = 1 := by rw [hone]; rfl
  exact ⟨_, .array ht hsize hvalue.ge (by rw [hvalue]; decide) ht₁ helem⟩

omit hR in
theorem dataType_reads {depth : Nat} (t : Token) :
    ReadsTree depth 1 IsType t [] t (dataType depth) (dataType (extra + depth)) := by
  match depth with
  | 0 => exact .overrun (by decide)
  | depth + 1 =>
    refine .kind ?_
    split
    · rename_i hkind
      exact .advance (by simp [hkind]) fun t₁ => .pure (.integer hkind)
    · rename_i hkind
      exact .advance (by simp [hkind]) fun t₁ => .pure (.real hkind)
    · rename_i hkind
      exact .advance (by simp [hkind]) fun t₁ => .pure (.string hkind)
    · rename_i hkind
      exact .advance (by simp [hkind]) fun t₁ => .pure (.boolean hkind)
    · rename_i hkind
      have hsized : Completable (Derivable IsType) [t] :=
        .words [.one, .fixed .ofKw, .fixed .integerKw] (by simp +decide)
          fun _ hsize hone _ hof _ _ helem _ =>
            derivable_oneArray hkind hsize hone hof (.integer helem)
      refine .advance (by simp [hkind]) fun t₁ => .wantFit (by decide) hsized fun hsize _ => ?_
      dsimp only
      split
      · exact .inl ⟨_, .size hsize, fun _ => rfl, fun _ => rfl⟩
      · refine .inr fun t₂ => ?_
        rename_i hrange
        simp only [Bool.or_eq_true, beq_iff_eq, decide_eq_true_eq, not_or, not_lt] at hrange
        have harray {t₂ : Token} {ts : List Token} {elem : DataType} (hof : t₂.kind = .ofKw)
            (helem : IsType ts elem) : IsType (t :: t₁ :: t₂ :: ts) _ :=
          .array hkind hsize (Nat.one_le_iff_ne_zero.mpr hrange.1) (Nat.lt_succ_of_le hrange.2) hof
            helem
        refine .want (by decide) (.words [.fixed .ofKw, .fixed .integerKw] (by simp +decide)
          fun _ hof _ _ helem _ => ⟨_, harray hof (.integer helem)⟩) fun hof _ t₃ => ?_
        exact .bind (dataType_reads t₃) (by grind)
          (.done fun ts ⟨elem, helem⟩ => ⟨_, harray hof helem⟩)
          fun ts t₄ elem helem _ _ => .pure (harray hof helem)
    · exact .reject (.words [.fixed .integerKw] (by simp +decide)
        fun _ ht _ => ⟨_, .integer ht⟩)

omit hR in
theorem namesRest_reads {depth : Nat} (t : Token) :
    ReadsTree depth 1 (Repeated (After .comma IsIdent)) t [] t (namesRest depth)
      (namesRest (extra + depth)) := by
  match depth with
  | 0 => exact .overrun (by decide)
  | depth + 1 =>
    refine .kind ?_
    split
    · rename_i hcomma
      have hkind : t.kind = .comma := by simpa using hcomma
      refine .advance (by simp [hkind]) fun t₁ => .ident (.words [.someName] (by simp)
        fun _ hname _ => ⟨_, .one (.mk hkind (.mk hname))⟩) fun hname _ t₂ => ?_
      exact .more (.mk hkind (.mk hname)) (by simp) (namesRest_reads t₂)
    · exact .pure .nil

theorem varDecl_reads (t : Token) :
    ReadsTree depth 1 (IsVarDecl R) t [] t (varDecl depth) (varDecl (extra + depth)) := by
  have hdecl {t t₁ : Token} {ts us : List Token} {names : List Ident} {type : DataType}
      (hname : t.kind = .ident) (hnames : Repeated (After .comma IsIdent) ts names)
      (hcolon : t₁.kind = .colon) (htype : IsType us type) :
      Derivable (IsVarDecl R) ([t] ++ (ts ++ t₁ :: us)) :=
    ⟨_, .mk (.mk hname) hnames hcolon htype (hR.nodeOf (by simp))⟩
  refine .token (.ident (.words [.someName, .fixed .colon, .fixed .integerKw] (by simp +decide)
    fun _ hname _ _ hcolon _ _ htype _ => hdecl hname .nil hcolon (.integer htype))
    fun hname _ t₁ => ?_)
  refine .bind (namesRest_reads t₁) (by grind)
    (.words [.fixed .colon, .fixed .integerKw] (by simp +decide)
      fun ts ⟨names, hnames⟩ _ hcolon _ _ htype _ => hdecl hname hnames hcolon (.integer htype))
    fun ts t₂ names hnames _ hbegun => .want (by decide) hbegun fun hcolon _ t₃ => ?_
  refine .bind (dataType_reads t₃) (by grind)
    (.done fun us ⟨type, htype⟩ => by simpa using hdecl hname hnames hcolon htype)
    fun us t₄ type htype _ _ => .node hR (by simp) fun n hn => .pure ?_
  simpa using IsVarDecl.mk (.mk hname) hnames hcolon htype (by simpa using hn)

theorem varDecls_reads {depth : Nat} (t : Token) :
    ReadsTree depth 2 (Repeated (Before .semi (IsVarDecl R))) t [] t (varDecls depth)
      (varDecls (extra + depth)) := by
  match depth with
  | 0 => exact .overrun (by decide)
  | depth + 1 =>
    refine .kind ?_
    split
    · refine .bind (varDecl_reads hR t) (by grind)
        (.single .semi rfl fun ts t₁ ⟨d, hd⟩ hsemi => ?_)
        fun ts t₁ d hd _ hbegun => .want (by decide) hbegun fun hsemi _ t₂ => ?_
      · exact ⟨_, .one (.mk hd hsemi)⟩
      · exact .more (.mk hd hsemi) (by simp) (varDecls_reads t₂)
    · exact .pure .nil

/-- The phrases of a block of variables, which may be missing. -/
def VarBlock (R : List Token → Node → Prop) (ts : List Token) (decls : List VarDecl) : Prop :=
  ∃ block, Optional (IsVarBlock R) ts block ∧ decls = block.getD []

theorem varBlock_reads (t : Token) :
    ReadsTree depth 1 (VarBlock R) t [] t (varBlock depth) (varBlock (extra + depth)) := by
  refine .kind ?_
  split
  · rename_i hvar
    have hkind : t.kind = .varKw := by simpa using hvar
    have hblock {ts : List Token} {decls : List VarDecl}
        (hdecls : Repeated (Before .semi (IsVarDecl R)) ts decls) :
        VarBlock R ([] ++ [t] ++ ts) decls :=
      ⟨some decls, .some (.mk hkind hdecls), rfl⟩
    refine .advance (by simp [hkind]) fun t₁ => ?_
    rw [← bind_pure (varDecls depth), ← bind_pure (varDecls (extra + depth))]
    exact .bind (varDecls_reads hR t₁) (by grind)
      (.done fun ts ⟨decls, hdecls⟩ => ⟨decls, hblock hdecls⟩)
      fun ts t₂ decls hdecls _ _ => .pure (hblock hdecls)
  · exact .pure ⟨none, .none, rfl⟩

theorem paramsRest_reads {depth : Nat} (t : Token) :
    ReadsTree depth 1 (Repeated (After .semi (IsVarDecl R))) t [] t (paramsRest depth)
      (paramsRest (extra + depth)) := by
  match depth with
  | 0 => exact .overrun (by decide)
  | depth + 1 =>
    refine .kind ?_
    split
    · rename_i hsemi
      have hkind : t.kind = .semi := by simpa using hsemi
      refine .advance (by simp [hkind]) fun t₁ => ?_
      refine .bind (varDecl_reads hR t₁) (by grind)
        (.done fun ts ⟨group, hgroup⟩ => ⟨_, .one (.mk hkind hgroup)⟩)
        fun ts t₂ group hgroup _ _ => ?_
      exact .more (.mk hkind hgroup) (by simp) (paramsRest_reads t₂)
    · exact .pure .nil

/-- The phrases of a list of parameters, which may be missing. -/
def Params (R : List Token → Node → Prop) (ts : List Token) (groups : List VarDecl) : Prop :=
  ∃ params, Optional (Enclosed .lparen .rparen (Listed .semi (IsVarDecl R))) ts params ∧
    groups = params.getD []

theorem params_reads (t : Token) :
    ReadsTree depth 1 (Params R) t [] t (params depth) (params (extra + depth)) := by
  refine .kind ?_
  split
  · rename_i hparen
    have hkind : t.kind = .lparen := by simpa using hparen
    have hparams {ts : List Token} {t₁ : Token} {groups : List VarDecl}
        (hgroups : Listed .semi (IsVarDecl R) ts groups) (ht₁ : t₁.kind = .rparen) :
        Params R ([t] ++ ts ++ [t₁]) groups :=
      ⟨some groups, .some (by simpa using .mk hkind hgroups ht₁), rfl⟩
    have rest {ts : List Token} {groups : List VarDecl}
        (hgroups : Listed .semi (IsVarDecl R) ts groups) (t₁ : Token) :
        ReadsTree depth 1 (Params R) t ([t] ++ ts) t₁
          (do
            let _ ← want .rparen
            return groups)
          (do
            let _ ← want .rparen
            return groups) :=
      .want (by decide) (.words [.fixed .rparen] (by simp +decide)
        fun _ ht _ => ⟨_, hparams hgroups ht⟩) fun ht _ t₂ => .pure (hparams hgroups ht)
    refine .advance (by simp [hkind]) fun t₁ => .kind ?_
    split
    · exact rest .nil t₁
    · refine .bind (varDecl_reads hR t₁) (by grind)
        (.single .rparen rfl fun ts t' ⟨first, hfirst⟩ ht' => ⟨_, by
          simpa using hparams (.cons hfirst .nil) ht'⟩)
        fun ts t₂ first hfirst _ _ => ?_
      refine .bind (paramsRest_reads hR t₂) (by grind)
        (.single .rparen rfl fun us t' ⟨others, hothers⟩ ht' => ⟨_, by
          simpa using hparams (.cons hfirst hothers) ht'⟩)
        fun us t₃ others hothers _ _ => ?_
      rw [List.append_assoc]
      exact rest (.cons hfirst hothers) t₃
  · exact .pure ⟨none, .none, rfl⟩

theorem heading_reads (t : Token) :
    ReadsTree depth 1 (IsHeading R) t [] t (heading depth) (heading (extra + depth)) := by
  have hheading {t t₁ : Token} {ts us : List Token} {groups : List VarDecl}
      {result : Option DataType} (ht : t.kind = .procedureKw) (ht₁ : t₁.kind = .ident)
      (hparams : Params R ts groups) (hresult : Optional (After .colon IsType) us result) :
      Derivable (IsHeading R) ([t] ++ [t₁] ++ ts ++ us) := by
    obtain ⟨params, hparams, -⟩ := hparams
    exact ⟨_, by simpa using IsHeading.mk ht ht₁ hparams hresult (hR.nodeOf (by simp))⟩
  refine .want (by decide) (.words [.fixed .procedureKw, .someName] (by simp +decide)
    fun _ ht _ _ ht₁ _ => hheading ht ht₁ ⟨none, .none, rfl⟩ .none) fun hprocedure _ t₁ => ?_
  refine .ident (.words [.someName] (by simp)
    fun _ ht₁ _ => hheading hprocedure ht₁ ⟨none, .none, rfl⟩ .none) fun hname _ t₂ => ?_
  refine .bind (P := Params R) (params_reads hR t₂) (by grind)
    (.done fun ts ⟨groups, hparams⟩ => by simpa using hheading hprocedure hname hparams .none) ?_
  rintro ts t₃ groups ⟨params, hparams, rfl⟩ _ _
  have rest {us : List Token} {result : Option DataType}
      (hresult : Optional (After .colon IsType) us result) (t₄ : Token) :
      ReadsTree depth 1 (IsHeading R) t ([] ++ [t] ++ [t₁] ++ ts ++ us) t₄
        (do return ⟨← node t.span, t₁.ident, params.getD [], result.getD .void⟩)
        (do return ⟨← node t.span, t₁.ident, params.getD [], result.getD .void⟩) := by
    refine .node hR (by simp) fun n hn => .pure ?_
    simpa using IsHeading.mk hprocedure hname hparams hresult (by simpa using hn)
  refine .kind ?_
  split
  · rename_i hcolon
    have hkind : t₃.kind = .colon := by simpa using hcolon
    refine .advance (by simp [hkind]) fun t₄ => ?_
    refine .bind (dataType_reads t₄) (by grind)
      (.done fun us ⟨type, htype⟩ => by
        simpa using hheading hprocedure hname ⟨params, hparams, rfl⟩ (.some (.mk hkind htype)))
      fun us t₅ type htype _ _ => ?_
    rw [List.append_assoc]
    exact rest (.some (.mk hkind htype)) t₅
  · refine .known ?_
    rw [← List.append_nil ([] ++ [t] ++ [t₁] ++ ts)]
    exact rest .none t₃

/-! ## Subprograms and modules -/

theorem subprogram_reads (t : Token) :
    Reads depth 1 (fun ts next s => IsSubprogram R next.kind ts s)
      (Derivable (IsSubprogram R .endKw)) t [] t
      (subprogram depth) (subprogram (extra + depth)) := by
  refine .token (.bind (heading_reads hR t) (by grind)
    (.single .semi rfl fun ts t₁ ⟨heading, hheading⟩ hsemi =>
      ⟨_, .forward hheading hsemi (by decide) (by decide) (hR.nodeOf (by simp))⟩)
    fun ts t₁ heading hheading hwritable hbegun => .want (by decide) hbegun fun hsemi _ t₂ => ?_)
  have hname := hheading.name_valid hwritable
  have hsub {us vs : List Token} {t₃ t₄ t₅ t₆ : Token} {vars : List VarDecl} {body : List Stmt}
      (hvars : VarBlock R us vars) (hbegin : t₃.kind = .beginKw) (hbody : IsStmts R vs body)
      (hend : t₄.kind = .endKw) (hclosing : t₅.kind = .ident) (hsame : t₅.value = heading.name.name)
      (hlast : t₆.kind = .semi) : Derivable (IsSubprogram R .endKw)
        (ts ++ [t₁] ++ us ++ [t₃] ++ vs ++ [t₄] ++ [t₅] ++ [t₆]) := by
    obtain ⟨block, hblock, -⟩ := hvars
    have hdefinition : IsSubprogram R .endKw _ _ := .definition hheading hsemi hblock hbegin hbody
      hend hclosing hsame hlast (hR.nodeOf (by simp))
    exact ⟨_, by simpa using hdefinition⟩
  refine .kind ?_
  split
  · refine .bind (P := VarBlock R) (varBlock_reads hR t₂) (by grind)
      (.words [.fixed .beginKw, .fixed .endKw, ⟨.ident, heading.name.name.toList⟩, .fixed .semi]
        (by simp +decide [hname])
        fun us ⟨vars, hvars⟩ _ hbegin _ _ hend _ _ hclosing hsame _ hlast _ => by
          simpa using hsub hvars hbegin (.last .none) hend hclosing
            (String.toList_inj.mp hsame) hlast)
      fun us t₃ vars hvars _ hbegun => .want (by decide) hbegun fun hbegin _ t₄ => ?_
    refine .bind (stmts_reads hR t₄) (by grind)
      (.words [.fixed .endKw, ⟨.ident, heading.name.name.toList⟩, .fixed .semi]
        (by simp +decide [hname]) fun vs ⟨body, hbody⟩ _ hend _ _ hclosing hsame _ hlast _ => by
          simpa using hsub hvars hbegin hbody hend hclosing (String.toList_inj.mp hsame) hlast)
      fun vs t₅ body hbody _ hbegun => .want (by decide) hbegun fun hend _ t₆ => ?_
    refine .endName (.words [⟨.ident, heading.name.name.toList⟩, .fixed .semi]
      (by simp +decide [hname]) fun _ hclosing hsame _ hlast _ => by
        simpa using hsub hvars hbegin hbody hend hclosing (String.toList_inj.mp hsame) hlast)
      fun hclosing hsame t₇ => ?_
    refine .want (by decide) (.words [.fixed .semi] (by simp +decide) fun _ hlast _ => by
      simpa using hsub hvars hbegin hbody hend hclosing hsame hlast) fun hlast _ t₈ => ?_
    refine .node hR (by simp) fun n hn => .pure ?_
    obtain ⟨block, hblock, rfl⟩ := hvars
    have hdefinition : IsSubprogram R t₈.kind _ _ := .definition hheading hsemi hblock hbegin hbody
      hend hclosing hsame hlast (by simpa using hn)
    simpa using hdefinition
  · rename_i hnext
    simp only [Bool.or_eq_true, beq_iff_eq, not_or] at hnext
    refine .node hR (by simp) fun n hn => .pure ?_
    exact .forward hheading hsemi hnext.1 hnext.2 hn

theorem subprograms_reads {depth : Nat} (t : Token) :
    Reads depth 2 (fun ts next ss => IsSubprograms R next.kind ts ss)
      (Derivable (IsSubprograms R .endKw)) t [] t
      (subprograms depth) (subprograms (extra + depth)) := by
  match depth with
  | 0 => exact .overrun (by decide)
  | depth + 1 =>
    refine .kind ?_
    split
    · refine .bindWith (subprogram_reads hR t) (by grind)
        (fun ts t₁ first hfirst => ⟨first, hfirst.inFrontOf (by decide) (by decide)⟩)
        (.done fun ts ⟨first, hfirst⟩ => ⟨[first], by simpa using IsSubprograms.cons hfirst .nil⟩)
        fun ts t₁ first hfirst _ _ => ?_
      have hlength := hfirst.length_pos
      refine .bindWith (subprograms_reads t₁).first (by grind)
        (fun us t₂ rest hrest => ⟨rest, hrest.1.inFrontOf (by decide) (by decide)⟩)
        (.done fun us ⟨rest, hrest⟩ => ⟨first :: rest, .cons ?_ hrest⟩) ?_
      · cases hrest with
        | nil => exact hfirst.inFrontOf (by decide) (by decide)
        | cons hsecond _ =>
          rw [firstKind_append, hsecond.firstKind_eq]
          exact hfirst.inFrontOf (by decide) (by decide)
      · rintro us t₂ rest ⟨hrest, hhead⟩ _ _
        refine .pure (.cons ?_ hrest)
        rwa [firstKind_of_head? hhead]
    · exact .pure .nil

/-- The reader of modules follows the grammar. -/
theorem program_reads (t : Token) :
    Reads depth 2 (fun ts next p => IsProgram R ts p ∧ next.kind = .eof)
      (Derivable (IsProgram R)) t [] t (program depth) (program (extra + depth)) := by
  have hprogram {t t₁ t₂ t₃ t₄ t₅ : Token} {ts us vs : List Token} {vars : List VarDecl}
      {subs : List SubprogramDecl} {body : Option (List Stmt)} (hmodule : t.kind = .moduleKw)
      (hname : t₁.kind = .ident) (hsemi : t₂.kind = .semi) (hvars : VarBlock R ts vars)
      (hsubs : IsSubprograms R (firstKind vs .endKw) us subs)
      (hbody : Optional (After .beginKw (IsStmts R)) vs body) (hend : t₃.kind = .endKw)
      (hclosing : t₄.kind = .ident) (hsame : t₄.value = t₁.value) (hdot : t₅.kind = .dot)
      {n : Node} (hn : R ([t] ++ [t₁] ++ [t₂] ++ ts ++ us ++ vs ++ [t₃] ++ [t₄] ++ [t₅]) n)
      (ids : Nat) : IsProgram R ([t] ++ [t₁] ++ [t₂] ++ ts ++ us ++ vs ++ [t₃] ++ [t₄] ++ [t₅])
        ⟨n, t₁.ident, vars, subs, body.getD [], ids⟩ := by
    obtain ⟨block, hblock, rfl⟩ := hvars
    simpa using IsProgram.mk hmodule hname hsemi hblock hsubs hbody hend hclosing hsame hdot
      (by simpa using hn)
  have hnoVars : VarBlock R [] [] := ⟨none, .none, rfl⟩
  refine .want (by decide) (.words
    [.fixed .moduleKw, .someName, .fixed .semi, .fixed .endKw, .someName, .fixed .dot]
    (by simp +decide) fun _ hmodule _ _ hname hx _ hsemi _ _ hend _ _ hclosing hx' _ hdot _ => ?_)
    fun hmodule _ t₁ => ?_
  · have hsame := String.toList_inj.mp (hx'.trans hx.symm)
    exact ⟨_, hprogram hmodule hname hsemi hnoVars .nil .none hend hclosing hsame hdot
      (hR.nodeOf (by simp)) 0⟩
  refine .ident (.words [.someName, .fixed .semi, .fixed .endKw, .someName, .fixed .dot]
    (by simp +decide) fun _ hname hx _ hsemi _ _ hend _ _ hclosing hx' _ hdot _ => ?_)
    fun hname hwritable t₂ => ?_
  · have hsame := String.toList_inj.mp (hx'.trans hx.symm)
    exact ⟨_, hprogram hmodule hname hsemi hnoVars .nil .none hend hclosing hsame hdot
      (hR.nodeOf (by simp)) 0⟩
  have hword := hwritable.name hname
  have hvalid : ∀ w ∈ [Word.fixed .endKw, ⟨.ident, t₁.value.toList⟩, .fixed .dot], w.Valid := by
    simp +decide [hword]
  refine .want (by decide) (.words
    [.fixed .semi, .fixed .endKw, ⟨.ident, t₁.value.toList⟩, .fixed .dot] (by simp +decide [hword])
    fun _ hsemi _ _ hend _ _ hclosing hsame _ hdot _ =>
      ⟨_, hprogram hmodule hname hsemi hnoVars .nil
      .none hend hclosing (String.toList_inj.mp hsame) hdot (hR.nodeOf (by simp)) 0⟩)
    fun hsemi _ t₃ => ?_
  -- behind everything else, only the closing is missing
  have hclosed {ts us vs : List Token} {vars : List VarDecl} {subs : List SubprogramDecl}
      {body : Option (List Stmt)} (hvars : VarBlock R ts vars)
      (hbody : Optional (After .beginKw (IsStmts R)) vs body)
      (hsubs : IsSubprograms R (firstKind vs .endKw) us subs) :
      EveryWriting [.fixed .endKw, ⟨.ident, t₁.value.toList⟩, .fixed .dot] fun closing =>
        Derivable (IsProgram R) ([t] ++ [t₁] ++ [t₂] ++ ts ++ us ++ vs ++ closing) :=
    fun _ hend _ _ hclosing hsame _ hdot _ => ⟨_, by
      simpa using hprogram hmodule hname hsemi hvars hsubs hbody hend hclosing
        (String.toList_inj.mp hsame) hdot (hR.nodeOf (by simp)) 0⟩
  refine .bind (P := VarBlock R) (varBlock_reads hR t₃) (by grind)
    (.words _ hvalid fun ts ⟨vars, hvars⟩ => by simpa using hclosed hvars .none .nil)
    fun ts t₄ vars hvars _ _ => ?_
  refine .bindWith (subprograms_reads hR t₄) (by grind)
    (fun us t₅ subs hsubs => ⟨subs, hsubs.inFrontOf (by decide) (by decide)⟩)
    (.words _ hvalid fun us ⟨subs, hsubs⟩ => by simpa using hclosed hvars .none hsubs)
    fun us t₅ subs hsubs _ hbegun => ?_
  let closing (body : List Stmt) : Parser Program := do
    let _ ← want .endKw
    endName t₁.ident
    let _ ← want .dot
    if (← kind) != .eof then reject
    let node ← node t.span
    return Program.mk node t₁.ident vars subs body (← get).ids.count
  have rest {vs : List Token} {body : Option (List Stmt)}
      (hbody : Optional (After .beginKw (IsStmts R)) vs body)
      (hsubs : IsSubprograms R (firstKind vs .endKw) us subs) (t₆ : Token) :
      Reads depth 2 (fun ts next p => IsProgram R ts p ∧ next.kind = .eof) (Derivable (IsProgram R))
        t ([] ++ [t] ++ [t₁] ++ [t₂] ++ ts ++ us ++ vs) t₆
        (closing (body.getD [])) (closing (body.getD [])) := by
    refine .want (by decide) (.words _ hvalid (hclosed hvars hbody hsubs)) fun hend _ t₇ => ?_
    refine .endName (.words [⟨.ident, t₁.value.toList⟩, .fixed .dot] (by simp +decide [hword])
      fun _ hclosing hsame _ hdot _ => ?_) fun hclosing hsame t₈ => ?_
    · have hwhole := hprogram hmodule hname hsemi hvars hsubs hbody hend hclosing
        (String.toList_inj.mp hsame) hdot (hR.nodeOf (by simp)) 0
      exact ⟨_, by simpa using hwhole⟩
    have hwhole {t₉ : Token} (hdot : t₉.kind = .dot) {n : Node} := hprogram (n := n) hmodule hname
      hsemi hvars hsubs hbody hend hclosing hsame hdot
    refine .want (by decide) (.words [.fixed .dot] (by simp +decide) fun _ hdot _ =>
      ⟨_, hwhole hdot (hR.nodeOf (by simp)) 0⟩) fun hdot _ t₉ => .kind ?_
    split
    · exact .rejected (.done ⟨_, hwhole hdot (hR.nodeOf (by simp)) 0⟩)
    · rename_i heof
      exact .node hR (by simp) fun n hn => .count fun ids =>
        ⟨hwhole hdot hn ids, by simpa using heof⟩
  refine .kind ?_
  split
  · rename_i hbegin
    have hkind : t₅.kind = .beginKw := by simpa using hbegin
    rw [hkind] at hsubs
    refine .advance (by simp [hkind]) fun t₆ => ?_
    refine .bind (stmts_reads hR t₆) (by grind)
      (.words _ hvalid fun vs ⟨body, hbody⟩ => by
        simpa using hclosed hvars (.some (.mk hkind hbody))
          (by simpa [firstKind, hkind] using hsubs))
      fun vs t₇ body hbody _ _ => ?_
    rw [List.append_assoc _ [t₅] vs]
    exact rest (.some (.mk hkind hbody)) (by simpa [firstKind, hkind] using hsubs) t₇
  · have hsubs' : IsSubprograms R .endKw us subs := hsubs.inFrontOf (by decide) (by decide)
    have hrest := rest .none hsubs' t₅
    rwa [List.append_nil] at hrest

end

end Parser

end Oberlet
