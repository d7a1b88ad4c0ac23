import Oberlet.Proofs.Tree.Outline
import Oberlet.Proofs.Tree.Sound

/-!
# Every phrase of the grammar is read

A parser that stands in front of a phrase of its production uses exactly the tokens of the phrase,
provided that the token behind the phrase cannot continue it.
-/

namespace Oberlet

namespace Parser

variable {α β : Type}

/-- The parser, in front of a phrase and of what follows it, uses the phrase and returns a value
with a certain property, unless it exceeds the bound on the depth of calls. -/
def Yields (ts after : List Token) (Good : α → Prop) (p : Parser α) : Prop :=
  after ≠ [] → ∀ c : Cursor, c.tokens = ts ++ after →
    p c = .error .overrun ∨ ∃ a c', p c = .ok (a, c') ∧ c'.tokens = after ∧ Good a

namespace Yields

variable {ts us after : List Token} {Good : α → Prop} {Good' : β → Prop} {a : α} {f : α → Parser β}
  {p : Parser α} {t : Token}

theorem pure (h : Good a) : Yields [] after Good (Pure.pure a) :=
  fun _ c hc => .inr ⟨a, c, rfl, hc, h⟩

theorem known (h : Yields ts after Good' (f a)) : Yields ts after Good' (Pure.pure a >>= f) := h

theorem overrun : Yields ts after Good (Parser.overrun : Parser α) := fun _ _ _ => .inl rfl

/-- One phrase after the other is read. -/
theorem bind (hp : Yields ts (us ++ after) Good p)
    (hf : ∀ a, Good a → Yields us after Good' (f a)) : Yields (ts ++ us) after Good' (p >>= f) := by
  intro hafter c hc
  rw [List.append_assoc] at hc
  obtain h | ⟨a, mid, h, hmid, ha⟩ := hp (by simp [hafter]) c hc
  · exact .inl (run_bind_error h)
  · rw [run_bind h]
    exact hf a ha hafter mid hmid

theorem whole (hp : Yields ts after Good p) (hf : ∀ a, Good a → Yields [] after Good' (f a)) :
    Yields ts after Good' (p >>= f) := by
  rw [← List.append_nil ts]
  exact bind hp hf

theorem token {f : Token → Parser α} (hf : ∀ t, Yields ts after Good (f t)) :
    Yields ts after Good (Parser.token >>= f) :=
  fun hafter c hc => hf c.token hafter c hc

theorem get {f : Cursor → Parser α} (hf : ∀ c, Yields ts after Good (f c)) :
    Yields ts after Good (MonadState.get >>= f) :=
  fun hafter c hc => hf c hafter c hc

theorem kind {f : Token.Kind → Parser α}
    (hf : Yields ts after Good (f (firstKind (ts ++ after) .eof))) :
    Yields ts after Good (Parser.kind >>= f) := by
  intro hafter c hc
  have h := hf hafter c hc
  rw [← hc] at h
  exact h

theorem headKind {kind : Token.Kind} {f : Token.Kind → Parser α} (ht : t.kind = kind)
    (hf : Yields (t :: ts) after Good (f kind)) :
    Yields (t :: ts) after Good (Parser.kind >>= f) := by
  subst ht
  exact .kind hf

theorem otherKind {kind : Token.Kind} {q : Parser α} (h : firstKind (ts ++ after) .eof ≠ kind)
    (hq : Yields ts after Good q) :
    Yields ts after Good (Parser.kind >>= fun next => if next == kind then p else q) := by
  refine .kind ?_
  rwa [if_neg (by simpa using h)]

theorem nextKind {f : Token.Kind → Parser α}
    (hf : Yields [] after Good (f (firstKind after .eof))) :
    Yields [] after Good (Parser.kind >>= f) := kind hf

theorem node {start : Span} {f : Node → Parser α} (hf : ∀ n, Yields ts after Good (f n)) :
    Yields ts after Good (Parser.node start >>= f) :=
  fun hafter c hc => hf _ hafter { c with ids := ⟨c.ids.count + 1⟩ } hc

theorem advance {f : Unit → Parser α} (hf : Yields ts after Good (f ())) :
    Yields (t :: ts) after Good (Parser.advance >>= f) := by
  intro hafter c hc
  obtain ⟨rfl, hrest⟩ := List.cons.inj hc
  change Except.bind (Parser.advance c) (fun r => f r.1 r.2) = _ ∨
    ∃ a c', Except.bind (Parser.advance c) _ = _ ∧ _
  unfold Parser.advance
  split
  · rename_i next rest hnext
    exact hf hafter _ (hnext.symm.trans hrest)
  all_goals
    rename_i hnil _
    rw [hnil] at hrest
    exact absurd (List.append_eq_nil_iff.mp hrest.symm).2 hafter

theorem head {f : Token → Parser α} (hf : Yields (t :: ts) after Good (f t)) :
    Yields (t :: ts) after Good (Parser.token >>= f) := by
  intro hafter c hc
  have h := hf hafter c hc
  obtain ⟨rfl, -⟩ := List.cons.inj hc
  exact h

theorem want {expected : Token.Kind} {f : Token → Parser α} (ht : t.kind = expected)
    (hf : Yields ts after Good (f t)) :
    Yields (t :: ts) after Good (Parser.want expected >>= f) := by
  unfold Parser.want
  rw [bind_assoc]
  refine head ?_
  rw [if_pos (by simpa using ht), bind_assoc]
  exact advance hf

theorem ident {f : Ident → Parser α} (ht : t.kind = .ident)
    (hf : Yields ts after Good (f t.ident)) : Yields (t :: ts) after Good (Parser.ident >>= f) := by
  unfold Parser.ident
  rw [bind_assoc]
  exact want ht hf

theorem endName {opening : Ident} {f : Unit → Parser α} (ht : t.kind = .ident)
    (hsame : t.value = opening.name) (hf : Yields ts after Good (f ())) :
    Yields (t :: ts) after Good (Parser.endName opening >>= f) := by
  unfold Parser.endName
  rw [bind_assoc]
  refine ident ht ?_
  rw [if_neg (by simp [Token.ident, hsame])]
  exact hf

end Yields

/-! ## Expressions -/

/-- How strongly a token binds to an expression before it: a phrase ends only in front of a token
that binds less than what it consists of. -/
def binds : Token.Kind → Nat
  | .lbracket | .lparen => 4
  | .star | .slash | .modKw | .andKw | .amp => 3
  | .plus | .minus | .orKw => 2
  | .eq | .neq | .lt | .ltEq | .gt | .gtEq => 1
  | _ => 0

/-- The first token binds more loosely than an operator of level `n`. -/
abbrev Loose (n : Nat) (ts : List Token) : Prop := binds (firstKind ts .eof) < n

variable {t : Token} {op : BinOp} {after ts : List Token}

theorem binds_of_kind {kind : Token.Kind} {n : Nat} (ht : t.kind = kind) (h : binds kind < n)
    (ts : List Token) : Loose n (t :: ts) := by
  subst ht
  exact h

theorem binds_of_relSign {kind : Token.Kind} {op : RelOp} (h : RelSign kind op) :
    binds kind = 1 := by
  cases h <;> rfl

theorem binds_of_sumSign {kind : Token.Kind} (h : SumSign kind op) : binds kind = 2 := by
  cases h <;> rfl

theorem binds_of_productSign {kind : Token.Kind} (h : ProductSign kind op) : binds kind = 3 := by
  cases h <;> rfl

theorem relOp?_eq_none {kind : Token.Kind} (h : binds kind < 1) : relOp? kind = none := by
  refine Option.eq_none_iff_forall_ne_some.mpr fun op hop => ?_
  have := binds_of_relSign (relOp?_eq_some_iff.mp hop)
  omega

theorem sumOp?_eq_none {kind : Token.Kind} (h : binds kind < 2) : sumOp? kind = none := by
  refine Option.eq_none_iff_forall_ne_some.mpr fun op hop => ?_
  have := binds_of_sumSign (sumOp?_eq_some_iff.mp hop)
  omega

theorem productOp?_eq_none {kind : Token.Kind} (h : binds kind < 3) : productOp? kind = none := by
  refine Option.eq_none_iff_forall_ne_some.mpr fun op hop => ?_
  have := binds_of_productSign (productOp?_eq_some_iff.mp hop)
  omega

section

variable {P : List Token → Expr → Prop} {rest : List (BinOp × Expr)}

theorem binds_sumRest (h : Repeated (ChainLink SumSign P) ts rest)
    (hafter : Loose 2 after) : Loose 3 (ts ++ after) := by
  cases h with
  | nil => exact Nat.lt_succ_of_lt hafter
  | cons hfirst _ =>
    cases hfirst with
    | mk hsign _ => exact (binds_of_sumSign hsign).trans_lt (by decide)

theorem binds_productRest (h : Repeated (ChainLink ProductSign P) ts rest)
    (hafter : Loose 3 after) : Loose 4 (ts ++ after) := by
  cases h with
  | nil => exact Nat.lt_succ_of_lt hafter
  | cons hfirst _ =>
    cases hfirst with
    | mk hsign _ => exact (binds_of_productSign hsign).trans_lt (by decide)

end

theorem binds_argsRest {P : List Token → Expr → Prop} {args : List Expr}
    (h : Repeated (After .comma P) ts args) (hafter : Loose 1 after) :
    Loose 1 (ts ++ after) := by
  cases h with
  | nil => exact hafter
  | cons hfirst _ =>
    cases hfirst with
    | mk hkind _ => exact binds_of_kind hkind (by decide) _

def startsFactor : Token.Kind → Bool
  | .tilde | .lparen | .ident => true
  | .intLit | .realLit | .stringLit | .trueKw | .falseKw => true
  | _ => false

section

variable {R : List Token → Node → Prop}

theorem startsFactor_of_literal {value : Literal} (h : IsLiteral t value) :
    startsFactor t.kind = true := by
  cases h <;> simp_all [startsFactor]

variable {e : Expr}

theorem first_of_isFactor (h : IsFactor R ts e) :
    ∃ t us, ts = t :: us ∧ startsFactor t.kind = true := by
  cases h with
  | literal hvalue _ => exact ⟨_, _, rfl, startsFactor_of_literal hvalue⟩
  | designator hd =>
    cases hd with
    | mk hkind _ _ => exact ⟨_, _, rfl, by rw [hkind]; rfl⟩
  | call hc =>
    cases hc with
    | mk hkind _ _ => exact ⟨_, _, rfl, by rw [hkind]; rfl⟩
  | paren hinner _ =>
    cases hinner with
    | mk hkind _ _ => exact ⟨_, _, rfl, by rw [hkind]; rfl⟩
  | not hkind _ _ => exact ⟨_, _, rfl, by rw [hkind]; rfl⟩

theorem first_of_isProduct (h : IsProduct R ts e) :
    ∃ t us, ts = t :: us ∧ startsFactor t.kind = true := by
  cases h with
  | single hfactor => exact first_of_isFactor hfactor
  | chain hfirst _ _ _ =>
    obtain ⟨t, us, rfl, ht⟩ := first_of_isFactor hfirst
    exact ⟨t, _, rfl, ht⟩

theorem first_of_isSum (h : IsSum R ts e) :
    ∃ t us, ts = t :: us ∧ (t.kind = .minus ∨ startsFactor t.kind = true) := by
  cases h with
  | single hproduct =>
    obtain ⟨t, us, rfl, ht⟩ := first_of_isProduct hproduct
    exact ⟨t, us, rfl, .inr ht⟩
  | chain hfirst _ _ _ =>
    obtain ⟨t, us, rfl, ht⟩ := first_of_isProduct hfirst
    exact ⟨t, _, rfl, .inr ht⟩
  | negated hkind _ _ _ => exact ⟨_, _, rfl, .inl hkind⟩

theorem first_of_isExpr (h : IsExpr R ts e) :
    ∃ t us, ts = t :: us ∧ (t.kind = .minus ∨ startsFactor t.kind = true) := by
  cases h with
  | single hsum => exact first_of_isSum hsum
  | comparison hleft _ _ _ =>
    obtain ⟨t, us, rfl, ht⟩ := first_of_isSum hleft
    exact ⟨t, _, rfl, ht⟩

theorem firstKind_expr (h : IsExpr R ts e) (after : List Token) (next : Token.Kind) :
    firstKind (ts ++ after) next ≠ .rparen ∧ endsStmt (firstKind (ts ++ after) next) = false := by
  obtain ⟨t, us, rfl, ht⟩ := first_of_isExpr h
  change t.kind ≠ .rparen ∧ endsStmt t.kind = false
  generalize t.kind = kind at ht
  revert ht
  cases kind <;> decide

theorem firstKind_product (h : IsProduct R ts e) (after : List Token) (next : Token.Kind) :
    firstKind (ts ++ after) next ≠ .minus := by
  obtain ⟨t, us, rfl, ht⟩ := first_of_isProduct h
  change t.kind ≠ .minus
  intro hminus
  rw [hminus] at ht
  cases ht

theorem firstKind_selectors {selectors : List Expr}
    (h : Repeated (Enclosed .lbracket .rbracket (IsExpr R)) ts selectors)
    (hafter : Loose 4 after) : firstKind (ts ++ after) .eof ≠ .lparen := by
  cases h with
  | nil =>
    intro hparen
    rw [List.nil_append] at hparen
    rw [Loose, hparen] at hafter
    exact absurd hafter (by decide)
  | cons hfirst _ =>
    cases hfirst with
    | mk hkind _ _ =>
      intro hparen
      exact absurd (hkind.symm.trans hparen) (by decide)

end

theorem Yields.literalValue {Good : α → Prop} {value : Literal} {f : Literal → Parser α}
    (h : IsLiteral t value) (hf : Yields (t :: ts) after Good (f value)) :
    Yields (t :: ts) after Good (Parser.literalValue >>= f) := by
  unfold Parser.literalValue
  rw [bind_assoc]
  refine .head ?_
  cases h with
  | integer hkind hrange =>
    have hle : Decimal.ofDigits t.value.toList ≤ maxInteger := Nat.le_of_lt_succ hrange
    simp only [hkind]
    rw [if_pos hle]
    exact hf
  | real hkind hrange =>
    simp only [hkind]
    cases hvalue : Binary64.ofLiteral? t.value.toList with
    | none => exact absurd (Binary64.ofLiteral?_eq_none_iff.mp hvalue) (not_le.mpr hrange)
    | some x =>
      rw [hvalue] at hf
      exact hf
  | string hkind => simp only [hkind]; exact hf
  | yes hkind => simp only [hkind]; exact hf
  | no hkind => simp only [hkind]; exact hf

section

variable {R : List Token → Node → Prop}

mutual

/-- An expression is read if no comparison follows. -/
theorem expr_yields (depth : Nat) {ts after : List Token} {e : Expr} (h : IsExpr R ts e)
    (hafter : Loose 1 after) :
    Yields ts after (fun a => a.outline = e.outline) (expr depth) := by
  match depth with
  | 0 => exact .overrun
  | depth + 1 =>
    refine .token fun _ => ?_
    cases h with
    | single hsum =>
      refine .whole (sum_yields depth hsum (Nat.lt_succ_of_lt hafter)) fun a ha => .nextKind ?_
      rw [relOp?_eq_none hafter]
      exact .pure ha
    | @comparison t ts us n left right op hleft hsign hright _ =>
      have hfollows : binds t.kind < 2 := (binds_of_relSign hsign).trans_lt (by decide)
      refine .bind (sum_yields depth hleft hfollows) fun a ha => .headKind rfl ?_
      rw [relOp?_eq_some_iff.mpr hsign]
      refine .advance (.whole (sum_yields depth hright (Nat.lt_succ_of_lt hafter)) fun b hb => ?_)
      exact .node fun n => .pure (by simp [Expr.outline, ha, hb])

theorem sum_yields (depth : Nat) {ts after : List Token} {e : Expr} (h : IsSum R ts e)
    (hafter : Loose 2 after) :
    Yields ts after (fun a => a.outline = e.outline) (sum depth) := by
  match depth with
  | 0 => exact .overrun
  | depth + 1 =>
    refine .token fun _ => ?_
    cases h with
    | single hproduct =>
      have hminus := beq_eq_false_iff_ne.mpr (firstKind_product hproduct after .eof)
      refine .kind ?_
      rw [hminus]
      refine .whole (product_yields depth hproduct (Nat.lt_succ_of_lt hafter)) fun a ha => ?_
      refine .whole (sumRest_yields depth .nil hafter) fun rest hrest => ?_
      have hempty : rest.isEmpty = true := by rw [← isEmpty_outlineChain, hrest]; rfl
      simp only [hempty, Bool.not_false, Bool.true_and, if_true]
      exact .pure ha
    | @chain ts us n first rest' hfirst hrest' hne _ =>
      have hminus := firstKind_product hfirst (us ++ after) .eof
      rw [← List.append_assoc] at hminus
      refine .kind ?_
      rw [beq_eq_false_iff_ne.mpr hminus]
      refine .bind (product_yields depth hfirst (binds_sumRest hrest' hafter)) fun a ha => ?_
      refine .whole (sumRest_yields depth hrest' hafter) fun rest hrest => ?_
      have hempty : rest.isEmpty = false := by
        rw [← isEmpty_outlineChain, hrest, isEmpty_outlineChain]
        simpa using hne
      simp only [hempty, Bool.and_false, Bool.false_eq_true, if_false]
      exact .node fun n => .pure (by simp [Expr.outline, ha, hrest])
    | negated hkind hfirst hrest' _ =>
      refine .headKind hkind ?_
      refine .advance (.bind (product_yields depth hfirst (binds_sumRest hrest' hafter)) ?_)
      intro a ha
      refine .whole (sumRest_yields depth hrest' hafter) fun rest hrest => ?_
      exact .node fun n => .pure (by simp [Expr.outline, ha, hrest])

theorem sumRest_yields (depth : Nat) {ts after : List Token} {rest : List (BinOp × Expr)}
    (h : Repeated (ChainLink SumSign (IsProduct R)) ts rest)
    (hafter : Loose 2 after) :
    Yields ts after (fun a => outlineChain a = outlineChain rest) (sumRest depth) := by
  match depth with
  | 0 => exact .overrun
  | depth + 1 =>
    cases h with
    | nil =>
      refine .nextKind ?_
      rw [sumOp?_eq_none hafter]
      exact .pure rfl
    | cons hfirst hrest =>
      cases hfirst with
      | mk hsign hoperand =>
        rw [List.cons_append]
        refine .headKind rfl ?_
        rw [sumOp?_eq_some_iff.mpr hsign]
        refine .advance (.bind (product_yields depth hoperand (binds_sumRest hrest hafter)) ?_)
        intro a ha
        refine .whole (sumRest_yields depth hrest hafter) fun b hb => .pure ?_
        simp [outlineChain, ha, hb]

theorem product_yields (depth : Nat) {ts after : List Token} {e : Expr} (h : IsProduct R ts e)
    (hafter : Loose 3 after) :
    Yields ts after (fun a => a.outline = e.outline) (product depth) := by
  match depth with
  | 0 => exact .overrun
  | depth + 1 =>
    refine .token fun _ => ?_
    cases h with
    | single hfactor =>
      refine .whole (factor_yields depth hfactor (Nat.lt_succ_of_lt hafter)) fun a ha => ?_
      refine .whole (productRest_yields depth .nil hafter) fun rest hrest => ?_
      have hempty : rest.isEmpty = true := by rw [← isEmpty_outlineChain, hrest]; rfl
      rw [if_pos hempty]
      exact .pure ha
    | chain hfirst hrest' hne _ =>
      refine .bind (factor_yields depth hfirst (binds_productRest hrest' hafter)) fun a ha => ?_
      refine .whole (productRest_yields depth hrest' hafter) fun rest hrest => ?_
      have hempty : rest.isEmpty = false := by
        rw [← isEmpty_outlineChain, hrest, isEmpty_outlineChain]
        simpa using hne
      rw [hempty]
      exact .node fun n => .pure (by simp [Expr.outline, ha, hrest])

theorem productRest_yields (depth : Nat) {ts after : List Token} {rest : List (BinOp × Expr)}
    (h : Repeated (ChainLink ProductSign (IsFactor R)) ts rest)
    (hafter : Loose 3 after) :
    Yields ts after (fun a => outlineChain a = outlineChain rest) (productRest depth) := by
  match depth with
  | 0 => exact .overrun
  | depth + 1 =>
    cases h with
    | nil =>
      refine .nextKind ?_
      rw [productOp?_eq_none hafter]
      exact .pure rfl
    | cons hfirst hrest =>
      cases hfirst with
      | mk hsign hoperand =>
        rw [List.cons_append]
        refine .headKind rfl ?_
        rw [productOp?_eq_some_iff.mpr hsign]
        refine .advance (.bind (factor_yields depth hoperand (binds_productRest hrest hafter)) ?_)
        intro a ha
        refine .whole (productRest_yields depth hrest hafter) fun b hb => .pure ?_
        simp [outlineChain, ha, hb]

/-- A factor is read as a whole if nothing behind it belongs to it. -/
theorem factor_yields (depth : Nat) {ts after : List Token} {e : Expr} (h : IsFactor R ts e)
    (hafter : Loose 4 after) :
    Yields ts after (fun a => a.outline = e.outline) (factor depth) := by
  match depth with
  | 0 => exact .overrun
  | depth + 1 =>
    refine .token fun _ => ?_
    cases h with
    | @literal t n value hvalue _ =>
      have hliteral : Yields [t] after (fun a => a.outline = (Expr.literal n value).outline)
          literal := by
        refine .token fun _ => .literalValue hvalue (.advance (.node fun n => .pure ?_))
        simp [Expr.outline]
      refine .headKind rfl ?_
      cases hvalue with
      | integer hkind _ => rw [hkind]; exact hliteral
      | real hkind _ => rw [hkind]; exact hliteral
      | string hkind => rw [hkind]; exact hliteral
      | yes hkind => rw [hkind]; exact hliteral
      | no hkind => rw [hkind]; exact hliteral
    | designator hd =>
      cases hd with
      | @mk t ts n selectors hkind hselectors hn =>
        refine .headKind hkind ?_
        refine .ident hkind (.kind ?_)
        rw [if_neg (by simpa using firstKind_selectors hselectors hafter)]
        refine .whole (designator_yields depth hselectors hafter) fun d hd => .pure ?_
        rw [Expr.outline_designator, hd]
        rfl
    | call hc =>
      cases hc with
      | @mk t ts n args hkind hargs hn =>
        refine .headKind hkind ?_
        refine .ident hkind ?_
        cases hargs with
        | mk hopening hargs hclosing =>
          refine .headKind hopening ?_
          refine .whole (call_yields depth hopening hargs hclosing) fun c hc => .pure ?_
          rw [Expr.outline_call, hc]
          rfl
    | paren hinner _ =>
      cases hinner with
      | mk hopening hinner hclosing =>
        refine .headKind hopening ?_
        have hfollows := binds_of_kind hclosing (show binds .rparen < 1 by decide) after
        refine .advance (.bind (expr_yields depth hinner hfollows) fun a ha => ?_)
        refine .want hclosing (.node fun n => .pure ?_)
        simp [Expr.outline, ha]
    | not hkind hoperand _ =>
      refine .headKind hkind ?_
      refine .advance (.whole (factor_yields depth hoperand hafter) fun a ha => .node fun n => ?_)
      exact .pure (by simp [Expr.outline, ha])

theorem call_yields (depth : Nat) {ts after : List Token} {opening closing : Token}
    {args : List Expr} {name : Ident} (hopening : opening.kind = .lparen)
    (hargs : Listed .comma (IsExpr R) ts args) (hclosing : closing.kind = .rparen) :
    Yields (opening :: (ts ++ [closing])) after
      (fun c => c.outline = ⟨.blank, name.outline, outlineAll args⟩) (call depth name) := by
  match depth with
  | 0 => exact .overrun
  | depth + 1 =>
    refine .want hopening ?_
    have rest {found : List Expr} (hfound : outlineAll found = outlineAll args) :
        Yields [closing] after
          (fun c : Call Expr => c.outline = ⟨.blank, name.outline, outlineAll args⟩)
          (do
            let _ ← want .rparen
            return ⟨← node name.span, name, found⟩) := by
      refine .want hclosing (.node fun n => .pure ?_)
      simp [Call.outline, hfound]
    cases hargs with
    | nil =>
      rw [List.nil_append]
      refine .headKind hclosing ?_
      exact rest rfl
    | @cons ts us first others hfirst hothers =>
      rw [List.append_assoc]
      have hkind := (firstKind_expr hfirst ((us ++ [closing]) ++ after) .eof).1
      rw [← List.append_assoc] at hkind
      refine .kind ?_
      rw [if_neg (by simpa using hkind)]
      have hfollows := binds_argsRest hothers (binds_of_kind hclosing (by decide) after)
      rw [List.append_cons] at hfollows
      refine .bind (expr_yields depth hfirst hfollows) fun a ha => ?_
      refine .bind (argsRest_yields depth hothers hclosing) fun b hb => ?_
      exact rest (by simp [outlineAll, ha, hb])

theorem argsRest_yields (depth : Nat) {ts after : List Token} {closing : Token} {args : List Expr}
    (h : Repeated (After .comma (IsExpr R)) ts args) (hclosing : closing.kind = .rparen) :
    Yields ts (closing :: after) (fun a => outlineAll a = outlineAll args) (argsRest depth) := by
  match depth with
  | 0 => exact .overrun
  | depth + 1 =>
    cases h with
    | nil =>
      refine .nextKind ?_
      rw [firstKind, hclosing]
      exact .pure rfl
    | cons hfirst hrest =>
      cases hfirst with
      | mk hkind harg =>
        rw [List.cons_append]
        refine .headKind hkind ?_
        have hfollows := binds_argsRest hrest (binds_of_kind hclosing (by decide) after)
        refine .advance (.bind (expr_yields depth harg hfollows) ?_)
        intro a ha
        refine .whole (argsRest_yields depth hrest hclosing) fun b hb => .pure ?_
        simp [outlineAll, ha, hb]

theorem designator_yields (depth : Nat) {ts after : List Token} {selectors : List Expr}
    {name : Ident} (h : Repeated (Enclosed .lbracket .rbracket (IsExpr R)) ts selectors)
    (hafter : Loose 4 after) :
    Yields ts after (fun d => d.outline = ⟨.blank, name.outline, outlineAll selectors⟩)
      (designator depth name) := by
  match depth with
  | 0 => exact .overrun
  | depth + 1 =>
    refine .whole (selectors_yields depth h hafter) fun found hfound => .node fun n => .pure ?_
    simp [Designator.outline, hfound]

theorem selectors_yields (depth : Nat) {ts after : List Token} {selectors : List Expr}
    (h : Repeated (Enclosed .lbracket .rbracket (IsExpr R)) ts selectors)
    (hafter : Loose 4 after) :
    Yields ts after (fun a => outlineAll a = outlineAll selectors) (Parser.selectors depth) := by
  match depth with
  | 0 => exact .overrun
  | depth + 1 =>
    cases h with
    | nil =>
      refine .nextKind ?_
      have hbracket : firstKind after .eof ≠ .lbracket := by
        intro h
        rw [Loose, h] at hafter
        exact absurd hafter (by decide)
      rw [if_neg (by simpa using hbracket)]
      exact .pure rfl
    | cons hfirst hrest =>
      cases hfirst with
      | mk hopening hindex hclosing =>
        rw [List.cons_append, List.append_assoc]
        refine .headKind hopening ?_
        refine .advance (.bind (expr_yields depth hindex (binds_of_kind hclosing (by decide) _)) ?_)
        refine fun a ha => .want hclosing ?_
        refine .whole (selectors_yields depth hrest hafter) fun b hb => .pure ?_
        simp [outlineAll, ha, hb]

end

end

/-! ## Statements -/

/-- The kinds of tokens that end a list of statements. -/
def closesStmts : Token.Kind → Bool
  | .endKw | .elseKw | .elsifKw => true
  | _ => false

theorem closesStmts_iff {kind : Token.Kind} :
    closesStmts kind = true ↔ endsStmt kind = true ∧ kind ≠ .semi := by
  cases kind <;> decide

theorem binds_of_endsStmt {kind : Token.Kind} (h : endsStmt kind = true) : binds kind = 0 := by
  revert h
  cases kind <;> decide

theorem ne_of_endsStmt {kind other : Token.Kind} (h : endsStmt kind = true)
    (hother : endsStmt other = false) : kind ≠ other := by
  rintro rfl
  rw [h] at hother
  cases hother

section

variable {R : List Token → Node → Prop} {s : Stmt} {d : VarDecl} {next : Token.Kind} {p : Program}

theorem first_of_isBranch {kind : Token.Kind} {b : Branch Stmt} (h : IsBranch R kind ts b) :
    ∃ t us, ts = t :: us ∧ t.kind = kind := by
  cases h with
  | mk hkind _ _ _ _ => exact ⟨_, _, rfl, hkind⟩

theorem first_of_isStmt (h : IsStmt R ts s) :
    ∃ t us, ts = t :: us ∧ (endsStmt t.kind || t.kind == .eof) = false := by
  cases h with
  | assign htarget _ _ _ =>
    cases htarget with
    | mk hkind _ _ => exact ⟨_, _, rfl, by rw [hkind]; rfl⟩
  | call hc _ =>
    cases hc with
    | mk hkind _ _ => exact ⟨_, _, rfl, by rw [hkind]; rfl⟩
  | name hkind _ _ => exact ⟨_, _, rfl, by rw [hkind]; rfl⟩
  | ite hfirst _ _ _ _ =>
    obtain ⟨t, us, rfl, hkind⟩ := first_of_isBranch hfirst
    exact ⟨t, _, rfl, by rw [hkind]; rfl⟩
  | loop hkind _ _ _ _ _ => exact ⟨_, _, rfl, by rw [hkind]; rfl⟩
  | exit hkind _ => exact ⟨_, _, rfl, by rw [hkind]; rfl⟩
  | ret hkind _ _ => exact ⟨_, _, rfl, by rw [hkind]; rfl⟩

theorem closesStmts_branches {bs : List (Branch Stmt)} (h : Repeated (IsBranch R .elsifKw) ts bs)
    (hafter : closesStmts (firstKind after .eof) = true) :
    closesStmts (firstKind (ts ++ after) .eof) = true := by
  cases h with
  | nil => exact hafter
  | cons hfirst _ =>
    obtain ⟨t, us, rfl, hkind⟩ := first_of_isBranch hfirst
    exact congrArg closesStmts hkind

theorem firstKind_otherwise {otherwise : Option (List Stmt)} {closing : Token}
    (h : Optional (After .elseKw (IsStmts R)) ts otherwise) (hclosing : closing.kind = .endKw)
    (after : List Token) : closesStmts (firstKind (ts ++ closing :: after) .eof) = true ∧
      firstKind (ts ++ closing :: after) .eof ≠ .elsifKw := by
  cases h with
  | none =>
    change closesStmts closing.kind = true ∧ closing.kind ≠ .elsifKw
    rw [hclosing]
    decide
  | some hbody =>
    cases hbody with
    | @mk t ts body hkind _ =>
      change closesStmts t.kind = true ∧ t.kind ≠ .elsifKw
      rw [hkind]
      decide

theorem namedStmt_yields (depth : Nat) (h : IsStmt R ts s) (hfirst : firstKind ts .eof = .ident)
    (hafter : endsStmt (firstKind after .eof) = true) :
    Yields ts after (fun a => a.outline = s.outline) (namedStmt depth) := by
  have hbinds := binds_of_endsStmt hafter
  refine .token fun _ => ?_
  cases h with
  | @assign t₁ _ us _ _ _ htarget hassign hvalue _ =>
    cases htarget with
    | @mk t ts n selectors hkind hselectors _ =>
      have hfollows := binds_of_kind hassign (show binds .assign < 4 by decide) (us ++ after)
      have hparen := firstKind_selectors hselectors hfollows
      rw [← List.cons_append, ← List.append_assoc] at hparen
      rw [List.cons_append]
      refine .ident hkind (.kind ?_)
      rw [if_neg (by simpa using hparen)]
      refine .bind (designator_yields depth hselectors hfollows) fun d hd => .headKind hassign ?_
      refine .advance (.whole (expr_yields depth hvalue (by omega)) fun a ha => .node fun n => ?_)
      exact .pure (by rw [Stmt.outline, hd, ha]; rfl)
  | call hc _ =>
    cases hc with
    | mk hkind hargs _ =>
      cases hargs with
      | mk hopening hargs hclosing =>
        refine .ident hkind (.headKind hopening ?_)
        refine .whole (call_yields depth hopening hargs hclosing) fun c hc => .node fun n => ?_
        exact .pure (by rw [Stmt.outline, hc]; rfl)
  | name hkind _ _ =>
    refine .ident hkind (.nextKind ?_)
    rw [if_neg (by simpa using ne_of_endsStmt hafter (show endsStmt .lparen = false by decide))]
    refine .whole (designator_yields (R := R) depth .nil (by omega)) fun d hd => .nextKind ?_
    rw [if_neg (by simpa using ne_of_endsStmt hafter (show endsStmt .assign = false by decide))]
    have hempty : d.selectors.isEmpty = true := by
      rw [← isEmpty_outlineAll, show outlineAll d.selectors = _ from congrArg (·.selectors) hd]
      rfl
    rw [if_pos hempty]
    exact .node fun n => .node fun m => .pure rfl
  | ite hbranch _ _ _ _ =>
    obtain ⟨t, us, rfl, hkind⟩ := first_of_isBranch hbranch
    exact absurd (hkind.symm.trans hfirst) (by decide)
  | loop hkind _ _ _ _ _ => exact absurd (hkind.symm.trans hfirst) (by decide)
  | exit hkind _ => exact absurd (hkind.symm.trans hfirst) (by decide)
  | ret hkind _ _ => exact absurd (hkind.symm.trans hfirst) (by decide)

mutual

theorem stmts_yields (depth : Nat) {ts after : List Token} {ss : List Stmt} (h : IsStmts R ts ss)
    (hafter : closesStmts (firstKind after .eof) = true) :
    Yields ts after (fun a => outlineBody a = outlineBody ss) (stmts depth) := by
  match depth with
  | 0 => exact .overrun
  | depth + 1 =>
    obtain ⟨hends, hsemi⟩ := closesStmts_iff.mp hafter
    cases h with
    | @last ts first hfirst =>
      have last {found : List Stmt} (hfound : outlineBody found = outlineBody first.toList) :
          Yields [] after (fun a => outlineBody a = outlineBody first.toList)
            (do
              if (← Parser.kind) == .semi then
                advance
                return found ++ (← stmts depth)
              else return found) := by
        exact .otherKind hsemi (.pure hfound)
      cases hfirst with
      | none =>
        refine .nextKind ?_
        rw [hends]
        exact last rfl
      | some hfirst =>
        obtain ⟨t, us, rfl, ht⟩ := first_of_isStmt hfirst
        refine .headKind rfl ?_
        rw [ht]
        refine .whole (stmt_yields depth hfirst hends) fun a ha => ?_
        exact last (by simp [outlineBody, ha])
    | @cons t ts us first rest hfirst hkind hrest =>
      have more {found : List Stmt} (hfound : outlineBody found = outlineBody first.toList) :
          Yields (t :: us) after (fun a => outlineBody a = outlineBody (first.toList ++ rest))
            (do
              if (← Parser.kind) == .semi then
                advance
                return found ++ (← stmts depth)
              else return found) := by
        refine .headKind hkind ?_
        refine .advance (.whole (stmts_yields depth hrest hafter) fun a ha => .pure ?_)
        rw [outlineBody_append, outlineBody_append, hfound, ha]
      cases hfirst with
      | none =>
        refine .headKind hkind ?_
        exact more rfl
      | some hfirst =>
        obtain ⟨t₁, vs, rfl, ht⟩ := first_of_isStmt hfirst
        refine .headKind rfl ?_
        rw [ht]
        refine .bind (stmt_yields depth hfirst (by exact congrArg endsStmt hkind)) fun a ha => ?_
        exact more (by simp [outlineBody, ha])

/-- A statement is read up to what may follow one. -/
theorem stmt_yields (depth : Nat) {ts after : List Token} {s : Stmt} (h : IsStmt R ts s)
    (hafter : endsStmt (firstKind after .eof) = true) :
    Yields ts after (fun a => a.outline = s.outline) (stmt depth) := by
  have hbinds := binds_of_endsStmt hafter
  match depth with
  | 0 => exact .overrun
  | depth + 1 =>
    refine .token fun _ => ?_
    obtain ⟨t, us, hts, -⟩ := first_of_isStmt h
    by_cases hident : t.kind = .ident
    · subst hts
      refine .headKind hident ?_
      exact namedStmt_yields depth h hident hafter
    cases h with
    | assign htarget _ _ _ =>
      cases htarget with
      | mk hkind _ _ => exact absurd ((List.cons.inj hts).1 ▸ hkind) hident
    | call hc _ =>
      cases hc with
      | mk hkind _ _ => exact absurd ((List.cons.inj hts).1 ▸ hkind) hident
    | name hkind _ _ => exact absurd ((List.cons.inj hts).1 ▸ hkind) hident
    | @ite closing ts us vs n first rest otherwise hfirst hrest hotherwise hclosing _ =>
      obtain ⟨t, ts, rfl, hkind⟩ := first_of_isBranch hfirst
      obtain ⟨hcloses, helsif⟩ := firstKind_otherwise hotherwise hclosing after
      rw [← List.singleton_append, ← List.append_assoc] at hcloses helsif
      have hbranches := closesStmts_branches hrest hcloses
      rw [← List.append_assoc] at hbranches
      refine .headKind hkind ?_
      refine .bind (branch_yields depth hfirst hbranches) fun a ha => ?_
      refine .bind (branches_yields depth hrest hcloses helsif) fun b hb => ?_
      cases hotherwise with
      | none =>
        refine .headKind hclosing ?_
        refine .known (.want hclosing (.node fun n => .pure ?_))
        simp [Stmt.outline, outlineBranches_cons, ha, hb]
      | some hbody =>
        cases hbody with
        | mk helse hbody =>
          refine .headKind helse ?_
          refine .advance (.bind (stmts_yields depth hbody (congrArg closesStmts hclosing)) ?_)
          refine fun body hbody => .known (.want hclosing (.node fun n => .pure ?_))
          simp [Stmt.outline, outlineBranches_cons, ha, hb, hbody]
    | loop hkind hcond hdo hbody hend _ =>
      refine .headKind hkind ?_
      refine .advance (.bind (expr_yields depth hcond (binds_of_kind hdo (by decide) _)) ?_)
      refine fun a ha => .want hdo (.bind (stmts_yields depth hbody (congrArg closesStmts hend)) ?_)
      exact fun b hb => .want hend (.node fun n => .pure (by simp [Stmt.outline, ha, hb]))
    | exit hkind _ =>
      refine .headKind hkind ?_
      exact .advance (.node fun n => .pure rfl)
    | ret hkind hvalue _ =>
      refine .headKind hkind ?_
      cases hvalue with
      | none =>
        refine .advance (.nextKind ?_)
        rw [if_pos hafter]
        exact .known (.node fun n => .pure rfl)
      | some hvalue =>
        refine .advance (.kind ?_)
        rw [(firstKind_expr hvalue after .eof).2]
        refine .whole (expr_yields depth hvalue (by omega)) fun a ha => .known (.node fun n => ?_)
        exact .pure (by simp [Stmt.outline, ha])

theorem branches_yields (depth : Nat) {ts after : List Token} {bs : List (Branch Stmt)}
    (h : Repeated (IsBranch R .elsifKw) ts bs)
    (hafter : closesStmts (firstKind after .eof) = true)
    (helsif : firstKind after .eof ≠ .elsifKw) :
    Yields ts after (fun a => outlineBranches a = outlineBranches bs) (branches depth) := by
  match depth with
  | 0 => exact .overrun
  | depth + 1 =>
    cases h with
    | nil => exact .otherKind helsif (.pure rfl)
    | cons hfirst hrest =>
      obtain ⟨t, us, rfl, hkind⟩ := first_of_isBranch hfirst
      refine .kind ?_
      rw [if_pos (by simpa [firstKind] using hkind)]
      refine .bind (branch_yields depth hfirst (closesStmts_branches hrest hafter)) fun a ha => ?_
      refine .whole (branches_yields depth hrest hafter helsif) fun b hb => .pure ?_
      rw [outlineBranches_cons, outlineBranches_cons, ha, hb]

theorem branch_yields (depth : Nat) {kind : Token.Kind} {ts after : List Token} {b : Branch Stmt}
    (h : IsBranch R kind ts b) (hafter : closesStmts (firstKind after .eof) = true) :
    Yields ts after (fun a => a.outline = b.outline) (branch depth) := by
  match depth with
  | 0 => exact .overrun
  | depth + 1 =>
    refine .token fun _ => ?_
    cases h with
    | mk _ hcond hthen hbody _ =>
      refine .advance (.bind (expr_yields depth hcond (binds_of_kind hthen (by decide) _)) ?_)
      refine fun a ha => .want hthen (.whole (stmts_yields depth hbody hafter) fun b hb => ?_)
      exact .node fun n => .pure (by simp [Branch.outline, ha, hb])

end

/-! ## Declarations -/

theorem dataType_yields (depth : Nat) {ts after : List Token} {type : DataType}
    (h : IsType ts type) : Yields ts after (fun a => a = type) (dataType depth) := by
  match depth with
  | 0 => exact .overrun
  | depth + 1 =>
    cases h with
    | integer hkind =>
      refine .headKind hkind ?_
      exact .advance (.pure rfl)
    | real hkind =>
      refine .headKind hkind ?_
      exact .advance (.pure rfl)
    | string hkind =>
      refine .headKind hkind ?_
      exact .advance (.pure rfl)
    | boolean hkind =>
      refine .headKind hkind ?_
      exact .advance (.pure rfl)
    | @array t size t₁ ts elem hkind hsize hpos hle hof helem =>
      have hrange : ¬(Decimal.ofDigits size.value.toList == 0 ||
          maxArraySize < Decimal.ofDigits size.value.toList) = true := by
        have hmax : Decimal.ofDigits size.value.toList ≤ maxArraySize := Nat.le_of_lt_succ hle
        simpa using ⟨Nat.one_le_iff_ne_zero.mp hpos, hmax⟩
      refine .headKind hkind ?_
      refine .advance (.want hsize ?_)
      dsimp only
      rw [if_neg hrange]
      refine .want hof (.whole (dataType_yields depth helem) fun a ha => .pure ?_)
      rw [ha]

theorem namesRest_yields (depth : Nat) {ts after : List Token} {names : List Ident}
    (h : Repeated (After .comma IsIdent) ts names) (hafter : firstKind after .eof ≠ .comma) :
    Yields ts after (fun a => a = names) (namesRest depth) := by
  match depth with
  | 0 => exact .overrun
  | depth + 1 =>
    cases h with
    | nil => exact .otherKind hafter (.pure rfl)
    | cons hfirst hrest =>
      cases hfirst with
      | mk hkind hname =>
        cases hname with
        | mk hname =>
          refine .headKind hkind ?_
          refine .advance (.ident hname ?_)
          refine .whole (namesRest_yields depth hrest hafter) fun a ha => .pure ?_
          rw [ha]

theorem varDecl_yields (depth : Nat) (h : IsVarDecl R ts d) :
    Yields ts after (fun a => a.outline = d.outline) (varDecl depth) := by
  refine .token fun _ => ?_
  cases h with
  | @mk t _ us vs n first rest type hfirst hrest hcolon htype _ =>
    cases hfirst with
    | mk hname =>
      have hfollows : firstKind (t :: vs ++ after) .eof ≠ .comma := by
        change t.kind ≠ .comma
        rw [hcolon]
        decide
      rw [List.singleton_append]
      refine .ident hname (.bind (namesRest_yields depth hrest hfollows) fun names hnames => ?_)
      refine .want hcolon (.whole (dataType_yields depth htype) fun a ha => .node fun n => ?_)
      exact .pure (by simp [VarDecl.outline, hnames, ha])

theorem first_of_isVarDecl (h : IsVarDecl R ts d) : ∃ t us, ts = t :: us ∧ t.kind = .ident := by
  cases h with
  | mk hfirst _ _ _ _ =>
    cases hfirst with
    | mk hkind => exact ⟨_, _, rfl, hkind⟩

theorem varDecls_yields (depth : Nat) {ts after : List Token} {ds : List VarDecl}
    (h : Repeated (Before .semi (IsVarDecl R)) ts ds) (hafter : firstKind after .eof ≠ .ident) :
    Yields ts after (fun a => a.map VarDecl.outline = ds.map VarDecl.outline) (varDecls depth) := by
  match depth with
  | 0 => exact .overrun
  | depth + 1 =>
    cases h with
    | nil => exact .otherKind hafter (.pure rfl)
    | cons hfirst hrest =>
      cases hfirst with
      | mk hdecl hsemi =>
        obtain ⟨t, us, rfl, hkind⟩ := first_of_isVarDecl hdecl
        rw [List.append_assoc]
        refine .headKind hkind ?_
        refine .bind (varDecl_yields depth hdecl) fun a ha => .want hsemi ?_
        refine .whole (varDecls_yields depth hrest hafter) fun b hb => .pure ?_
        simp [ha, hb]

theorem varBlock_yields (depth : Nat) {block : Option (List VarDecl)}
    (h : Optional (IsVarBlock R) ts block) (hvar : firstKind after .eof ≠ .varKw)
    (hident : firstKind after .eof ≠ .ident) :
    Yields ts after (fun a => a.map VarDecl.outline = (block.getD []).map VarDecl.outline)
      (varBlock depth) := by
  cases h with
  | none => exact .otherKind hvar (.pure rfl)
  | some hblock =>
    cases hblock with
    | mk hkind hdecls =>
      refine .headKind hkind ?_
      exact .advance (varDecls_yields depth hdecls hident)

theorem paramsRest_yields (depth : Nat) {ts after : List Token} {groups : List VarDecl}
    (h : Repeated (After .semi (IsVarDecl R)) ts groups)
    (hafter : firstKind after .eof ≠ .semi) :
    Yields ts after (fun a => a.map VarDecl.outline = groups.map VarDecl.outline)
      (paramsRest depth) := by
  match depth with
  | 0 => exact .overrun
  | depth + 1 =>
    cases h with
    | nil => exact .otherKind hafter (.pure rfl)
    | cons hfirst hrest =>
      cases hfirst with
      | mk hkind hgroup =>
        rw [List.cons_append]
        refine .headKind hkind ?_
        refine .advance (.bind (varDecl_yields depth hgroup) fun a ha => ?_)
        refine .whole (paramsRest_yields depth hrest hafter) fun b hb => .pure ?_
        simp [ha, hb]

theorem params_yields (depth : Nat) {params : Option (List VarDecl)}
    (h : Optional (Enclosed .lparen .rparen (Listed .semi (IsVarDecl R))) ts params)
    (hafter : firstKind after .eof ≠ .lparen) :
    Yields ts after (fun a => a.map VarDecl.outline = (params.getD []).map VarDecl.outline)
      (Parser.params depth) := by
  cases h with
  | none => exact .otherKind hafter (.pure rfl)
  | some henclosed =>
    cases henclosed with
    | mk hopening hgroups hclosing =>
      refine .headKind hopening ?_
      refine .advance ?_
      cases hgroups with
      | nil =>
        refine .headKind hclosing ?_
        exact .known (.want hclosing (.pure rfl))
      | @cons us vs first rest hfirst hrest =>
        have hfollows : ∀ closing : Token, closing.kind = .rparen →
            firstKind (closing :: after) .eof ≠ .semi := by
          intro closing hclosing
          change closing.kind ≠ .semi
          rw [hclosing]
          decide
        obtain ⟨t, us, rfl, hkind⟩ := first_of_isVarDecl hfirst
        rw [List.append_assoc]
        refine .headKind hkind ?_
        refine .bind (varDecl_yields depth hfirst) fun a ha => ?_
        refine .bind (paramsRest_yields depth hrest (hfollows _ hclosing)) fun b hb => ?_
        exact .known (.want hclosing (.pure (by simp [ha, hb])))

theorem heading_yields (depth : Nat) {heading : Heading} (h : IsHeading R ts heading)
    (hafter : firstKind after .eof = .semi) :
    Yields ts after (fun a => a.outline = heading.outline) (Parser.heading depth) := by
  cases h with
  | @mk t t₁ ts us n params result hprocedure hname hparams hresult _ =>
    have hparen : firstKind (us ++ after) .eof ≠ .lparen := by
      cases hresult with
      | none => rw [List.nil_append, hafter]; decide
      | some hresult =>
        cases hresult with
        | @mk t₂ us type hcolon _ =>
          change t₂.kind ≠ .lparen
          rw [hcolon]
          decide
    refine .want hprocedure (.ident hname ?_)
    refine .bind (params_yields depth hparams hparen) fun a ha => ?_
    cases hresult with
    | none =>
      refine .nextKind ?_
      rw [hafter]
      exact .known (.node fun n => .pure (by simp [Heading.outline, ha]))
    | some hresult =>
      cases hresult with
      | mk hcolon htype =>
        refine .headKind hcolon ?_
        refine .advance (.whole (dataType_yields depth htype) fun b hb => .node fun n => ?_)
        exact .pure (by simp [Heading.outline, ha, hb])

theorem subprogram_yields (depth : Nat) {s : SubprogramDecl} (h : IsSubprogram R next ts s)
    (hafter : firstKind after .eof = next) :
    Yields ts after (fun a => a.outline = s.outline) (subprogram depth) := by
  refine .token fun _ => ?_
  cases h with
  | forward hheading hsemi hvar hbegin _ =>
    refine .bind (heading_yields depth hheading hsemi) fun a ha => ?_
    refine .want hsemi (.nextKind ?_)
    rw [hafter, beq_eq_false_iff_ne.mpr hvar, beq_eq_false_iff_ne.mpr hbegin]
    exact .node fun n => .pure (by simp [SubprogramDecl.outline, ha])
  | @definition t t₁ t₂ closing t₃ ts us vs n heading block body hheading hsemi hblock hbegin hbody
      hend hclosing hsame hlast _ =>
    have hkind : (firstKind (us ++ t₁ :: (vs ++ [t₂, closing, t₃]) ++ after) .eof == .varKw ||
        firstKind (us ++ t₁ :: (vs ++ [t₂, closing, t₃]) ++ after) .eof == .beginKw) = true := by
      cases hblock with
      | none => simp [firstKind, hbegin]
      | some hblock =>
        cases hblock with
        | mk hvar _ => simp [firstKind, hvar]
    refine .bind (heading_yields depth hheading hsemi) fun a ha => .want hsemi (.kind ?_)
    rw [if_pos hkind]
    refine .bind (varBlock_yields depth hblock (by simp [hbegin]) (by simp [hbegin])) ?_
    refine fun vars hvars => .want hbegin (.bind (stmts_yields depth hbody ?_) fun b hb => ?_)
    · exact congrArg closesStmts hend
    · have hname : closing.value = a.name.name := by
        rw [hsame]
        exact (congrArg (fun h : Heading => h.name.name) ha).symm
      refine .want hend (.endName hclosing hname (.want hlast (.node fun n => .pure ?_)))
      simp [SubprogramDecl.outline, ha, hvars, hb]

theorem first_of_isSubprogram {s : SubprogramDecl} (h : IsSubprogram R next ts s) :
    ∃ t us, ts = t :: us ∧ t.kind = .procedureKw := by
  cases h with
  | forward hheading _ _ _ _ =>
    cases hheading with
    | mk hkind _ _ _ _ => exact ⟨_, _, rfl, hkind⟩
  | definition hheading _ _ _ _ _ _ _ _ _ =>
    cases hheading with
    | mk hkind _ _ _ _ => exact ⟨_, _, rfl, hkind⟩

theorem subprograms_yields (depth : Nat) {next : Token.Kind} {ts after : List Token}
    {ss : List SubprogramDecl} (h : IsSubprograms R next ts ss)
    (hafter : firstKind after .eof = next) (hnext : next ≠ .procedureKw) :
    Yields ts after (fun a => a.map SubprogramDecl.outline = ss.map SubprogramDecl.outline)
      (subprograms depth) := by
  match depth with
  | 0 => exact .overrun
  | depth + 1 =>
    cases h with
    | nil =>
      refine .nextKind ?_
      rw [hafter, if_neg (by simpa using hnext)]
      exact .pure rfl
    | cons hfirst hrest =>
      have hfollows : ∀ us : List Token, firstKind (us ++ after) .eof = firstKind us next := by
        intro us
        rw [firstKind_append, hafter]
      obtain ⟨t, us, rfl, hkind⟩ := first_of_isSubprogram hfirst
      refine .headKind hkind ?_
      refine .bind (subprogram_yields depth hfirst (hfollows _)) fun a ha => ?_
      refine .whole (subprograms_yields depth hrest hafter hnext) fun b hb => .pure ?_
      simp [ha, hb]

/-- A module up to its final dot. What is returned is its first token, and its tree but for the node
and the number of ids. -/
def moduleText (depth : Nat) : Parser (Token × (Node → Nat → Program)) := do
  let start ← want .moduleKw
  let name ← ident
  let _ ← want .semi
  let vars ← varBlock depth
  let subprograms ← subprograms depth
  let body ← if (← kind) == .beginKw then do
      advance
      stmts depth
    else pure []
  let _ ← want .endKw
  endName name
  let _ ← want .dot
  return (start, fun node count => ⟨node, name, vars, subprograms, body, count⟩)

theorem program_eq (depth : Nat) : program depth = (do
    let (start, build) ← moduleText depth
    if (← kind) != .eof then reject
    let node ← node start.span
    return build node (← get).ids.count) := by
  unfold program moduleText
  simp only [bind_assoc, pure_bind]
  refine bind_congr fun start => bind_congr fun name => bind_congr fun _ => ?_
  refine bind_congr fun vars => bind_congr fun subprograms => bind_congr fun k => ?_
  split <;> simp only [bind_assoc, pure_bind]

theorem moduleText_yields (depth : Nat) (h : IsProgram R ts p) :
    Yields ts after (fun r => ∀ node count, (r.2 node count).outline = p.outline)
      (moduleText depth) := by
  cases h with
  | @mk t name t₁ t₂ closing t₃ ts us vs n block subs body count hmodule hname hsemi hblock hsubs
      hbody hend hclosing hsame hdot _ =>
    have hnext : firstKind vs .endKw = .beginKw ∨ firstKind vs .endKw = .endKw := by
      cases hbody with
      | none => exact .inr rfl
      | some hbody =>
        cases hbody with
        | mk hbegin _ => exact .inl hbegin
    have hsubsFollow : firstKind (vs ++ [t₂, closing, t₃] ++ after) .eof = firstKind vs .endKw := by
      simp [firstKind_append, hend]
    have hblockFollow : firstKind (us ++ (vs ++ [t₂, closing, t₃]) ++ after) .eof = .procedureKw ∨
        firstKind (us ++ (vs ++ [t₂, closing, t₃]) ++ after) .eof = firstKind vs .endKw := by
      rw [List.append_assoc, firstKind_append, hsubsFollow]
      cases hsubs with
      | nil => exact .inr rfl
      | cons hfirst _ =>
        obtain ⟨s, us, rfl, hkind⟩ := first_of_isSubprogram hfirst
        exact .inl hkind
    refine .want hmodule (.ident hname (.want hsemi ?_))
    refine .bind (varBlock_yields depth hblock (by grind) (by grind)) fun vars hvars => ?_
    refine .bind (subprograms_yields depth hsubs hsubsFollow (by grind)) fun found hfound => ?_
    have closed {a : List Stmt} (ha : outlineBody a = outlineBody (body.getD [])) :
        Yields [t₂, closing, t₃] after
          (fun r : Token × (Node → Nat → Program) => ∀ node count, (r.2 node count).outline =
            Program.outline ⟨n, name.ident, block.getD [], subs, body.getD [], count⟩)
          (do
            let _ ← want .endKw
            endName name.ident
            let _ ← want .dot
            return (t, fun node count => ⟨node, name.ident, vars, found, a, count⟩)) := by
      refine .want hend (.endName hclosing hsame (.want hdot (.pure fun _ _ => ?_)))
      simp [Program.outline, hvars, hfound, ha]
    cases hbody with
    | none =>
      refine .headKind hend ?_
      exact .known (closed rfl)
    | some hbody =>
      cases hbody with
      | mk hbegin hbody =>
        refine .headKind hbegin ?_
        refine .advance (.bind (stmts_yields depth hbody ?_) fun a ha => closed ha)
        exact congrArg closesStmts hend

/-- The phrase of a module is read to its end. -/
theorem program_yields (depth : Nat) (h : IsProgram R ts p) (hafter : firstKind after .eof = .eof) :
    Yields ts after (fun a => a.outline = p.outline) (program depth) := by
  rw [program_eq]
  refine .whole (moduleText_yields depth h) fun r hr => .nextKind ?_
  rw [hafter]
  exact .node fun n => .get fun c => .pure (hr n c.ids.count)

theorem eof_of_program {depth : Nat} {c : Cursor} {r : Program × Cursor} (h : IsProgram R ts p)
    (hc : c.tokens = ts ++ after) (hafter : after ≠ []) (hrun : program depth c = .ok r) :
    firstKind after .eof = .eof := by
  rw [program_eq] at hrun
  obtain ⟨a, mid, hmid, hrest⟩ := of_run_bind_eq_ok hrun
  obtain hover | ⟨a', mid', hmid', htokens, -⟩ := moduleText_yields depth h hafter c hc
  · cases hover.symm.trans hmid
  · cases hmid'.symm.trans hmid
    obtain ⟨kind, _, hkind, hrest⟩ := of_run_bind_eq_ok hrest
    cases hkind
    refine Classical.byContradiction fun hne => ?_
    rw [← htokens, Cursor.tokens, firstKind_cons] at hne
    rw [if_pos (by simpa using hne)] at hrest
    obtain ⟨_, _, hreject, -⟩ := of_run_bind_eq_ok hrest
    exact absurd hreject reject_ne_ok

end

end Parser

end Oberlet
