import Oberlet.Proofs.Analysis.Report
import Oberlet.Proofs.Tree.Parts

/-!
# The analysis of expressions follows the rules

The analysis of an expression makes findings about its nodes only.
-/

namespace Oberlet

/-! ## What the rules say about a node -/

/-- What the rules say about an expression: its type, if it has one, and what its name stands
for. A call has the type of its result, even when it is a statement. -/
inductive Noted (names : Names) : Expr → Finding → Prop
  | type {e : Expr} {t : DataType} : HasType names e t → Noted names e (.type e.id t)
  | var {d : Designator Expr} {v : Variable} : names d.name.name = some (.var v) →
      Noted names (.designator d) (.symbols d.node.id [.var v])
  | proc {c : Call Expr} {s : Subprogram} : names c.callee.name = some (.proc s) →
      Noted names (.call c) (.symbols c.node.id [.proc s])
  | result {c : Call Expr} {s : Subprogram} : names c.callee.name = some (.proc s) →
      Noted names (.call c) (.type c.node.id s.result)

/-- What the rules say about some expression of a list. -/
def NotedIn (names : Names) (parts : List Expr) (finding : Finding) : Prop :=
  ∃ part ∈ parts, Noted names part finding

section
variable {names : Names} {finding : Finding} {e : Expr}

@[simp] theorem notedIn_nil : ¬ NotedIn names [] finding := by simp [NotedIn]

@[simp] theorem notedIn_append {front back : List Expr} :
    NotedIn names (front ++ back) finding ↔
      NotedIn names front finding ∨ NotedIn names back finding := by
  simp [NotedIn, or_and_right, exists_or]

@[simp] theorem notedIn_single : NotedIn names [e] finding ↔ Noted names e finding := by
  simp [NotedIn]

/-- About a part that is no name only its type is noted. -/
theorem Noted.eq_type {t : DataType} (h : Noted names e finding) (hd : ∀ d, e ≠ .designator d)
    (hc : ∀ c, e ≠ .call c) (ht : HasType names e t) :
    finding = .type e.id t := by
  cases h with
  | type ht' => rw [ht.unique ht']
  | var => exact (hd _ rfl).elim
  | proc => exact (hc _ rfl).elim
  | result => exact (hc _ rfl).elim

end

/-! ## Index selectors -/

mutual

def Expr.selectors : Expr → List Expr
  | .literal _ _ => []
  | .paren _ inner => inner.selectors
  | .not _ operand => operand.selectors
  | .designator ⟨_, _, selectors⟩ => selectors
  | .call ⟨_, _, args⟩ => selectorsOfAll args
  | .comparison _ left _ right => left.selectors ++ right.selectors
  | .sum _ _ first rest => first.selectors ++ selectorsOfChain rest
  | .product _ first rest => first.selectors ++ selectorsOfChain rest

def selectorsOfAll : List Expr → List Expr
  | [] => []
  | e :: rest => e.selectors ++ selectorsOfAll rest

/-- The index selectors of the operands of a chain. -/
def selectorsOfChain : List (BinOp × Expr) → List Expr
  | [] => []
  | (_, e) :: rest => e.selectors ++ selectorsOfChain rest

end

def Expr.checkIndex (table : SymbolTable) (selector : Expr) : Checker Unit := do
  match ← (selector.check table).type? with
  | some type => if type != .integer then Checker.report selector.span (.badIndex type)
  | none => return

def checkIndexes (table : SymbolTable) (selectors : List Expr) : List (Checker Unit) :=
  selectors.map (·.checkIndex table)

theorem checkIndexes_append (table : SymbolTable) (selectors selectors' : List Expr) :
    checkIndexes table (selectors ++ selectors') =
      checkIndexes table selectors ++ checkIndexes table selectors' :=
  List.map_append

theorem checkSelectors_cons (table : SymbolTable) (whole : Span) (selector : Expr)
    (rest : List Expr) (type : DataType) :
    checkSelectors table whole (selector :: rest) type = (do
      selector.checkIndex table
      type.elem?.elim (Typing.refuse whole (.notAnArray type))
        (checkSelectors table whole rest)) := by
  funext notes
  rw [checkSelectors]
  change Except.bind (Except.bind (selector.check table notes) _) _ =
    Except.bind (Except.bind (Except.bind (Except.bind (selector.check table notes) _) _) _) _
  cases selector.check table notes with
  | error fault => rfl
  | ok r =>
    obtain ⟨r, middle⟩ := r
    cases r with
    | error d => cases type.elem? <;> rfl
    | ok indexType =>
      have hpure {γ : Type} (c : γ) (notes : Notes) :
        (StateT.pure c : Checker γ) notes = .ok (c, notes) := rfl
      cases type.elem? <;> cases hindex : indexType != .integer <;>
        simp only [Except.bind, pure, hpure, Except.pure, ExceptT.bindCont, hindex] <;> rfl

/-! ## Expressions -/

open Typing

variable {t : DataType}

theorem BinOp.accepts_iff {op : BinOp} : op.accepts t = true ↔ op.Joins t := by
  constructor
  · intro h
    cases op <;> cases t <;> simp [BinOp.accepts, BinOp.isLogical, DataType.isNumeric] at h <;>
      first | exact .or | exact .and | (constructor; constructor)
  · rintro (_ | _ | ⟨⟨⟩⟩ | ⟨⟨⟩⟩ | ⟨⟨⟩⟩ | ⟨⟨⟩⟩ | ⟨⟨⟩⟩) <;> rfl

theorem DataType.isNumeric_iff : t.isNumeric = true ↔ t.Numeric := by
  constructor
  · intro h
    cases t <;> simp [DataType.isNumeric] at h <;> constructor
  · rintro (_ | _) <;> rfl

theorem RelOp.compares_iff {op : RelOp} :
    op.Compares t ↔ (op.isOrdering = true → t.Numeric) := by
  constructor
  · rintro (_ | _ | h | h | h | h) hop
    · cases hop
    · cases hop
    all_goals exact h
  · intro h
    cases op
    · exact .eq
    · exact .neq
    · exact .lt (h rfl)
    · exact .ltEq (h rfl)
    · exact .gt (h rfl)
    · exact .gtEq (h rfl)

theorem RelOp.comparable_iff (op : RelOp) :
    (op.isOrdering && !t.isNumeric) = false ↔ op.Compares t := by
  simp [compares_iff, ← DataType.isNumeric_iff]

theorem DataType.Known.elem {t elem : DataType} (h : t.Known) (helem : t.elem? = some elem) :
    elem.Known := by
  cases t <;> simp [DataType.elem?] at helem
  subst helem
  exact h

variable (table : SymbolTable)

theorem resolveVar_judged (name : Ident) :
    Judged table.Sane (fun _ => 0) [] (fun v => v.type.Known)
      (fun v => table.lookup name.name = some (.var v)) (· ∈ [])
        (Typing.resolveVar table name) := by
  unfold Typing.resolveVar Typing.resolve
  cases hname : table.lookup name.name with
  | none => exact .refused (by simp)
  | some symbol =>
    cases symbol with
    | var v =>
      exact (Judged.pure fun hs => hs.lookup hname).imp (by simp) rfl (by simp [eq_comm]) (by simp)
    | mod _ _ => exact .refuse (by simp)
    | proc _ => exact .refuse (by simp)

theorem resolveProc_judged (name : Ident) :
    Judged table.Sane (fun _ => 0) [] (fun s => s.result.Known)
      (fun s => table.lookup name.name = some (.proc s)) (· ∈ [])
        (Typing.resolveProc table name) := by
  unfold Typing.resolveProc Typing.resolve
  cases hname : table.lookup name.name with
  | none => exact .refused (by simp)
  | some symbol =>
    cases symbol with
    | proc s =>
      exact (Judged.pure fun hs => hs.lookup hname).imp (by simp) rfl (by simp [eq_comm]) (by simp)
    | mod _ _ => exact .refuse (by simp)
    | var _ => exact .refuse (by simp)

mutual

/-- Nothing is wrong exactly if the rules give the expression a type, and then all its parts are
annotated with what the rules say. -/
theorem Expr.check_judged (e : Expr) :
    Judged table.Sane (roomOf e.ids) (checkIndexes table e.selectors) DataType.Known
      (HasType table.lookup e) (NotedIn table.lookup e.parts) (e.check table) := by
  cases e with
  | literal node value =>
    have hknown : value.type.Known := by cases value <;> trivial
    refine (Judged.conclude fun _ => hknown).imp (only_le_roomOf node.id true) rfl ?_ ?_
    · intro t
      exact ⟨fun heq => heq ▸ .literal, fun ht => by cases ht; rfl⟩
    · rintro t rfl finding hfinding
      exact List.mem_singleton.mpr
        ((notedIn_single.mp hfinding).eq_type (by simp) (by simp) .literal)
  | paren node inner =>
    rw [Expr.check]
    refine (inner.check_judged.bind fun t ht => .conclude ht).imp (by simp) ?_ ?_ ?_
    · exact List.append_nil _
    · intro t
      constructor
      · rintro ⟨_, ht, rfl⟩
        exact .paren ht
      · rintro (_ | ht)
        exact ⟨_, ht, rfl⟩
    · rintro _ ⟨t, ht, rfl⟩ finding hfinding t' ht'
      rw [Expr.parts, notedIn_append, notedIn_single] at hfinding
      exact hfinding.imp_right fun h =>
        List.mem_singleton.mpr (h.eq_type (by simp) (by simp) (.paren ht'))
  | not node operand =>
    rw [Expr.check]
    have hend := @Judged.conclude table.Sane node.id .boolean fun _ => trivial
    refine (operand.check_judged.bind fun t _ => .guard fun _ => hend).imp (by simp)
      (List.append_nil _) ?_ ?_
    · intro u
      constructor
      · rintro ⟨t, ht, hboolean, rfl⟩
        obtain rfl : t = .boolean := by simpa using hboolean
        exact .not ht
      · rintro (_ | _ | ht)
        exact ⟨_, ht, rfl, rfl⟩
    · rintro _ ⟨t, ht, hboolean, rfl⟩ finding hfinding t' ht'
      obtain rfl : t = .boolean := by simpa using hboolean
      rw [Expr.parts, notedIn_append, notedIn_single] at hfinding
      exact hfinding.imp_right fun h =>
        List.mem_singleton.mpr (h.eq_type (by simp) (by simp) (.not ht))
  | designator d => exact d.check_judged
  | call c =>
    refine (c.check_judged false).imp (fun _ => Nat.le_refl _) rfl ?_ (fun _ _ _ h => h)
    intro t
    simp [hasType_call_iff]
  | comparison node left op right =>
    rw [Expr.check]
    have hend := @Judged.conclude table.Sane node.id .boolean fun _ => trivial
    refine (left.check_judged.bind fun t _ =>
      right.check_judged.bind fun u _ => .guard fun _ => .guard fun _ => hend).imp
        (by simp) ?_ ?_ ?_
    · rw [Expr.selectors, checkIndexes_append, List.append_nil]
    · intro b
      constructor
      · rintro ⟨t, ht, u, hu, heq, hop, rfl⟩
        obtain rfl : t = u := by simpa using heq
        exact .comparison ht hu (op.comparable_iff.mp hop)
      · rintro (_ | _ | _ | _ | _ | ⟨ht, hu, hop⟩)
        exact ⟨_, ht, _, hu, bne_self_eq_false _, op.comparable_iff.mpr hop, rfl⟩
    · rintro b ⟨t, ht, u, hu, heq, hop, rfl⟩ finding hfinding t' _
      obtain rfl : t = u := by simpa using heq
      rw [Expr.parts, notedIn_append, notedIn_append, notedIn_single, or_assoc] at hfinding
      refine hfinding.imp_right fun hfinding u' _ => hfinding.imp_right fun h => ?_
      exact List.mem_singleton.mpr (h.eq_type (by simp) (by simp)
        (.comparison ht hu (op.comparable_iff.mp hop)))
  | sum node negate first rest =>
    rw [Expr.check]
    have hsign (t : DataType) : (negate && !t.isNumeric) = false ↔ (negate = true → t.Numeric) := by
      simp [← DataType.isNumeric_iff]
    refine (first.check_judged.bind fun t ht => .guard fun _ =>
      (checkChain_judged t first.span rest).bind fun _ _ => .conclude ht).imp
        (by simp) ?_ ?_ ?_
    · rw [Expr.selectors, checkIndexes_append, List.append_nil]
    · intro u
      constructor
      · rintro ⟨t, ht, hnegate, _, ⟨hops, hoperands⟩, rfl⟩
        exact .sum ht ((hsign _).mp hnegate) hops hoperands
      · rintro (_ | _ | _ | _ | _ | _ | ⟨ht, hnegate, hops, hoperands⟩)
        exact ⟨_, ht, (hsign _).mpr hnegate, (), ⟨hops, hoperands⟩, rfl⟩
    · rintro _ ⟨t, ht, hnegate, _, ⟨hops, hoperands⟩, rfl⟩ finding hfinding t' ht'
      obtain rfl := ht.unique ht'
      rw [Expr.parts, notedIn_append, notedIn_append, notedIn_single, or_assoc] at hfinding
      refine hfinding.imp_right fun hfinding _ _ => hfinding.imp_right fun h => ?_
      exact List.mem_singleton.mpr (h.eq_type (by simp) (by simp)
        (.sum ht ((hsign _).mp hnegate) hops hoperands))
  | product node first rest =>
    rw [Expr.check]
    refine (first.check_judged.bind fun t ht =>
      (checkChain_judged t first.span rest).bind fun _ _ => .conclude ht).imp
        (by simp) ?_ ?_ ?_
    · rw [Expr.selectors, checkIndexes_append, List.append_nil]
    · intro u
      constructor
      · rintro ⟨t, ht, _, ⟨hops, hoperands⟩, rfl⟩
        exact .product ht hops hoperands
      · rintro (_ | _ | _ | _ | _ | _ | _ | ⟨ht, hops, hoperands⟩)
        exact ⟨_, ht, (), ⟨hops, hoperands⟩, rfl⟩
    · rintro _ ⟨t, ht, _, ⟨hops, hoperands⟩, rfl⟩ finding hfinding t' ht'
      obtain rfl := ht.unique ht'
      rw [Expr.parts, notedIn_append, notedIn_append, notedIn_single, or_assoc] at hfinding
      refine hfinding.imp_right fun hfinding _ _ => hfinding.imp_right fun h => ?_
      exact List.mem_singleton.mpr (h.eq_type (by simp) (by simp) (.product ht hops hoperands))

theorem Designator.check_judged (d : Designator Expr) :
    Judged table.Sane (roomOf (Expr.designator d).ids)
      (checkIndexes table (Expr.designator d).selectors) DataType.Known
      (HasType table.lookup (.designator d)) (NotedIn table.lookup (Expr.designator d).parts)
      (d.check table) := by
  obtain ⟨node, name, selectors⟩ := d
  rw [Designator.check]
  refine ((resolveVar_judged table name).bind fun v hv => Judged.annotateSymbols.bind fun _ _ =>
    (checkSelectors_judged node.span selectors hv).bind
      fun t ht => .conclude ht).imp ?_ ?_ ?_ ?_
  · exact fun key => by simpa using room_named node.id _ key
  · exact List.append_nil _
  · intro t
    constructor
    · rintro ⟨v, hv, _, _, _, ⟨hselectors, helem⟩, rfl⟩
      exact .designator hv hselectors helem
    · rintro (_ | _ | _ | ⟨hv, hselectors, helem⟩)
      exact ⟨_, hv, (), rfl, _, ⟨hselectors, helem⟩, rfl⟩
  · rintro _ ⟨v, hv, -, -, t, ⟨hselectors, helem⟩, rfl⟩ finding hfinding v' hv'
    refine .inr fun _ _ => ?_
    rw [Expr.parts, notedIn_append, notedIn_single] at hfinding
    rcases hfinding with hfinding | hfinding
    · exact .inr fun _ _ => .inl hfinding
    · cases hfinding with
      | type ht =>
        refine .inr fun t' ht' => .inr (List.mem_singleton.mpr ?_)
        rw [ht.unique (.designator hv' ht'.1 ht'.2)]
        rfl
      | var hname => exact .inl (by simp_all)

theorem Call.check_judged (discards : Bool) (c : Call Expr) :
    Judged table.Sane (roomOf (Expr.call c).ids) (checkIndexes table (Expr.call c).selectors)
      DataType.Known (fun t => c.HasResult table.lookup t ∧ (discards = false → t ≠ .void))
      (NotedIn table.lookup (Expr.call c).parts) (c.check table discards) := by
  obtain ⟨node, callee, args⟩ := c
  rw [Call.check]
  have hvoid (s : Subprogram) :
      (!discards && s.result == .void) = false ↔ (discards = false → s.result ≠ .void) := by
    simp
  refine ((resolveProc_judged table callee).bind fun s hs => Judged.annotateSymbols.bind
    fun _ _ => .guard fun hlength => (checkArgs_judged s.name 1 args s.params
      (by simpa using hlength)).bind fun _ _ => .guard fun _ => .conclude hs).imp ?_ ?_ ?_ ?_
  · exact fun key => by simpa using room_named node.id _ key
  · exact List.append_nil _
  · intro t
    constructor
    · rintro ⟨s, hs, -, -, hlength, -, hargs, hresult, rfl⟩
      exact ⟨.intro hs (by simpa using hlength) hargs, (hvoid s).mp hresult⟩
    · rintro ⟨⟨hs, hlength, hargs⟩, hresult⟩
      exact ⟨_, hs, (), rfl, by simpa using hlength, (), hargs, (hvoid _).mpr hresult, rfl⟩
  · rintro _ - finding hfinding s hs
    refine .inr fun _ _ => ?_
    rw [Expr.parts, notedIn_append, notedIn_single] at hfinding
    rcases hfinding with hfinding | hfinding
    · exact .inr fun _ _ => .inl hfinding
    · cases hfinding with
      | type ht =>
        cases ht with
        | call hs' =>
          rw [hs] at hs'
          cases hs'
          exact .inr fun _ _ => .inr (List.mem_singleton.mpr rfl)
      | proc hs' => exact .inl (by simp_all)
      | result hs' => exact .inr fun _ _ => .inr (by simp_all)

theorem checkChain_judged (t : DataType) (previous : Span)
    (rest : List (BinOp × Expr)) :
    Judged table.Sane (roomOf (idsOfChain rest)) (checkIndexes table (selectorsOfChain rest))
      (fun _ => True)
      (fun _ => (∀ pair ∈ rest, pair.1.Joins t) ∧ ∀ pair ∈ rest, HasType table.lookup pair.2 t)
      (NotedIn table.lookup (partsOfChain rest)) (checkChain table t previous rest) := by
  match rest with
  | [] =>
    exact (Judged.pure fun _ => trivial).imp (by simp) rfl (by simp) (by simp [partsOfChain])
  | (op, operand) :: rest =>
    rw [checkChain]
    refine (operand.check_judged.bind fun u _ =>
      .guard fun _ => .guard fun _ => checkChain_judged t operand.span rest).imp
        (by simp) ?_ ?_ ?_
    · rw [selectorsOfChain, checkIndexes_append]
    · intro _
      simp only [List.forall_mem_cons]
      constructor
      · rintro ⟨u, hoperand, heq, hop, hops, hoperands⟩
        obtain rfl : t = u := by simpa using heq
        exact ⟨⟨BinOp.accepts_iff.mp (by simpa using hop), hops⟩, hoperand, hoperands⟩
      · rintro ⟨⟨hop, hops⟩, hoperand, hoperands⟩
        exact ⟨t, hoperand, bne_self_eq_false _, by simpa using BinOp.accepts_iff.mpr hop, hops,
          hoperands⟩
    · intro _ _ finding hfinding _ _
      rwa [partsOfChain, notedIn_append] at hfinding

theorem checkArgs_judged (name : String) (number : Nat) (args : List Expr)
    (params : List Variable) (hlength : args.length = params.length) :
    Judged table.Sane (roomOf (idsOfAll args)) (checkIndexes table (selectorsOfAll args))
      (fun _ => True)
      (fun _ => ∀ pair ∈ args.zip params, HasType table.lookup pair.1 pair.2.type)
      (NotedIn table.lookup (partsOfAll args)) (checkArgs table name number args params) := by
  match args, params with
  | [], [] =>
    exact (Judged.pure fun _ => trivial).imp (by simp) rfl (by simp) (by simp [partsOfAll])
  | arg :: args, param :: params =>
    rw [checkArgs]
    refine (arg.check_judged.bind fun t _ => .guard fun _ =>
      checkArgs_judged name (number + 1) args params (by simpa using hlength)).imp
        (by simp) ?_ (by simp) ?_
    · rw [selectorsOfAll, checkIndexes_append]
    · intro _ _ finding hfinding _ _
      rwa [partsOfAll, notedIn_append] at hfinding

/-- What is wrong with an index selector is recorded and not returned. -/
theorem checkSelectors_judged (whole : Span) (selectors : List Expr)
    {t : DataType} (ht : table.Sane → t.Known) :
    Judged table.Sane (roomOf (idsOfAll selectors)) (checkIndexes table selectors) DataType.Known
      (fun u => (∀ selector ∈ selectors, HasType table.lookup selector .integer) ∧
        t.Element selectors.length u)
      (NotedIn table.lookup (partsOfAll selectors)) (checkSelectors table whole selectors t) := by
  match selectors with
  | [] =>
    refine (Judged.pure ht).imp (by simp) rfl ?_ (by simp [partsOfAll])
    intro u
    simp only [List.not_mem_nil, false_implies, implies_true, true_and, List.length_nil]
    exact ⟨fun heq => heq ▸ .whole, fun helem => by cases helem; rfl⟩
  | selector :: rest =>
    -- the selector is analysed for its own sake
    have hindex : Checker.Assessed table.Sane (fun key => roomOf selector.ids key + 0)
        (checkIndexes table selector.selectors)
        (∃ i, HasType table.lookup selector i ∧ i = .integer)
        (fun finding => ∀ i, HasType table.lookup selector i →
          NotedIn table.lookup selector.parts finding ∨ False) (selector.checkIndex table) :=
      selector.check_judged.review (fun _ => .same) rfl
    -- what is left of the type is indexed further, whatever the selector was
    have hrest : Judged table.Sane (roomOf (idsOfAll rest)) (checkIndexes table rest) DataType.Known
        (fun u => (∀ selector ∈ rest, HasType table.lookup selector .integer) ∧
          t.Element (rest.length + 1) u)
        (NotedIn table.lookup (partsOfAll rest))
        (t.elem?.elim (refuse whole (.notAnArray t)) (checkSelectors table whole rest)) := by
      cases helem : t.elem? with
      | none =>
        refine .refuse ?_
        rintro u ⟨-, hu⟩
        cases hu
        simp [DataType.elem?] at helem
      | some elem =>
        refine (checkSelectors_judged whole rest fun hs => (ht hs).elem helem).imp
          (fun _ => Nat.le_refl _) rfl ?_ (fun _ _ _ h => h)
        intro u
        cases t <;> simp [DataType.elem?] at helem
        subst helem
        refine and_congr_right fun _ => ⟨.index, ?_⟩
        rintro (_ | hu)
        exact hu
    rw [checkSelectors_cons]
    refine ((Judged.aside hindex).bind fun _ _ => hrest).imp (by simp) rfl ?_ ?_
    · intro u
      simp only [exists_eq_right, List.forall_mem_cons, List.length_cons, exists_const]
      exact and_assoc.symm
    · intro _ _ finding hfinding _ _
      rw [partsOfAll, notedIn_append] at hfinding
      exact hfinding.imp_left fun h _ _ => .inl h

end

end Oberlet
