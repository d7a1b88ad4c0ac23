import Mathlib.Data.List.Nodup
import Oberlet.Tree.Basic

/-!
# The nodes of a tree

The ids of a tree are listed in the order in which its nodes are completed, up to the order of a
node and its only child.
-/

namespace Oberlet

/-! ## Parts of expressions -/

mutual

/-- The expressions that occur in an expression, the whole last. -/
def Expr.parts : Expr → List Expr
  | .literal node value => [.literal node value]
  | .paren node inner => inner.parts ++ [.paren node inner]
  | .not node operand => operand.parts ++ [.not node operand]
  | .designator ⟨node, name, selectors⟩ =>
    partsOfAll selectors ++ [.designator ⟨node, name, selectors⟩]
  | .call ⟨node, callee, args⟩ => partsOfAll args ++ [.call ⟨node, callee, args⟩]
  | .comparison node left op right =>
    left.parts ++ right.parts ++ [.comparison node left op right]
  | .sum node negate first rest =>
    first.parts ++ partsOfChain rest ++ [.sum node negate first rest]
  | .product node first rest =>
    first.parts ++ partsOfChain rest ++ [.product node first rest]

def partsOfAll : List Expr → List Expr
  | [] => []
  | e :: rest => e.parts ++ partsOfAll rest

def partsOfChain : List (BinOp × Expr) → List Expr
  | [] => []
  | (_, e) :: rest => e.parts ++ partsOfChain rest

end

theorem Expr.self_mem_parts (e : Expr) : e ∈ e.parts := by
  cases e <;> simp [Expr.parts]

variable {part : Expr} {P : Expr → Prop}

theorem Expr.forall_parts {e : Expr} {front : List Expr} (he : e.parts = front ++ [e]) :
    (∀ part ∈ e.parts, P part) ↔ (∀ part ∈ front, P part) ∧ P e := by
  rw [he, List.forall_mem_append, List.forall_mem_singleton]

theorem forall_partsOfAll {es : List Expr} :
    (∀ part ∈ partsOfAll es, P part) ↔ ∀ e ∈ es, ∀ part ∈ e.parts, P part := by
  induction es with
  | nil => simp [partsOfAll]
  | cons e rest ih => rw [partsOfAll, List.forall_mem_append, ih, List.forall_mem_cons]

theorem forall_partsOfChain {chain : List (BinOp × Expr)} :
    (∀ part ∈ partsOfChain chain, P part) ↔ ∀ pair ∈ chain, ∀ part ∈ pair.2.parts, P part := by
  induction chain with
  | nil => simp [partsOfChain]
  | cons pair rest ih => rw [partsOfChain, List.forall_mem_append, ih, List.forall_mem_cons]

section

variable {e : Expr} {front back : List Expr}

theorem parts_sublist_append (hfront : part ∈ front → part.parts.Sublist front)
    (hback : part ∈ back → part.parts.Sublist back) (h : part ∈ front ++ back) :
    part.parts.Sublist (front ++ back) := by
  rcases List.mem_append.mp h with h | h
  · exact (hfront h).trans (List.sublist_append_left _ _)
  · exact (hback h).trans (List.sublist_append_right _ _)

theorem parts_sublist_whole (he : e.parts = front ++ [e])
    (hfront : part ∈ front → part.parts.Sublist front) (h : part ∈ e.parts) :
    part.parts.Sublist e.parts := by
  rw [he] at h
  rcases List.mem_append.mp h with h | h
  · rw [he]
    exact (hfront h).trans (List.sublist_append_left _ _)
  · rw [List.mem_singleton.mp h]

end

mutual

/-- The parts of a part are parts, in the same order. -/
theorem Expr.parts_sublist (e : Expr) {part : Expr} (h : part ∈ e.parts) :
    part.parts.Sublist e.parts := by
  cases e with
  | literal node value => rw [List.mem_singleton.mp h]
  | paren node inner => exact parts_sublist_whole rfl (fun h => inner.parts_sublist h) h
  | not node operand => exact parts_sublist_whole rfl (fun h => operand.parts_sublist h) h
  | designator d =>
    obtain ⟨node, name, selectors⟩ := d
    exact parts_sublist_whole rfl (fun h => parts_sublist_all selectors h) h
  | call c =>
    obtain ⟨node, callee, args⟩ := c
    exact parts_sublist_whole rfl (fun h => parts_sublist_all args h) h
  | comparison node left op right =>
    exact parts_sublist_whole rfl
      (parts_sublist_append (fun h => left.parts_sublist h) fun h => right.parts_sublist h) h
  | sum node negate first rest =>
    exact parts_sublist_whole rfl
      (parts_sublist_append (fun h => first.parts_sublist h) fun h => parts_sublist_chain rest h) h
  | product node first rest =>
    exact parts_sublist_whole rfl
      (parts_sublist_append (fun h => first.parts_sublist h) fun h => parts_sublist_chain rest h) h

theorem parts_sublist_all (es : List Expr) {part : Expr} (h : part ∈ partsOfAll es) :
    part.parts.Sublist (partsOfAll es) := by
  cases es with
  | nil => cases h
  | cons e rest =>
    exact parts_sublist_append (fun h => e.parts_sublist h) (fun h => parts_sublist_all rest h) h

theorem parts_sublist_chain (chain : List (BinOp × Expr)) {part : Expr}
    (h : part ∈ partsOfChain chain) :
    part.parts.Sublist (partsOfChain chain) := by
  cases chain with
  | nil => cases h
  | cons pair rest =>
    obtain ⟨op, e⟩ := pair
    exact parts_sublist_append (fun h => e.parts_sublist h) (fun h => parts_sublist_chain rest h) h

end

def Expr.ids (e : Expr) : List Nat := e.parts.map Expr.id

def idsOfAll (es : List Expr) : List Nat := (partsOfAll es).map Expr.id

def idsOfChain (chain : List (BinOp × Expr)) : List Nat := (partsOfChain chain).map Expr.id

theorem Expr.ids_whole {e : Expr} {front : List Expr} (he : e.parts = front ++ [e]) :
    e.ids = front.map Expr.id ++ [e.id] := by
  rw [Expr.ids, he, List.map_append, List.map_singleton]

section
variable (node : Node) (name : Ident)

@[simp] theorem Expr.ids_literal (value : Literal) :
    (Expr.literal node value).ids = [node.id] := rfl

@[simp] theorem Expr.ids_paren (e : Expr) : (Expr.paren node e).ids = e.ids ++ [node.id] :=
  Expr.ids_whole rfl

@[simp] theorem Expr.ids_not (e : Expr) : (Expr.not node e).ids = e.ids ++ [node.id] :=
  Expr.ids_whole rfl

@[simp] theorem Expr.ids_designator (es : List Expr) :
    (Expr.designator ⟨node, name, es⟩).ids = idsOfAll es ++ [node.id] :=
  Expr.ids_whole rfl

@[simp] theorem Expr.ids_call (es : List Expr) :
    (Expr.call ⟨node, name, es⟩).ids = idsOfAll es ++ [node.id] :=
  Expr.ids_whole rfl

@[simp] theorem Expr.ids_comparison (left : Expr) (op : RelOp) (right : Expr) :
    (Expr.comparison node left op right).ids = left.ids ++ right.ids ++ [node.id] := by
  rw [Expr.ids_whole rfl, List.map_append]
  rfl

@[simp] theorem Expr.ids_sum (negate : Bool) (first : Expr) (rest : List (BinOp × Expr)) :
    (Expr.sum node negate first rest).ids = first.ids ++ idsOfChain rest ++ [node.id] := by
  rw [Expr.ids_whole rfl, List.map_append]
  rfl

@[simp] theorem Expr.ids_product (first : Expr) (rest : List (BinOp × Expr)) :
    (Expr.product node first rest).ids = first.ids ++ idsOfChain rest ++ [node.id] := by
  rw [Expr.ids_whole rfl, List.map_append]
  rfl

end

@[simp] theorem idsOfAll_nil : idsOfAll [] = [] := rfl

@[simp] theorem idsOfAll_cons (e : Expr) (rest : List Expr) :
    idsOfAll (e :: rest) = e.ids ++ idsOfAll rest :=
  List.map_append

@[simp] theorem idsOfChain_nil : idsOfChain [] = [] := rfl

@[simp] theorem idsOfChain_cons (op : BinOp) (e : Expr) (rest : List (BinOp × Expr)) :
    idsOfChain ((op, e) :: rest) = e.ids ++ idsOfChain rest :=
  List.map_append

/-! ## Parts of statements -/

mutual

/-- The expressions that occur in a statement. The target of an assignment and the call that is a
statement count as expressions. -/
def Stmt.parts : Stmt → List Expr
  | .assign _ target value => (Expr.designator target).parts ++ value.parts
  | .call _ c => (Expr.call c).parts
  | .ite _ branches none => partsOfBranches branches
  | .ite _ branches (some body) => partsOfBranches branches ++ partsOfBody body
  | .loop _ cond body => cond.parts ++ partsOfBody body
  | .exit _ => []
  | .ret _ none => []
  | .ret _ (some value) => value.parts

def partsOfBranches : List (Branch Stmt) → List Expr
  | [] => []
  | ⟨_, cond, body⟩ :: rest => cond.parts ++ partsOfBody body ++ partsOfBranches rest

def partsOfBody : List Stmt → List Expr
  | [] => []
  | stmt :: rest => stmt.parts ++ partsOfBody rest

end

theorem forall_partsOfBody {stmts : List Stmt} :
    (∀ part ∈ partsOfBody stmts, P part) ↔ ∀ stmt ∈ stmts, ∀ part ∈ stmt.parts, P part := by
  induction stmts with
  | nil => simp [partsOfBody]
  | cons stmt rest ih => rw [partsOfBody, List.forall_mem_append, ih, List.forall_mem_cons]

theorem forall_partsOfBranches {branches : List (Branch Stmt)} :
    (∀ part ∈ partsOfBranches branches, P part) ↔ ∀ branch ∈ branches,
      (∀ part ∈ branch.cond.parts, P part) ∧ ∀ part ∈ partsOfBody branch.body, P part := by
  induction branches with
  | nil => simp [partsOfBranches]
  | cons branch rest ih =>
    rw [partsOfBranches, List.forall_mem_append, List.forall_mem_append, ih, List.forall_mem_cons]

mutual

theorem Stmt.parts_sublist (stmt : Stmt) {part : Expr} (h : part ∈ stmt.parts) :
    part.parts.Sublist stmt.parts := by
  cases stmt with
  | assign node target value =>
    exact parts_sublist_append (fun h => (Expr.designator target).parts_sublist h)
      (fun h => value.parts_sublist h) h
  | call node c => exact (Expr.call c).parts_sublist h
  | ite node branches otherwise =>
    cases otherwise with
    | none => exact parts_sublist_branches branches h
    | some body =>
      exact parts_sublist_append (fun h => parts_sublist_branches branches h)
        (fun h => parts_sublist_body body h) h
  | loop node cond body =>
    exact parts_sublist_append (fun h => cond.parts_sublist h)
      (fun h => parts_sublist_body body h) h
  | exit node => cases h
  | ret node value =>
    cases value with
    | none => cases h
    | some value => exact value.parts_sublist h

theorem parts_sublist_branches (branches : List (Branch Stmt)) {part : Expr}
    (h : part ∈ partsOfBranches branches) : part.parts.Sublist (partsOfBranches branches) := by
  cases branches with
  | nil => cases h
  | cons branch rest =>
    obtain ⟨node, cond, body⟩ := branch
    exact parts_sublist_append
      (parts_sublist_append (fun h => cond.parts_sublist h) fun h => parts_sublist_body body h)
      (fun h => parts_sublist_branches rest h) h

theorem parts_sublist_body (stmts : List Stmt) {part : Expr} (h : part ∈ partsOfBody stmts) :
    part.parts.Sublist (partsOfBody stmts) := by
  cases stmts with
  | nil => cases h
  | cons stmt rest =>
    exact parts_sublist_append (fun h => stmt.parts_sublist h)
      (fun h => parts_sublist_body rest h) h

end

mutual

def Stmt.ids : Stmt → List Nat
  | .assign node target value => (Expr.designator target).ids ++ value.ids ++ [node.id]
  | .call node c => (Expr.call c).ids ++ [node.id]
  | .ite node branches none => idsOfBranches branches ++ [node.id]
  | .ite node branches (some body) => idsOfBranches branches ++ idsOfBody body ++ [node.id]
  | .loop node cond body => cond.ids ++ idsOfBody body ++ [node.id]
  | .exit node => [node.id]
  | .ret node none => [node.id]
  | .ret node (some value) => value.ids ++ [node.id]

def idsOfBranches : List (Branch Stmt) → List Nat
  | [] => []
  | ⟨node, cond, body⟩ :: rest => cond.ids ++ idsOfBody body ++ [node.id] ++ idsOfBranches rest

def idsOfBody : List Stmt → List Nat
  | [] => []
  | stmt :: rest => stmt.ids ++ idsOfBody rest

end

def Branch.ids (b : Branch Stmt) : List Nat := b.cond.ids ++ idsOfBody b.body ++ [b.node.id]

theorem idsOfBranches_cons (b : Branch Stmt) (rest : List (Branch Stmt)) :
    idsOfBranches (b :: rest) = b.ids ++ idsOfBranches rest := rfl

theorem idsOfBody_append (front back : List Stmt) :
    idsOfBody (front ++ back) = idsOfBody front ++ idsOfBody back := by
  induction front with
  | nil => rfl
  | cons stmt rest ih => simp [idsOfBody, ih]

/-! ## Declarations -/

def idsOfVars (decls : List VarDecl) : List Nat := decls.map (·.node.id)

def Heading.ids (heading : Heading) : List Nat := idsOfVars heading.params ++ [heading.node.id]

def SubprogramDecl.ids : SubprogramDecl → List Nat
  | .forward node heading => heading.ids ++ [node.id]
  | .definition node heading vars body =>
    heading.ids ++ idsOfVars vars ++ idsOfBody body ++ [node.id]

def idsOfSubprograms (decls : List SubprogramDecl) : List Nat := decls.flatMap (·.ids)

def Program.ids (p : Program) : List Nat :=
  idsOfVars p.vars ++ idsOfSubprograms p.subprograms ++ idsOfBody p.body ++ [p.node.id]

/-! ## Fresh ids -/

/-- Distinct ids, all of them from `lo` on and below `hi`. -/
structure Fresh (lo hi : Nat) (ids : List Nat) : Prop where
  le : lo ≤ hi
  nodup : ids.Nodup
  range : ∀ id ∈ ids, lo ≤ id ∧ id < hi

namespace Fresh

variable {lo mid hi : Nat} {ids front back : List Nat}

protected theorem nil (h : lo ≤ hi) : Fresh lo hi [] := ⟨h, .nil, by simp⟩

theorem single (id : Nat) : Fresh id (id + 1) [id] := ⟨by omega, by simp, by simp⟩

theorem append (hfront : Fresh lo mid front) (hback : Fresh mid hi back) :
    Fresh lo hi (front ++ back) := by
  have hle := hfront.le
  have hle' := hback.le
  refine ⟨by omega, List.nodup_append.mpr ⟨hfront.nodup, hback.nodup, ?_⟩, ?_⟩
  · intro a ha b hb heq
    have hlt := (hfront.range a ha).2
    have hge := (hback.range b hb).1
    omega
  · intro id hid
    rcases List.mem_append.mp hid with hid | hid
    · have := hfront.range id hid
      omega
    · have := hback.range id hid
      omega

theorem perm (h : Fresh lo hi ids) (hperm : ids.Perm front) : Fresh lo hi front :=
  ⟨h.le, hperm.nodup_iff.mp h.nodup, fun id hid => h.range id (hperm.mem_iff.mpr hid)⟩

theorem of_append (h : Fresh lo hi (front ++ back)) : Fresh lo hi front :=
  ⟨h.le, h.nodup.of_append_left, fun id hid => h.range id (List.mem_append_left _ hid)⟩

end Fresh

end Oberlet
