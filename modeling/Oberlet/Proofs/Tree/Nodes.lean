import Oberlet.Proofs.Annotation.WriteOnce
import Oberlet.Proofs.Tree.Accepted

/-!
# The tree of the nodes

The ids of the nodes of a module can serve as indices: tables of facts about nodes keep any two
nodes apart. Not every id has a node. A name that stands alone as a statement is first read as a
variable, and the node of the variable is thrown away.
-/

namespace Oberlet

/-! ## Trees of nodes -/

/-- A node with the trees below it. -/
inductive NodeTree
  | mk (node : Node) (children : List NodeTree)
deriving Repr

namespace NodeTree

def node : NodeTree → Node
  | mk node _ => node

def children : NodeTree → List NodeTree
  | mk _ children => children

/-- A tree is part of another. -/
inductive Reaches (root : NodeTree) : NodeTree → Prop
  | root : Reaches root root
  | child {t child : NodeTree} : Reaches root t → child ∈ t.children → Reaches root child

mutual

def nodes : NodeTree → List Node
  | mk node children => nodesOfAll children ++ [node]

def nodesOfAll : List NodeTree → List Node
  | [] => []
  | t :: rest => t.nodes ++ nodesOfAll rest

end

theorem node_mem_nodes (t : NodeTree) : t.node ∈ t.nodes := by
  obtain ⟨node, children⟩ := t
  simp [nodes, NodeTree.node]

theorem nodes_subset_of_mem {t : NodeTree} {trees : List NodeTree} (h : t ∈ trees) :
    t.nodes ⊆ nodesOfAll trees := by
  induction trees with
  | nil => cases h
  | cons first rest ih =>
    rcases List.mem_cons.mp h with rfl | h
    · exact List.subset_append_left _ _
    · exact List.Subset.trans (ih h) (List.subset_append_right _ _)

theorem nodes_subset_of_child {t child : NodeTree} (h : child ∈ t.children) :
    child.nodes ⊆ t.nodes := by
  obtain ⟨node, children⟩ := t
  exact List.Subset.trans (nodes_subset_of_mem h) (List.subset_append_left _ _)

theorem Reaches.node_mem {root t : NodeTree} (h : root.Reaches t) : t.node ∈ root.nodes := by
  have hsubset : t.nodes ⊆ root.nodes := by
    induction h with
    | root => exact List.Subset.refl _
    | child _ hchild ih => exact List.Subset.trans (nodes_subset_of_child hchild) ih
  exact hsubset t.node_mem_nodes

def ids (t : NodeTree) : List Nat := t.nodes.map Node.id

def idsOfTrees (trees : List NodeTree) : List Nat := (nodesOfAll trees).map Node.id

@[simp] theorem ids_mk (node : Node) (children : List NodeTree) :
    (mk node children).ids = idsOfTrees children ++ [node.id] := by
  simp [ids, nodes, idsOfTrees]

@[simp] theorem idsOfTrees_nil : idsOfTrees [] = [] := rfl

@[simp] theorem idsOfTrees_cons (t : NodeTree) (rest : List NodeTree) :
    idsOfTrees (t :: rest) = t.ids ++ idsOfTrees rest :=
  List.map_append

@[simp] theorem idsOfTrees_append (front back : List NodeTree) :
    idsOfTrees (front ++ back) = idsOfTrees front ++ idsOfTrees back := by
  induction front with
  | nil => rfl
  | cons t rest ih => simp [ih]

end NodeTree

/-! ## The nodes of syntax trees -/

mutual

def Expr.tree : Expr → NodeTree
  | .literal node _ => ⟨node, []⟩
  | .paren node inner => ⟨node, [inner.tree]⟩
  | .not node operand => ⟨node, [operand.tree]⟩
  | .designator ⟨node, _, selectors⟩ => ⟨node, treesOfAll selectors⟩
  | .call ⟨node, _, args⟩ => ⟨node, treesOfAll args⟩
  | .comparison node left _ right => ⟨node, [left.tree, right.tree]⟩
  | .sum node _ first rest => ⟨node, first.tree :: treesOfChain rest⟩
  | .product node first rest => ⟨node, first.tree :: treesOfChain rest⟩

def treesOfAll : List Expr → List NodeTree
  | [] => []
  | e :: rest => e.tree :: treesOfAll rest

def treesOfChain : List (BinOp × Expr) → List NodeTree
  | [] => []
  | (_, e) :: rest => e.tree :: treesOfChain rest

end

mutual

def Stmt.tree : Stmt → NodeTree
  | .assign node target value => ⟨node, [(Expr.designator target).tree, value.tree]⟩
  | .call node c => ⟨node, [(Expr.call c).tree]⟩
  | .ite node branches none => ⟨node, treesOfBranches branches⟩
  | .ite node branches (some body) => ⟨node, treesOfBranches branches ++ treesOfBody body⟩
  | .loop node cond body => ⟨node, cond.tree :: treesOfBody body⟩
  | .exit node => ⟨node, []⟩
  | .ret node none => ⟨node, []⟩
  | .ret node (some value) => ⟨node, [value.tree]⟩

def treesOfBranches : List (Branch Stmt) → List NodeTree
  | [] => []
  | ⟨node, cond, body⟩ :: rest => ⟨node, cond.tree :: treesOfBody body⟩ :: treesOfBranches rest

def treesOfBody : List Stmt → List NodeTree
  | [] => []
  | stmt :: rest => stmt.tree :: treesOfBody rest

end

def VarDecl.tree (decl : VarDecl) : NodeTree := ⟨decl.node, []⟩

def Heading.tree (heading : Heading) : NodeTree :=
  ⟨heading.node, heading.params.map VarDecl.tree⟩

def SubprogramDecl.tree : SubprogramDecl → NodeTree
  | .forward node heading => ⟨node, [heading.tree]⟩
  | .definition node heading vars body =>
    ⟨node, heading.tree :: (vars.map VarDecl.tree ++ treesOfBody body)⟩

def Program.tree (p : Program) : NodeTree :=
  ⟨p.node, p.vars.map VarDecl.tree ++
    (p.subprograms.map SubprogramDecl.tree ++ treesOfBody p.body)⟩

/-! ## Their ids -/

mutual

theorem Expr.ids_tree (e : Expr) : e.tree.ids = e.ids := by
  cases e with
  | literal node value => rfl
  | paren node inner => simp [Expr.tree, inner.ids_tree]
  | not node operand => simp [Expr.tree, operand.ids_tree]
  | designator d =>
    obtain ⟨node, name, selectors⟩ := d
    simp [Expr.tree, ids_treesOfAll selectors]
  | call c =>
    obtain ⟨node, callee, args⟩ := c
    simp [Expr.tree, ids_treesOfAll args]
  | comparison node left op right => simp [Expr.tree, left.ids_tree, right.ids_tree]
  | sum node negate first rest => simp [Expr.tree, first.ids_tree, ids_treesOfChain rest]
  | product node first rest => simp [Expr.tree, first.ids_tree, ids_treesOfChain rest]

theorem ids_treesOfAll (es : List Expr) : NodeTree.idsOfTrees (treesOfAll es) = idsOfAll es := by
  cases es with
  | nil => rfl
  | cons e rest => simp [treesOfAll, e.ids_tree, ids_treesOfAll rest]

theorem ids_treesOfChain (chain : List (BinOp × Expr)) :
    NodeTree.idsOfTrees (treesOfChain chain) = idsOfChain chain := by
  cases chain with
  | nil => rfl
  | cons link rest =>
    obtain ⟨op, e⟩ := link
    simp [treesOfChain, e.ids_tree, ids_treesOfChain rest]

end

mutual

theorem Stmt.ids_tree (stmt : Stmt) : stmt.tree.ids = stmt.ids := by
  cases stmt with
  | assign node target value => simp [Stmt.tree, Stmt.ids, Expr.ids_tree]
  | call node c => simp [Stmt.tree, Stmt.ids, Expr.ids_tree]
  | ite node branches otherwise =>
    cases otherwise with
    | none => simp [Stmt.tree, Stmt.ids, ids_treesOfBranches branches]
    | some body =>
      simp [Stmt.tree, Stmt.ids, ids_treesOfBranches branches, ids_treesOfBody body]
  | loop node cond body => simp [Stmt.tree, Stmt.ids, Expr.ids_tree, ids_treesOfBody body]
  | exit node => rfl
  | ret node value => cases value <;> simp [Stmt.tree, Stmt.ids, Expr.ids_tree]

theorem ids_treesOfBranches (branches : List (Branch Stmt)) :
    NodeTree.idsOfTrees (treesOfBranches branches) = idsOfBranches branches := by
  cases branches with
  | nil => rfl
  | cons branch rest =>
    obtain ⟨node, cond, body⟩ := branch
    simp [treesOfBranches, idsOfBranches, Expr.ids_tree, ids_treesOfBody body,
      ids_treesOfBranches rest]

theorem ids_treesOfBody (body : List Stmt) :
    NodeTree.idsOfTrees (treesOfBody body) = idsOfBody body := by
  cases body with
  | nil => rfl
  | cons stmt rest => simp [treesOfBody, idsOfBody, stmt.ids_tree, ids_treesOfBody rest]

end

theorem ids_treesOfVars (decls : List VarDecl) :
    NodeTree.idsOfTrees (decls.map VarDecl.tree) = idsOfVars decls := by
  induction decls with
  | nil => rfl
  | cons decl rest ih => simpa [VarDecl.tree, idsOfVars] using ih

theorem SubprogramDecl.ids_tree (decl : SubprogramDecl) : decl.tree.ids = decl.ids := by
  cases decl with
  | forward node heading =>
    simp [SubprogramDecl.tree, SubprogramDecl.ids, Heading.tree, Heading.ids, ids_treesOfVars]
  | definition node heading vars body =>
    simp [SubprogramDecl.tree, SubprogramDecl.ids, Heading.tree, Heading.ids, ids_treesOfVars,
      ids_treesOfBody]

/-- The tree of nodes has the ids of the module. -/
theorem Program.ids_tree (p : Program) : p.tree.ids = p.ids := by
  have hsubprograms : NodeTree.idsOfTrees (p.subprograms.map SubprogramDecl.tree) =
      idsOfSubprograms p.subprograms := by
    induction p.subprograms with
    | nil => rfl
    | cons decl rest ih => simp [SubprogramDecl.ids_tree, ih, idsOfSubprograms]
  simp [Program.tree, Program.ids, ids_treesOfVars, hsubprograms, ids_treesOfBody]

/-! ## The last id -/

namespace Parser

variable {α β : Type}

/-- What the parser returns is related to where it stops. -/
def Stops (good : α → Cursor → Prop) (p : Parser α) : Prop :=
  ∀ c a c', p c = .ok (a, c') → good a c'

theorem Stops.bind {good : β → Cursor → Prop} {p : Parser α} {f : α → Parser β}
    (h : ∀ a, Stops good (f a)) : Stops good (p >>= f) := by
  intro c b c' hrun
  obtain ⟨a, mid, -, hrest⟩ := of_run_bind_eq_ok hrun
  exact h a mid b c' hrest

/-- The module has the id that was taken last, and counts the ids. -/
def Latest (p : Program) (c : Cursor) : Prop :=
  p.nodeCount = c.ids.count ∧ p.node.id + 1 = c.ids.count

/-- The module itself has the last id. -/
theorem program_stops (depth : Nat) : Stops Latest (program depth) := by
  have hlast (start : Span) (name : Ident) (vars : List VarDecl)
      (subprograms : List SubprogramDecl) (body : List Stmt) :
      Stops Latest (do
        let node ← node start
        return ⟨node, name, vars, subprograms, body, (← get).ids.count⟩) := by
    intro c p c' h
    cases h
    exact ⟨rfl, rfl⟩
  have hrest (start : Span) (name : Ident) (vars : List VarDecl)
      (subprograms : List SubprogramDecl) (body : List Stmt) :
      Stops Latest (do
        let _ ← want .endKw
        endName name
        let _ ← want .dot
        if (← kind) != .eof then reject
        let node ← node start
        return ⟨node, name, vars, subprograms, body, (← get).ids.count⟩) := by
    refine .bind fun _ => .bind fun _ => .bind fun _ => .bind fun k => ?_
    split
    · exact .bind fun _ => hlast _ _ _ _ _
    · exact hlast _ _ _ _ _
  refine .bind fun start => .bind fun name => .bind fun _ => .bind fun vars =>
    .bind fun subprograms => .bind fun k => ?_
  split
  · exact .bind fun _ => .bind fun body => hrest _ _ _ _ _
  · exact hrest _ _ _ _ _

end Parser

/-! ## Ids as indices -/

/-- Operations on one node and their answers are the same without the operations on another,
whatever the table holds. -/
def Annotations.Separates (n m : Node) : Prop :=
  ∀ (a : Annotations) (ops : List Op),
    (a.history (ops.filter fun op => op.node ≠ (n.id : Int))).filter
        (fun entry => entry.1.node = (m.id : Int)) =
      (a.history ops).filter fun entry => entry.1.node = (m.id : Int)

theorem Annotations.separates_of_ne {n m : Node} (h : n.id ≠ m.id) : Separates n m := by
  intro a ops
  rw [history_filter (fun id => id ≠ (n.id : Int)), List.filter_filter]
  refine List.filter_congr fun entry _ => ?_
  have hne : (m.id : Int) ≠ n.id := by omega
  grind

/-- The ids of a module can serve as indices. -/
structure Program.Numbered (p : Program) : Prop where
  /-- No two nodes have the same id. -/
  distinct : p.tree.nodes.Pairwise fun n m => n.id ≠ m.id
  /-- There is room for each of them in a table of as many entries as ids were taken. -/
  bounded : ∀ t, p.tree.Reaches t → 0 ≤ t.node.id ∧ t.node.id < p.nodeCount
  /-- The module has the last id. -/
  last : p.node.id + 1 = p.nodeCount
  /-- What is written to one node has no effect on another. -/
  separate : p.tree.nodes.Pairwise fun n m =>
    Annotations.Separates n m ∧ Annotations.Separates m n

/-- The ids of a module that was read can serve as indices. -/
theorem parsed_ids_are_indices {source : List Char} {p : Program}
    (h : Program.parse source = .ok p) : p.Numbered := by
  obtain ⟨c, c', hc, hrun⟩ := TokenStream.ofTokens_ok_iff.mp h
  obtain ⟨hcount, hlast⟩ := Parser.program_stops _ c p c' hrun
  obtain ⟨-, hfresh⟩ := Parser.program_builds _ c p c' hrun
  obtain ⟨-, hnodup, hrange⟩ := hfresh c.ids.count (.nil (Nat.le_refl _))
  have hdistinct : p.tree.nodes.Pairwise fun n m => n.id ≠ m.id := by
    rw [← p.ids_tree] at hnodup
    exact List.pairwise_map.mp hnodup
  refine ⟨hdistinct, fun t ht => ⟨Nat.zero_le _, ?_⟩, hlast.trans hcount.symm, ?_⟩
  · have hid : t.node.id ∈ p.ids := p.ids_tree ▸ List.mem_map_of_mem ht.node_mem
    exact hcount ▸ (hrange _ hid).2
  · exact hdistinct.imp fun hne =>
      ⟨Annotations.separates_of_ne hne, Annotations.separates_of_ne hne.symm⟩

/-- A module with a call that is a name alone. -/
def bareCallText : List Char :=
  ("MODULE M; VAR x, y: INTEGER; PROCEDURE P(a: REAL); VAR b: REAL; BEGIN b := -a * 2.5 END P;" ++
    "BEGIN P; WHILE x < y DO x := x + 1; IF ~TRUE THEN EXIT ELSE RETURN END END END M.").toList

theorem bareCallText_ids : ∃ p, Program.parse bareCallText = .ok p ∧
    p.tree.nodes.length < p.nodeCount ∧ p.Numbered := by
  have hok : (Program.parse bareCallText).toOption.map
      (fun p => decide (p.tree.nodes.length < p.nodeCount)) = some true := by decide +kernel
  obtain ⟨p, hp, hlt⟩ := Option.map_eq_some_iff.mp hok
  have hparse := eq_ok_of_toOption hp
  exact ⟨p, hparse, of_decide_eq_true hlt, parsed_ids_are_indices hparse⟩

end Oberlet
