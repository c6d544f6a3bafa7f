import TabnasExpr.Lib.Stored
import TabnasExpr.Op

/-!
# The expression nodes of the TypeScript port

An expression node is a JavaScript array `[op, term, ...]`, held by identity: a rule that holds a
node sees every rewrite of it.  An array with no operator at its head is a plain list.
-/

namespace TabnasExpr.Ts

open OpTree OpTree.Tree

variable {α : Type*}

/-- A node: its operator, if it is an expression, and its terms. -/
structure Node (α : Type*) where
  op : Option Op
  terms : List (Val α)
  deriving DecidableEq

/-- The arrays of a parse. -/
abbrev Heap (α : Type*) := Store (Node α)

variable (h : Heap α)

/-- The operator at the head of a node. -/
def opOf (i : ℕ) : Option Op := (h.cell i).bind Node.op

/-- The node a value refers to, with its operator, when the value is an expression (`isOp`). -/
def opAt : Val α → Option (ℕ × Op)
  | .node i => (opOf h i).map (i, ·)
  | _ => none

/-- An operand the descent of an operator stops at: no expression, or a closed paren node that binds
at least as tightly. -/
def Sealed (op : Op) (v : Val α) : Prop :=
  ∀ q ∈ opAt h v, q.2.kind = .parenOp ∧ op.left ≤ q.2.right

/-- `expr[k]`, for `k` at least one. -/
def term (i k : ℕ) : Val α :=
  match h.cell i with
  | some n => n.terms.getD (k - 1) .undefined
  | none => .undefined

/-- Assignment to an element of an array, which extends the array when the element is past its end. -/
def setAt (vs : List (Val α)) (k : ℕ) (v : Val α) : List (Val α) :=
  if k < vs.length then vs.set k v else vs ++ List.replicate (k - vs.length) .undefined ++ [v]

/-- `expr[k] = v`, for `k` at least one. -/
def setTerm (i k : ℕ) (v : Val α) : Heap α :=
  h.modify i fun n => { n with terms := setAt n.terms (k - 1) v }

/-- `expr.push(v)`. -/
def push (i : ℕ) (v : Val α) : Heap α := h.modify i fun n => { n with terms := n.terms ++ [v] }

/-- `updateExprNode([], op, ...terms)`: a new node. -/
def newNode (op : Op) (terms : List (Val α)) : Heap α × ℕ := h.alloc ⟨some op, terms⟩

/-- `updateExprNode(node, op, ...terms)`: the node keeps its identity and has these terms only. -/
def updateExprNode (i : ℕ) (op : Op) (terms : List (Val α)) : Heap α :=
  h.modify i fun _ => ⟨some op, terms⟩

/-- `dupNode(node)`: a shallow copy. -/
def dupNode (i : ℕ) : Heap α × ℕ := h.alloc ((h.cell i).getD ⟨none, []⟩)

/-- Embed an operator into the expression headed by a node, in place, and give the node its next term
belongs to.  The descent goes from a node to one of its terms, and `fuel` bounds it. -/
def prattifyFrom : ℕ → Heap α → ℕ → Op → Option (Heap α × ℕ)
  | 0, _, _, _ => none
  | fuel + 1, h, expr, op =>
    match opOf h expr with
    | none => none
    | some exprOp =>
      match op.kind with
      | .infixOp =>
        -- op is lower
        if exprOp.kind = .suffixOp ∨ op.left ≤ exprOp.right then
          let (h, dup) := dupNode h expr
          some (updateExprNode h expr op [.node dup], expr)
        -- op is higher
        else
          let last := term h expr exprOp.terms
          match (opAt h last).filter fun q => q.2.right < op.left with
          | some (i, _) => prattifyFrom fuel h i op
          | none =>
            let (h, out) := newNode h op [last]
            some (setTerm h expr exprOp.terms (.node out), out)
      | .prefixOp =>
        let (h, out) := newNode h op []
        some (setTerm h expr exprOp.terms (.node out), out)
      | .suffixOp =>
        if exprOp.kind ≠ .suffixOp ∧ exprOp.right ≤ op.left then
          let last := term h expr exprOp.terms
          -- higher precedence suffix drills into lower precedence prefixes
          match (opAt h last).filter fun q => q.2.kind = .prefixOp ∧ q.2.right < op.left with
          | some (i, _) => (prattifyFrom fuel h i op).map fun r => (r.1, expr)
          | none =>
            let (h, out) := newNode h op [last]
            some (setTerm h expr exprOp.terms (.node out), expr)
        else
          let (h, dup) := dupNode h expr
          some (updateExprNode h expr op [.node dup], expr)
      | _ => some (h, expr)

/-- `prattify(expr, op)`.  A path through the nodes of a finite tree is no longer than there are
nodes. -/
def prattify (h : Heap α) (expr : ℕ) (op : Op) : Option (Heap α × ℕ) :=
  prattifyFrom (h.last + 1) h expr op

/-- The node that the descent of an operator goes on to from a node, if it goes on. -/
def below (h : Heap α) (op : Op) (expr : ℕ) : Option ℕ :=
  match opOf h expr with
  | none => none
  | some exprOp =>
    match op.kind with
    | .infixOp =>
      if exprOp.kind = .suffixOp ∨ op.left ≤ exprOp.right then none
      else ((opAt h (term h expr exprOp.terms)).filter fun q => q.2.right < op.left).map Prod.fst
    | .suffixOp =>
      if exprOp.kind ≠ .suffixOp ∧ exprOp.right ≤ op.left then
        ((opAt h (term h expr exprOp.terms)).filter fun q =>
          q.2.kind = .prefixOp ∧ q.2.right < op.left).map Prod.fst
      else none
    | _ => none

/-- The nodes that the descent of an operator goes through. -/
def descent (h : Heap α) (op : Op) : ℕ → ℕ → List ℕ
  | 0, expr => [expr]
  | fuel + 1, expr => expr :: (below h op expr).elim [] (descent h op fuel)

/-- How an expression tree over the values the engine handed in lies in the heap. -/
def layout : Layout Op (Val α) (Val α) (Node α) where
  ref := .node
  atom := id
  due := []
  cell o vs := ⟨some o, vs⟩

@[simp] theorem layout_ref (i : ℕ) :
    (layout : Layout Op (Val α) (Val α) (Node α)).ref i = .node i := rfl

@[simp] theorem layout_due : (layout : Layout Op (Val α) (Val α) (Node α)).due = [] := rfl

@[simp] theorem slots_hole : layout.slots (hole : Tree (ℕ × Op) (Val α)) = [] := rfl

@[simp] theorem layout_cell (o : Op) (vs : List (Val α)) : layout.cell o vs = ⟨some o, vs⟩ := rfl

end TabnasExpr.Ts
