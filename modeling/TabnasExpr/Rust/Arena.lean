import TabnasExpr.Ts.Heap

/-!
# The expression arena of the Rust port

The Rust port keeps its expression nodes in an arena and passes handles around.  A node records the
root of the expression it belongs to, and a root counts the nodes of its expression, which bounds the
size of what the parser builds (`NODE_LIMIT`).  Apart from that bookkeeping a node holds what the
array of the TypeScript port does, and `forget` reads an arena as such a heap: every primitive
commutes with it.
-/

namespace TabnasExpr.Rust

open OpTree

variable {α : Type*}

/-- The most nodes one expression may hold. -/
def NODE_LIMIT : ℕ := 127

/-- One expression node. -/
structure ExprNode (α : Type*) where
  op : Option Op
  terms : List (Val α)
  root : ℕ
  size : ℕ
  deriving DecidableEq

/-- The nodes of a thread, and whether an expression has outgrown `NODE_LIMIT`. -/
structure Arena (α : Type*) where
  nodes : Store (ExprNode α)
  overLimit : Bool

variable (a : Arena α)

/-- Read a handle's node identity. -/
def nodeId : Val α → Option ℕ
  | .node i => some i
  | _ => none

/-- The operator heading an expression node. -/
def opOf (v : Val α) : Option Op := ((nodeId v).bind a.nodes.cell).bind ExprNode.op

/-- The identity of the expression a node belongs to. -/
def rootId (v : Val α) : Option ℕ := ((nodeId v).bind a.nodes.cell).map ExprNode.root

/-- Rewrite a node, when the value is a handle and the arena holds it. -/
def withNodeMut (v : Val α) (write : ExprNode α → ExprNode α) : Arena α :=
  match nodeId v with
  | some i => { a with nodes := a.nodes.modify i write }
  | none => a

/-- Count more nodes against the expression a node belongs to, and record it when the expression has
outgrown `NODE_LIMIT`. -/
def grow (node : Val α) (count : ℕ) : Arena α :=
  match rootId a node with
  | none => a
  | some r =>
    match a.nodes.cell r with
    | none => a
    | some entry =>
      { nodes := a.nodes.modify r fun n => { n with size := n.size + count }
        overLimit := a.overLimit || decide (NODE_LIMIT < entry.size + count) }

/-- The size of the expression a node belongs to. -/
def expressionSize (node : Val α) : ℕ :=
  match (rootId a node).bind a.nodes.cell with
  | some entry => entry.size
  | none => 0

/-- Account for a term taken into an expression. -/
def adopt (container term : Val α) : Arena α :=
  match rootId a container, rootId a term with
  | some into, some from' =>
    if into = from' then a else grow a container (expressionSize a term)
  | _, _ => a

def adoptAll (container : Val α) (terms : List (Val α)) : Arena α :=
  terms.foldl (fun a term => adopt a container term) a

/-- Allocate a node and return its handle; `under` is the expression it is built inside, if any. -/
def newNodeUnder (op : Option Op) (terms : List (Val α)) (under : Option (Val α)) :
    Arena α × Val α :=
  let inherited := under.bind (rootId a)
  let id := a.nodes.last + 1
  let a : Arena α :=
    { a with nodes := (a.nodes.alloc ⟨op, terms, inherited.getD id, 1⟩).1 }
  let a := if under.isSome then grow a (.node id) 1 else a
  (adoptAll a (.node id) terms, .node id)

def newNode (op : Option Op) (terms : List (Val α)) : Arena α × Val α :=
  newNodeUnder a op terms none

/-- Rewrite a node in place and truncate it to the supplied terms. -/
def updateExprNode (node : Val α) (op : Option Op) (terms : List (Val α)) : Arena α :=
  withNodeMut (adoptAll a node terms) node fun n => { n with op := op, terms := terms }

/-- A shallow copy with its own identity. -/
def dupNode (node : Val α) : Arena α × Val α :=
  match (nodeId node).bind a.nodes.cell with
  | some n => newNodeUnder a n.op n.terms (some node)
  | none => (a, node)

/-- `expr[index]`, where index 1 is the first term. -/
def termAt (node : Val α) (index : ℕ) : Val α :=
  match (nodeId node).bind a.nodes.cell with
  | some n => n.terms.getD (index - 1) .undefined
  | none => .undefined

/-- `expr[index] = value`, extending the node when the slot is past its end. -/
def setTerm (node : Val α) (index : ℕ) (value : Val α) : Arena α :=
  withNodeMut (adopt a node value) node fun n =>
    { n with terms := Ts.setAt n.terms (index - 1) value }

/-- `expr.push(value)`. -/
def pushTerm (node : Val α) (value : Val α) : Arena α :=
  withNodeMut (adopt a node value) node fun n => { n with terms := n.terms ++ [value] }

/-- Embed a new operator into an expression tree, in place. -/
def prattifyFrom : ℕ → Arena α → Val α → Op → Option (Arena α × Val α)
  | 0, _, _, _ => none
  | fuel + 1, a, expr, op =>
    match opOf a expr with
    | none => some (a, expr)
    | some exprOp =>
      match op.kind with
      | .infixOp =>
        if exprOp.kind = .suffixOp ∨ op.left ≤ exprOp.right then
          let (a, prior) := dupNode a expr
          some (updateExprNode a expr (some op) [prior], expr)
        else
          let last := termAt a expr exprOp.terms
          if (opOf a last).any fun lastOp => lastOp.right < op.left then
            prattifyFrom fuel a last op
          else
            let (a, out) := newNodeUnder a (some op) [last] (some expr)
            some (setTerm a expr exprOp.terms out, out)
      | .prefixOp =>
        let (a, out) := newNodeUnder a (some op) [] (some expr)
        some (setTerm a expr exprOp.terms out, out)
      | .suffixOp =>
        if exprOp.kind ≠ .suffixOp ∧ exprOp.right ≤ op.left then
          let last := termAt a expr exprOp.terms
          if (opOf a last).any fun lastOp => lastOp.kind = .prefixOp ∧ lastOp.right < op.left then
            (prattifyFrom fuel a last op).map fun r => (r.1, expr)
          else
            let (a, out) := newNodeUnder a (some op) [last] (some expr)
            some (setTerm a expr exprOp.terms out, expr)
        else
          let (a, prior) := dupNode a expr
          some (updateExprNode a expr (some op) [prior], expr)
      | _ => some (a, expr)

/-- `prattify`, its descent bounded by the number of nodes handed out. -/
def prattify (a : Arena α) (expr : Val α) (op : Op) : Option (Arena α × Val α) :=
  prattifyFrom (a.nodes.last + 1) a expr op

/-! ## The arena read as a heap -/

/-- A node without its bookkeeping. -/
def ExprNode.forget (n : ExprNode α) : Ts.Node α := ⟨n.op, n.terms⟩

/-- The arena as a heap of nodes. -/
def forget (a : Arena α) : Ts.Heap α := a.nodes.map ExprNode.forget

variable {a}

@[simp] theorem last_forget : (forget a).last = a.nodes.last := rfl

theorem cell_forget (i : ℕ) : (forget a).cell i = (a.nodes.cell i).map ExprNode.forget := rfl

@[simp] theorem forget_grow (node : Val α) (count : ℕ) : forget (grow a node count) = forget a := by
  unfold grow
  split
  · rfl
  · split
    · rfl
    · exact Store.map_modify_of_same fun _ => rfl

@[simp] theorem forget_adopt (container term : Val α) :
    forget (adopt a container term) = forget a := by
  unfold adopt
  split
  · split_ifs
    · rfl
    · exact forget_grow _ _
  · rfl

@[simp] theorem forget_adoptAll (container : Val α) (terms : List (Val α)) :
    forget (adoptAll a container terms) = forget a := by
  unfold adoptAll
  induction terms generalizing a with
  | nil => rfl
  | cons t ts ih => rw [List.foldl_cons, ih, forget_adopt]

theorem opOf_node (i : ℕ) : opOf a (.node i) = Ts.opOf (forget a) i := by
  simp only [opOf, nodeId, Option.bind_some, Ts.opOf, cell_forget]
  cases a.nodes.cell i <;> rfl

theorem opOf_eq_opAt (v : Val α) : opOf a v = (Ts.opAt (forget a) v).map Prod.snd := by
  cases v with
  | undefined | atom => rfl
  | node i =>
    rw [opOf_node, Ts.opAt]
    cases Ts.opOf (forget a) i <;> rfl

theorem newNodeUnder_snd (op : Option Op) (terms : List (Val α)) (under : Option (Val α)) :
    (newNodeUnder a op terms under).2 = .node (a.nodes.last + 1) := rfl

theorem forget_newNodeUnder (op : Option Op) (terms : List (Val α)) (under : Option (Val α)) :
    forget (newNodeUnder a op terms under).1 = ((forget a).alloc ⟨op, terms⟩).1 := by
  simp only [newNodeUnder, forget_adoptAll]
  split_ifs
  · rw [forget_grow]
    exact Store.map_alloc _
  · exact Store.map_alloc _

theorem forget_updateExprNode (i : ℕ) (op : Op) (terms : List (Val α)) :
    forget (updateExprNode a (.node i) (some op) terms) =
      Ts.updateExprNode (forget a) i op terms := by
  have h := forget_adoptAll (a := a) (.node i) terms
  simp only [updateExprNode, withNodeMut, nodeId, Ts.updateExprNode, ← h]
  exact Store.map_modify fun _ => rfl

theorem termAt_node (i k : ℕ) : termAt a (.node i) k = Ts.term (forget a) i k := by
  simp only [termAt, nodeId, Option.bind_some, Ts.term, cell_forget]
  cases a.nodes.cell i <;> rfl

theorem forget_setTerm (i k : ℕ) (v : Val α) :
    forget (setTerm a (.node i) k v) = Ts.setTerm (forget a) i k v := by
  have h := forget_adopt (a := a) (.node i) v
  simp only [setTerm, withNodeMut, nodeId, Ts.setTerm, ← h]
  exact Store.map_modify fun _ => rfl

theorem forget_pushTerm (i : ℕ) (v : Val α) :
    forget (pushTerm a (.node i) v) = Ts.push (forget a) i v := by
  have h := forget_adopt (a := a) (.node i) v
  simp only [pushTerm, withNodeMut, nodeId, Ts.push, ← h]
  exact Store.map_modify fun _ => rfl

theorem forget_dupNode {i : ℕ} {q : Op} (h : Ts.opOf (forget a) i = some q) :
    forget (dupNode a (.node i)).1 = (Ts.dupNode (forget a) i).1 ∧
      (dupNode a (.node i)).2 = .node (Ts.dupNode (forget a) i).2 := by
  cases hc : a.nodes.cell i with
  | none => simp [Ts.opOf, cell_forget, hc] at h
  | some n =>
    simp [dupNode, nodeId, hc, Ts.dupNode, cell_forget, forget_newNodeUnder, newNodeUnder_snd,
      ExprNode.forget]

/-- The test for going down to a term finds the node the heap's test does. -/
theorem filter_opAt (v : Val α) (f : Op → Bool) :
    (opOf a v).any f = true ∧ (∃ i q, v = .node i ∧ Ts.opOf (forget a) i = some q ∧
        (Ts.opAt (forget a) v).filter (fun q => f q.2) = some (i, q)) ∨
      (opOf a v).any f = false ∧ (Ts.opAt (forget a) v).filter (fun q => f q.2) = none := by
  rw [opOf_eq_opAt]
  cases v with
  | undefined | atom => exact Or.inr ⟨rfl, rfl⟩
  | node i =>
    cases hq : Ts.opOf (forget a) i with
    | none => simp [Ts.opAt, hq]
    | some q =>
      cases hf : f q with
      | true => simp [Ts.opAt, hq, hf]
      | false => simp [Ts.opAt, hq, hf]

/-- Going around a node: the copy and the rewrite. -/
theorem forget_wrap {i : ℕ} {q op : Op} (h : Ts.opOf (forget a) i = some q) :
    forget (updateExprNode (dupNode a (.node i)).1 (.node i) (some op) [(dupNode a (.node i)).2]) =
      Ts.updateExprNode (Ts.dupNode (forget a) i).1 i op [.node (Ts.dupNode (forget a) i).2] := by
  obtain ⟨h₁, h₂⟩ := forget_dupNode h
  rw [forget_updateExprNode, h₁, h₂]

/-- A new node in the place of a term. -/
theorem forget_insert (i k : ℕ) (op : Op) (terms : List (Val α)) :
    forget (setTerm (newNodeUnder a (some op) terms (some (.node i))).1 (.node i) k
        (newNodeUnder a (some op) terms (some (.node i))).2) =
      Ts.setTerm (Ts.newNode (forget a) op terms).1 i k (.node (Ts.newNode (forget a) op terms).2) := by
  rw [forget_setTerm, forget_newNodeUnder, newNodeUnder_snd]
  rfl

/-- `prattify` on the arena is `prattify` on the heap it is read as. -/
theorem forget_prattifyFrom {fuel i : ℕ} {q op : Op} (h : Ts.opOf (forget a) i = some q) :
    (prattifyFrom fuel a (.node i) op).map (fun r => (forget r.1, r.2)) =
      (Ts.prattifyFrom fuel (forget a) i op).map fun r => (r.1, .node r.2) := by
  induction fuel generalizing i q with
  | zero => rfl
  | succ fuel ih =>
    simp only [prattifyFrom, Ts.prattifyFrom, opOf_node, h, termAt_node]
    cases op.kind with
    | infixOp =>
      dsimp only
      split_ifs with hw hany
      · simp only [Option.map_some, forget_wrap h]
      · obtain ⟨-, j, r, hv, hr, hf⟩ | ⟨hn, -⟩ := filter_opAt
          (a := a) (Ts.term (forget a) i q.terms) fun r => decide (r.right < op.left)
        · rw [hf, hv]
          exact ih hr
        · rw [hn] at hany
          cases hany
      · obtain ⟨hy, -⟩ | ⟨-, hf⟩ := filter_opAt
          (a := a) (Ts.term (forget a) i q.terms) fun r => decide (r.right < op.left)
        · exact absurd hy hany
        · rw [hf]
          simp only [Option.map_some, forget_insert]
          rfl
    | prefixOp =>
      simp only [Option.map_some, forget_insert]
      rfl
    | suffixOp =>
      dsimp only
      split_ifs with hw hany
      · obtain ⟨-, j, r, hv, hr, hf⟩ | ⟨hn, -⟩ := filter_opAt (a := a)
          (Ts.term (forget a) i q.terms) fun r => decide (r.kind = .prefixOp ∧ r.right < op.left)
        · rw [hf, hv]
          have := congrArg (Option.map fun r => (r.1, (.node i : Val α))) (ih hr)
          rw [Option.map_map, Option.map_map] at this ⊢
          exact this
        · rw [hn] at hany
          cases hany
      · obtain ⟨hy, -⟩ | ⟨-, hf⟩ := filter_opAt (a := a)
          (Ts.term (forget a) i q.terms) fun r => decide (r.kind = .prefixOp ∧ r.right < op.left)
        · exact absurd hy hany
        · rw [hf]
          simp only [Option.map_some, forget_insert]
      · simp only [Option.map_some, forget_wrap h]
    | ternaryOp | parenOp => rfl

theorem forget_prattify {i : ℕ} {q op : Op} (h : Ts.opOf (forget a) i = some q) :
    (prattify a (.node i) op).map (fun r => (forget r.1, r.2)) =
      (Ts.prattify (forget a) i op).map fun r => (r.1, .node r.2) :=
  forget_prattifyFrom h

end TabnasExpr.Rust
