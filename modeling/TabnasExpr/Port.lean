import TabnasExpr.Rust.Arena
import TabnasExpr.Ts.Read

/-!
# The two ports that rewrite nodes in place

TypeScript and Rust run the same algorithm on their own stores.  A `Port` is such a store with the
operations the rule actions use and the heap it is read as, on which its operations are those of the
TypeScript port; `Lang.port` gives the two there are.
-/

namespace TabnasExpr

open OpTree OpTree.Tree

universe u

variable {α : Type u}

/-- A store of expression nodes, with the operations of the rule actions. -/
structure Port (α : Type u) where
  State : Type u
  /-- The store read as a heap. -/
  heap : State → Ts.Heap α
  newNode : State → Op → List (Val α) → State × Val α
  push : State → Val α → Val α → State
  prattify : State → Val α → Op → Option (State × Val α)
  dupNode : State → Val α → State × Val α
  updateExprNode : State → Val α → Op → List (Val α) → State
  heap_newNode : ∀ s op vs, heap (newNode s op vs).1 = (Ts.newNode (heap s) op vs).1
  newNode_snd : ∀ s op vs, (newNode s op vs).2 = .node (Ts.newNode (heap s) op vs).2
  heap_push : ∀ s i v, heap (push s (.node i) v) = Ts.push (heap s) i v
  heap_prattify : ∀ s i q op, Ts.opOf (heap s) i = some q →
    (prattify s (.node i) op).map (fun r => (heap r.1, r.2)) =
      (Ts.prattify (heap s) i op).map fun r => (r.1, .node r.2)
  heap_dupNode : ∀ s i q, Ts.opOf (heap s) i = some q →
    heap (dupNode s (.node i)).1 = (Ts.dupNode (heap s) i).1 ∧
      (dupNode s (.node i)).2 = .node (Ts.dupNode (heap s) i).2
  heap_updateExprNode : ∀ s i op vs,
    heap (updateExprNode s (.node i) op vs) = Ts.updateExprNode (heap s) i op vs

/-- The ports that rewrite their nodes in place. -/
inductive Lang where
  | typescript
  | rust
  deriving DecidableEq, Repr

/-- The TypeScript port: a node is an array, and a value that is no node has no operator to read. -/
def Ts.port : Port α where
  State := Ts.Heap α
  heap := id
  newNode h op vs := ((Ts.newNode h op vs).1, .node (Ts.newNode h op vs).2)
  push h node v :=
    match node with
    | .node i => Ts.push h i v
    | _ => h
  prattify h expr op :=
    match expr with
    | .node i => (Ts.prattify h i op).map fun r => (r.1, .node r.2)
    | _ => none
  dupNode h node :=
    match node with
    | .node i => ((Ts.dupNode h i).1, .node (Ts.dupNode h i).2)
    | _ => (h, node)
  updateExprNode h node op vs :=
    match node with
    | .node i => Ts.updateExprNode h i op vs
    | _ => h
  heap_newNode _ _ _ := rfl
  newNode_snd _ _ _ := rfl
  heap_push _ _ _ := rfl
  heap_prattify h i q op _ := by rw [Option.map_map]; rfl
  heap_dupNode _ _ _ _ := ⟨rfl, rfl⟩
  heap_updateExprNode _ _ _ _ := rfl

/-- The Rust port. -/
def Rust.port : Port α where
  State := Rust.Arena α
  heap := Rust.forget
  newNode a op vs := Rust.newNode a (some op) vs
  push := Rust.pushTerm
  prattify := Rust.prattify
  dupNode := Rust.dupNode
  updateExprNode a node op vs := Rust.updateExprNode a node (some op) vs
  heap_newNode _ op vs := Rust.forget_newNodeUnder (some op) vs none
  newNode_snd _ _ _ := rfl
  heap_push _ i v := Rust.forget_pushTerm i v
  heap_prattify _ _ _ _ h := Rust.forget_prattify h
  heap_dupNode _ _ _ h := Rust.forget_dupNode h
  heap_updateExprNode _ i op vs := Rust.forget_updateExprNode i op vs

/-- The store of a port. -/
def Lang.port : Lang → Port α
  | .typescript => Ts.port
  | .rust => Rust.port

/-- The store with no nodes. -/
def Lang.start : (lang : Lang) → (lang.port (α := α)).State
  | .typescript => (Store.empty : Ts.Heap α)
  | .rust => (⟨Store.empty, false⟩ : Rust.Arena α)

namespace Port

open Ts (Sealed)

variable (P : Port α) {s : P.State} {t y : Tree (ℕ × Op) (Val α)} {p : ℕ × Op} {op : Op} {d i : ℕ}

theorem prattify_of_heap {q : Op} (hq : Ts.opOf (P.heap s) i = some q) {h' : Ts.Heap α} {out : ℕ}
    (h : Ts.prattify (P.heap s) i op = some (h', out)) :
    ∃ s', P.prattify s (.node i) op = some (s', .node out) ∧ P.heap s' = h' := by
  have := P.heap_prattify s i q op hq
  rw [h, Option.map_some, Option.map_eq_some_iff] at this
  obtain ⟨⟨s', v⟩, hs, e⟩ := this
  obtain ⟨hh, hv⟩ := Prod.mk.inj e
  exact ⟨s', hs.trans (congrArg (fun v => some (s', v)) hv), hh⟩

/-- An infix operator is attached at the right edge, and its own node is handed back, waiting for its
right operand. -/
theorem prattify_infix (ht : Held Ts.layout (P.heap s) t) (hp : rootOp t = some p) (hc : Complete t)
    (hk : Kinded (erase t)) (hop : op.kind = .infixOp)
    (hs : Leaves (Sealed (P.heap s) op) (erase t))
    (hle : op.left ≤ maxSafeInteger ∨ NoParen (erase t)) :
    ∃ s' t' out, P.prattify s (.node p.1) op = some (s', .node out) ∧
      Rewrites Ts.layout (P.heap s) (P.heap s') [] t t' ∧ erase t' = attach op (erase t) ∧
      DueAt (attachDepth op (erase t)) out t' := by
  obtain ⟨h', t', out, hr, hrw, he, l, hd⟩ := Ts.prattify_infix ht hp hc hk.slotted hop
    (Ts.stopsInfix_of_sealed hs) hle
  obtain ⟨s', hs', rfl⟩ := P.prattify_of_heap (Ts.opOf_root ht.stores hp) hr
  exact ⟨s', t', out, hs', hrw, he, Ts.dueAt_of_attach hc hop he hd⟩

/-- A prefix operator fills the operand that is due. -/
theorem prattify_prefix (ht : Held Ts.layout (P.heap s) t) (hd : DueAt d i t)
    (hop : op.kind = .prefixOp) :
    ∃ s' out, P.prattify s (.node i) op = some (s', .node out) ∧
      Rewrites Ts.layout (P.heap s) (P.heap s') [] t (fill (pre (out, op) hole) t) ∧
      DueAt (d + 1) out (fill (pre (out, op) hole) t) := by
  obtain ⟨h', hr, hrw, hdue⟩ := Ts.prattify_prefix ht hd hop
  obtain ⟨q, l?, rfl, -, -, he⟩ := hd
  have hu : Held Ts.layout (P.heap s) (spine q l? hole) := he ▸ ht.edgeAt
  obtain ⟨s', hs', rfl⟩ := P.prattify_of_heap
    (Ts.opOf_root hu.stores (p := q) (by cases l? <;> rfl)) hr
  exact ⟨s', _, hs', hrw, hdue⟩

/-- A suffix operator goes where `suffixAt` puts it, and the node given is handed back. -/
theorem prattify_suffix (ht : Held Ts.layout (P.heap s) t) (hp : rootOp t = some p) (hc : Complete t)
    (hk : Kinded (erase t)) (hop : op.kind = .suffixOp)
    (hs : Leaves (Sealed (P.heap s) op) (erase t))
    (hlt : op.left < maxSafeInteger ∨ NoParen (erase t)) :
    ∃ s' t', P.prattify s (.node p.1) op = some (s', .node p.1) ∧
      Rewrites Ts.layout (P.heap s) (P.heap s') [] t t' ∧ erase t' = suffixAt op (erase t) := by
  obtain ⟨h', t', hr, hrw, he⟩ := Ts.prattify_suffix ht hp hc hk.slotted hop
    (Ts.stopsSuffix_of_sealed hs) hlt
  obtain ⟨s', hs', rfl⟩ := P.prattify_of_heap (Ts.opOf_root ht.stores hp) hr
  exact ⟨s', t', hs', hrw, he.trans (suffixFlat_eq hk)⟩

/-- An operand pushed onto the node that waits for it fills the tree. -/
theorem rewrites_push (ht : Held Ts.layout (P.heap s) t) (hd : DueAt d i t) (v : Val α) :
    Rewrites Ts.layout (P.heap s) (P.heap (P.push s (.node i) v)) [] t (fill (leaf v) t) := by
  rw [P.heap_push]
  exact Ts.rewrites_push ht hd (held_leaf v) trivial (fun _ hj => absurd hj List.not_mem_nil)

end Port

end TabnasExpr
