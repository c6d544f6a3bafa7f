import TabnasExpr.Lib.Stored
import TabnasExpr.Op

/-!
# The expression boxes of the Go port

The Go port keeps an expression in a box that every rule holds by pointer, and allocates a slot for
each operand ahead of time: a slot not filled yet holds a sentinel.  The rules track the root box
only, and `fillNextSlot` finds the slot an operand belongs to.
-/

namespace TabnasExpr.Go

open OpTree OpTree.Tree

variable {α : Type*}

/-- An element of a box: the sentinel of an unfilled slot, or a value. -/
inductive Slot (α : Type*) where
  | unfilled
  | val (v : Val α)
  deriving DecidableEq

def Slot.isUnfilled : Slot α → Bool
  | .unfilled => true
  | .val _ => false

/-- The slice a box points to: the operator at its head, if it is an expression, and the rest. -/
structure Box (α : Type*) where
  op : Option Op
  slots : List (Slot α)
  deriving DecidableEq

/-- The boxes of a parse. -/
abbrev Heap (α : Type*) := Store (Box α)

variable (h : Heap α)

/-- The operator heading a box. -/
def opOf (i : ℕ) : Option Op := (h.cell i).bind Box.op

/-- The box a value refers to, with its operator, when the value is an expression (`isOp`). -/
def opAt : Val α → Option (ℕ × Op)
  | .node i => (opOf h i).map (i, ·)
  | _ => none

/-- The box an element refers to, with its operator. -/
def opAtSlot : Slot α → Option (ℕ × Op)
  | .unfilled => none
  | .val v => opAt h v

/-- The slots of a new expression: the terms given, and the rest unfilled. -/
def makeSlots (op : Op) (terms : List (Slot α)) : List (Slot α) :=
  (terms ++ List.replicate (op.terms - terms.length) Slot.unfilled).take op.terms

/-- A new expression with a slot for each of its operator's terms. -/
def makeExpr (op : Op) (terms : List (Slot α)) : Heap α × ℕ := h.alloc ⟨some op, makeSlots op terms⟩

/-- A shallow copy in a fresh box. -/
def dupExpr (i : ℕ) : Heap α × ℕ := h.alloc ((h.cell i).getD ⟨none, []⟩)

/-- Rewrap an expression with a new operator in place. -/
def wrapExpr (i : ℕ) (op : Op) : Heap α :=
  let (h, oldCopy) := dupExpr h i
  h.modify i fun _ => ⟨some op, makeSlots op [.val (.node oldCopy)]⟩

/-- `box.Val[k]`, for `k` at least one, if the slice is that long. -/
def slotAt (i k : ℕ) : Option (Slot α) := (h.cell i).bind fun b => b.slots[k - 1]?

/-- `box.Val[k] = v`, for `k` at least one. -/
def setSlot (i k : ℕ) (v : Slot α) : Heap α :=
  h.modify i fun b => { b with slots := b.slots.set (k - 1) v }

/-- Fill the first unfilled slot. -/
def fillFirst (v : Slot α) : List (Slot α) → List (Slot α)
  | [] => []
  | .unfilled :: vs => v :: vs
  | w :: vs => w :: fillFirst v vs

/-- Go through the elements that are boxes until one is filled. -/
def fillSubs (fill : List ℕ → ℕ → Option (List ℕ ⊕ Heap α)) :
    List (Slot α) → List ℕ → Option (List ℕ ⊕ Heap α)
  | [], seen => some (.inl seen)
  | .val (.node j) :: vs, seen =>
    match fill seen j with
    | some (.inl seen) => fillSubs fill vs seen
    | r => r
  | _ :: vs, seen => fillSubs fill vs seen

/-- The walk of `fillNextSlot`: the boxes below a box first, then its own slots.  The answer is the
boxes seen when no slot was found, and the new heap when one was filled. -/
def fillNextSlotSeen (v : Slot α) : ℕ → Heap α → List ℕ → ℕ → Option (List ℕ ⊕ Heap α)
  | 0, _, _, _ => none
  | fuel + 1, h, seen, i =>
    match h.cell i with
    | none => some (.inl seen)
    | some b =>
      if i ∈ seen then some (.inl seen)
      else
        match b.op with
        | none => some (.inl (i :: seen))
        | some op =>
          match fillSubs (fillNextSlotSeen v fuel h) (b.slots.take op.terms) (i :: seen) with
          | some (.inl seen) =>
            if (b.slots.take op.terms).any Slot.isUnfilled then
              some (.inr (h.modify i fun b => { b with slots := fillFirst v b.slots }))
            else some (.inl seen)
          | r => r

/-- Fill the deepest unfilled slot below a node, and say whether there was one. -/
def fillNextSlot (node : Val α) (v : Slot α) : Option (Heap α × Bool) :=
  match node with
  | .node i =>
    match fillNextSlotSeen v (h.last + 2) h [] i with
    | some (.inl _) => some (h, false)
    | some (.inr h) => some (h, true)
    | none => none
  | _ => some (h, false)

/-- Integrate a suffix operator into an expression tree.  Each step down goes to an element of the
box before. -/
def prattifySuffixFrom : ℕ → Heap α → ℕ → Op → Option (Heap α × ℕ)
  | 0, _, _, _ => none
  | fuel + 1, h, box, op =>
    match opOf h box with
    | none => some (makeExpr h op [.val (.node box)])
    | some exprOp =>
      match (if exprOp.kind ≠ .parenOp ∧ exprOp.kind ≠ .suffixOp ∧ exprOp.right ≤ op.left then
          slotAt h box exprOp.terms else none) with
      | some lastTerm =>
        match (opAtSlot h lastTerm).filter fun q =>
            (q.2.kind = .prefixOp ∨ q.2.kind = .infixOp) ∧ q.2.right < op.left with
        | some (subBox, _) => (prattifySuffixFrom fuel h subBox op).map fun r => (r.1, box)
        | none =>
          let (h, suffix) := makeExpr h op [lastTerm]
          some (setSlot h box exprOp.terms (.val (.node suffix)), box)
      | none => some (wrapExpr h box op, box)

/-- Integrate an operator into an expression tree, in place, and give the sub-expression it heads. -/
def prattifyFrom : ℕ → Heap α → ℕ → Op → Option (Heap α × ℕ)
  | 0, _, _, _ => none
  | fuel + 1, h, box, op =>
    match opOf h box with
    | none => some (makeExpr h op [.val (.node box)])
    | some exprOp =>
      -- Paren expressions are complete units: a new expression around a copy.
      if exprOp.kind = .parenOp then
        let (h, copy) := dupExpr h box
        some (makeExpr h op [.val (.node copy)])
      else
        match op.kind with
        | .infixOp =>
          if exprOp.kind = .suffixOp ∨ op.left ≤ exprOp.right then some (wrapExpr h box op, box)
          else
            match slotAt h box exprOp.terms with
            | none => some (h, box)
            | some last =>
              match (opAtSlot h last).filter fun q =>
                  q.2.kind ≠ .parenOp ∧ q.2.kind ≠ .ternaryOp ∧ q.2.right < op.left with
              | some (subBox, _) => prattifyFrom fuel h subBox op
              | none =>
                let (h, newNode) := makeExpr h op [last]
                some (setSlot h box exprOp.terms (.val (.node newNode)), newNode)
        | .prefixOp =>
          let (h, newExpr) := makeExpr h op []
          match fillNextSlot h (.node box) (.val (.node newExpr)) with
          | none => none
          | some (h, true) => some (h, newExpr)
          | some (h, false) =>
            match slotAt h box exprOp.terms with
            | none => some (h, box)
            | some _ => some (setSlot h box exprOp.terms (.val (.node newExpr)), newExpr)
        | .suffixOp => prattifySuffixFrom (fuel + 1) h box op
        | _ => some (h, box)

def prattifySuffix (h : Heap α) (box : ℕ) (op : Op) : Option (Heap α × ℕ) :=
  prattifySuffixFrom (h.last + 1) h box op

def prattify (h : Heap α) (box : ℕ) (op : Op) : Option (Heap α × ℕ) :=
  prattifyFrom (h.last + 1) h box op

/-- How an expression tree lies in its boxes. -/
def layout : Layout Op (Val α) (Slot α) (Box α) where
  ref i := .val (.node i)
  atom := .val
  due := [.unfilled]
  cell o vs := ⟨some o, vs⟩

@[simp] theorem layout_ref (i : ℕ) :
    (layout : Layout Op (Val α) (Slot α) (Box α)).ref i = .val (.node i) := rfl

@[simp] theorem layout_due :
    (layout : Layout Op (Val α) (Slot α) (Box α)).due = [.unfilled] := rfl

@[simp] theorem slots_hole : layout.slots (hole : Tree (ℕ × Op) (Val α)) = [.unfilled] := rfl

@[simp] theorem layout_cell (o : Op) (vs : List (Slot α)) : layout.cell o vs = ⟨some o, vs⟩ := rfl

end TabnasExpr.Go
