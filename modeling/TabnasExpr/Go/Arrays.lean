import TabnasExpr.Lib.Rose
import TabnasExpr.Op

/-!
# Boxes, slices and arrays of the Go port

The exported `Prattify` takes an expression as the box the parser works with (`*ListRef`) or as a plain
slice, and an expression may hold others in either form.  A box holds a slice (`Val`), and a slice
stands for its array.  A box can be given another slice, which every holder of the box sees; what is
written to an array, every holder of the slice sees too; but a holder of the slice does not see that
a box over it was given another one.
-/

namespace TabnasExpr.Go.Arrays

variable {α : Type*}

/-- An element of an array: the sentinel of an unfilled slot, an operand, a box or a slice. -/
inductive Elem (α : Type*) where
  | unfilled
  | atom (a : α)
  | box (i : ℕ)
  | slice (i : ℕ)
  deriving DecidableEq

def Elem.isUnfilled : Elem α → Bool
  | .unfilled => true
  | _ => false

/-- What an object is: a box, or an array, with the operator at its head if it has one. -/
inductive Head where
  | listRef
  | array (op : Option Op)
  deriving DecidableEq

def Head.op : Head → Option Op
  | .listRef => none
  | .array op => op

/-- An object of the memory.  The elements of an array come after its operator; a box has one element,
the slice it holds. -/
structure Object (α : Type*) where
  head : Head
  elems : List (Elem α)
  deriving DecidableEq

abbrev Memory (α : Type*) := Store (Object α)

variable (m : Memory α)

/-- `box.Val`: the array of the slice a box holds. -/
def val (box : ℕ) : Option ℕ :=
  match m.cell box with
  | some ⟨.listRef, [.slice j]⟩ => some j
  | _ => none

/-- The array of a box or of a slice. -/
def unwrapExpr : Elem α → Option ℕ
  | .box i => val m i
  | .slice j => some j
  | _ => none

/-- The operator at the head of an expression (`isOp`). -/
def opOf (v : Elem α) : Option Op := ((unwrapExpr m v).bind m.cell).bind fun o => o.head.op

/-- The value as a box: itself, or a new box over a slice. -/
def asListRef : Elem α → Option (Memory α × ℕ)
  | .box i => some (m, i)
  | .slice j => some (m.alloc ⟨.listRef, [.slice j]⟩)
  | _ => none

/-- The elements of a new expression: the terms given, and the rest unfilled. -/
def makeElems (op : Op) (terms : List (Elem α)) : List (Elem α) :=
  (terms ++ List.replicate (op.terms - terms.length) Elem.unfilled).take op.terms

/-- A new expression in a box. -/
def makeExpr (op : Op) (terms : List (Elem α)) : Memory α × ℕ :=
  let (m, arr) := m.alloc ⟨.array (some op), makeElems op terms⟩
  m.alloc ⟨.listRef, [.slice arr]⟩

/-- A shallow copy in a fresh box. -/
def dupExpr (node : Elem α) : Memory α × ℕ :=
  let (m, out) := m.alloc (((unwrapExpr m node).bind m.cell).getD ⟨.array none, []⟩)
  m.alloc ⟨.listRef, [.slice out]⟩

/-- Rewrap an expression with a new operator: the box is given another slice. -/
def wrapExpr (box : ℕ) (op : Op) : Memory α :=
  let (m, oldCopy) := dupExpr m (.box box)
  let (m, newVal) := m.alloc ⟨.array (some op), makeElems op [.box oldCopy]⟩
  m.modify box fun o => { o with elems := [.slice newVal] }

/-- `box.Val[k]`, for `k` at least one, if the slice is that long. -/
def slotAt (box k : ℕ) : Option (Elem α) :=
  ((val m box).bind m.cell).bind fun o => o.elems[k - 1]?

/-- `box.Val[k] = v`, for `k` at least one. -/
def setSlot (box k : ℕ) (v : Elem α) : Memory α :=
  match val m box with
  | some j => m.modify j fun o => { o with elems := o.elems.set (k - 1) v }
  | none => m

/-- Fill the first unfilled slot. -/
def fillFirst (v : Elem α) : List (Elem α) → List (Elem α)
  | [] => []
  | .unfilled :: vs => v :: vs
  | w :: vs => w :: fillFirst v vs

/-- Go through the elements that are boxes until one is filled. -/
def fillSubs (fill : List ℕ → ℕ → Option (List ℕ ⊕ Memory α)) :
    List (Elem α) → List ℕ → Option (List ℕ ⊕ Memory α)
  | [], seen => some (.inl seen)
  | .box j :: vs, seen =>
    match fill seen j with
    | some (.inl seen) => fillSubs fill vs seen
    | r => r
  | _ :: vs, seen => fillSubs fill vs seen

/-- The walk of `fillNextSlot`: the boxes below a box first, then its own slots.  The answer is the
boxes seen when no slot was found, and the new memory when one was filled. -/
def fillNextSlotSeen (v : Elem α) : ℕ → Memory α → List ℕ → ℕ → Option (List ℕ ⊕ Memory α)
  | 0, _, _, _ => none
  | fuel + 1, m, seen, box =>
    match val m box with
    | none => some (.inl seen)
    | some j =>
      if box ∈ seen then some (.inl seen)
      else
        match m.cell j with
        | some ⟨.array (some op), elems⟩ =>
          match fillSubs (fillNextSlotSeen v fuel m) (elems.take op.terms) (box :: seen) with
          | some (.inl seen) =>
            if (elems.take op.terms).any Elem.isUnfilled then
              some (.inr (m.modify j fun o => { o with elems := fillFirst v o.elems }))
            else some (.inl seen)
          | r => r
        | _ => some (.inl (box :: seen))

/-- Fill the deepest unfilled slot below a box, and say whether there was one. -/
def fillNextSlot (box : ℕ) (v : Elem α) : Option (Memory α × Bool) :=
  match fillNextSlotSeen v (m.last + 1) m [] box with
  | some (.inl _) => some (m, false)
  | some (.inr m) => some (m, true)
  | none => none

variable {m}

/-- Integrate a suffix operator into an expression tree.  A box made for the last term is not put in its
place. -/
def prattifySuffixFrom : ℕ → Memory α → Elem α → Op → Option (Memory α × ℕ)
  | 0, _, _, _ => none
  | fuel + 1, m, node, op =>
    match asListRef m node with
    | none => some (makeExpr m op [node])
    | some (m, box) =>
      match opOf m (.box box) with
      | none => some (makeExpr m op [node])
      | some exprOp =>
        match (if exprOp.kind ≠ .parenOp ∧ exprOp.kind ≠ .suffixOp ∧ exprOp.right ≤ op.left then
            slotAt m box exprOp.terms else none) with
        | some lastTerm =>
          match (opOf m lastTerm).filter fun q =>
              (q.kind = .prefixOp ∨ q.kind = .infixOp) ∧ q.right < op.left with
          | some _ =>
            (asListRef m lastTerm).bind fun (m, subBox) =>
              (prattifySuffixFrom fuel m (.box subBox) op).map fun r => (r.1, box)
          | none =>
            let (m, suffix) := makeExpr m op [lastTerm]
            some (setSlot m box exprOp.terms (.box suffix), box)
        | none => some (wrapExpr m box op, box)

/-- Integrate an operator into an expression tree, and give the sub-expression it heads. -/
def prattifyFrom : ℕ → Memory α → Elem α → Op → Option (Memory α × ℕ)
  | 0, _, _, _ => none
  | fuel + 1, m, exprNode, op =>
    match asListRef m exprNode with
    | none => some (makeExpr m op [exprNode])
    | some (m, box) =>
      match opOf m (.box box) with
      | none => some (makeExpr m op [exprNode])
      | some exprOp =>
        -- Paren expressions are complete units: a new expression around a copy.
        if exprOp.kind = .parenOp then
          let (m, copy) := dupExpr m (.box box)
          some (makeExpr m op [.box copy])
        else
          match op.kind with
          | .infixOp =>
            if exprOp.kind = .suffixOp ∨ op.left ≤ exprOp.right then some (wrapExpr m box op, box)
            else
              match slotAt m box exprOp.terms with
              | none => some (m, box)
              | some last =>
                match opOf m last, asListRef m last with
                | some subOp, some (m, subBox) =>
                  -- The slot is given the box, which the term may have come without.
                  let m := setSlot m box exprOp.terms (.box subBox)
                  if subOp.kind ≠ .parenOp ∧ subOp.kind ≠ .ternaryOp ∧ subOp.right < op.left then
                    prattifyFrom fuel m (.box subBox) op
                  else
                    let (m, newNode) := makeExpr m op [.box subBox]
                    some (setSlot m box exprOp.terms (.box newNode), newNode)
                | _, _ =>
                  let (m, newNode) := makeExpr m op [last]
                  some (setSlot m box exprOp.terms (.box newNode), newNode)
          | .prefixOp =>
            let (m, newExpr) := makeExpr m op []
            match fillNextSlot m box (.box newExpr) with
            | none => none
            | some (m, true) => some (m, newExpr)
            | some (m, false) =>
              match slotAt m box exprOp.terms with
              | none => some (m, box)
              | some _ => some (setSlot m box exprOp.terms (.box newExpr), newExpr)
          | .suffixOp => prattifySuffixFrom (fuel + 1) m (.box box) op
          | _ => some (m, box)

/-- `Prattify`. -/
def prattify (m : Memory α) (expr : Elem α) (op : Op) : Option (Memory α × ℕ) :=
  prattifyFrom (m.last + 1) m expr op

end TabnasExpr.Go.Arrays
