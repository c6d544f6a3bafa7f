import TabnasExpr.Located

/-!
# Expression token sequences and the trees they build

A sequence is an operand under prefix operators, followed by infix operators with their operands and
by suffix operators.  `Seq.build` is the tree the rules build for it, with the depth of the node the
last infix operator left as the attachment node: a suffix is applied to that node, an infix operator
to the root.
-/

namespace TabnasExpr

open OpTree OpTree.Tree

variable {α : Type*}

section Takes

variable {β : Type*}

/-- An infix operator takes the whole tree as its left operand. -/
def Takes (o : Op) : Tree Op β → Prop
  | pre p _ => o.left ≤ p.right
  | inf p _ _ => o.left ≤ p.right
  | _ => True

instance (o : Op) (t : Tree Op β) : Decidable (Takes o t) :=
  match t with
  | pre p _ => inferInstanceAs (Decidable (o.left ≤ p.right))
  | inf p _ _ => inferInstanceAs (Decidable (o.left ≤ p.right))
  | hole => .isTrue trivial
  | leaf _ => .isTrue trivial
  | suf _ _ => .isTrue trivial
  | grp _ _ => .isTrue trivial

theorem attachDepth_eq_zero_iff {o : Op} {t : Tree Op β} : attachDepth o t = 0 ↔ Takes o t := by
  cases t with
  | pre p x | inf p l x =>
    simp only [attachDepth, binding_left, binding_right, Takes]
    split_ifs with h
    · exact iff_of_false not_false (not_le.2 h)
    · exact iff_of_true rfl (not_lt.1 h)
  | hole | leaf | suf | grp => exact iff_of_true rfl trivial

end Takes

/-- A sequence of operator tokens and operands. -/
inductive Seq (α : Type*) where
  /-- Prefix operators and the first operand. -/
  | lead (ps : List Op) (x : α)
  /-- An infix operator, prefix operators, and their operand. -/
  | more (e : Seq α) (o : Op) (ps : List Op) (x : α)
  /-- A suffix operator. -/
  | suffixed (e : Seq α) (s : Op)
  deriving DecidableEq

namespace Seq

/-- The tokens of an operand under prefix operators. -/
def operandText (ps : List Op) (x : α) : List (Sym Op (Val α)) := ps.map .pre ++ [.leaf (.atom x)]

/-- The tokens of a sequence. -/
def text : Seq α → List (Sym Op (Val α))
  | lead ps x => operandText ps x
  | more e o ps x => text e ++ .inf o :: operandText ps x
  | suffixed e s => text e ++ [.suf s]

/-- Every operator of a sequence is of the kind it is used as. -/
def Kinded : Seq α → Prop
  | lead ps _ => ∀ p ∈ ps, p.kind = .prefixOp
  | more e o ps _ => Kinded e ∧ o.kind = .infixOp ∧ ∀ p ∈ ps, p.kind = .prefixOp
  | suffixed e s => Kinded e ∧ s.kind = .suffixOp

/-- There is no suffix operator in a sequence. -/
def NoSuffix : Seq α → Prop
  | lead _ _ => True
  | more e _ _ _ => NoSuffix e
  | suffixed _ _ => False

/-- An operand under prefix operators. -/
def operand (ps : List Op) (x : α) : Tree Op (Val α) := prefixes ps (leaf (.atom x))

/-- The tree of a sequence, and how deep on its right edge the attachment node is. -/
def build : Seq α → Tree Op (Val α) × ℕ
  | lead ps x => (operand ps x, 0)
  | more e o ps x => (fill (operand ps x) (attach o (build e).1), attachDepth o (build e).1)
  | suffixed e s => (onEdge (suffixAt s) (build e).2 (build e).1, (build e).2)

/-- The tree of a sequence. -/
def tree (e : Seq α) : Tree Op (Val α) := (build e).1

/-- The depth of the attachment node. -/
def depth (e : Seq α) : ℕ := (build e).2

variable {e : Seq α} {ps : List Op} {x : α} {o s : Op}

@[simp] theorem tree_lead : tree (lead ps x) = operand ps x := rfl

@[simp] theorem depth_lead : depth (lead ps x) = 0 := rfl

@[simp] theorem tree_more : tree (more e o ps x) = fill (operand ps x) (attach o (tree e)) := rfl

@[simp] theorem depth_more : depth (more e o ps x) = attachDepth o (tree e) := rfl

@[simp] theorem tree_suffixed :
    tree (suffixed e s) = onEdge (suffixAt s) (depth e) (tree e) := rfl

@[simp] theorem depth_suffixed : depth (suffixed e s) = depth e := rfl

theorem complete_operand : Complete (operand ps x) := (complete_prefixes ps _).2 trivial

theorem read_operand : read (operand ps x) = operandText ps x := by
  simp [operand, operandText]

theorem leaves_operand : Leaves IsAtom (operand ps x) := leaves_prefixes ps ⟨x, rfl⟩

/-- The attachment node is on the right edge, and it is an operator's unless the sequence is a single
operand. -/
theorem onEdge_depth (e : Seq α) : OnEdge (depth e) (tree e) := by
  induction e with
  | lead ps x => trivial
  | more e o ps x _ => exact (onEdge_attach o (tree e)).fill _
  | suffixed e s ih => exact ih.onEdge

theorem complete_tree (e : Seq α) : Complete (tree e) := by
  induction e with
  | lead ps x => exact complete_operand
  | more e o ps x ih => exact complete_fill (open_attach o ih) complete_operand
  | suffixed e s ih =>
    exact complete_onEdge (onEdge_depth e) ih
      (complete_suffixAt (complete_edgeAt (onEdge_depth e) ih))

/-- Every token of the sequence stands in the tree, in its place. -/
theorem read_tree (e : Seq α) : read (tree e) = text e := by
  induction e with
  | lead ps x => exact read_operand
  | more e o ps x ih =>
    rw [tree_more, read_fill (open_attach o (complete_tree e)), read_attach, ih, read_operand, text,
      List.append_assoc]
    rfl
  | suffixed e s ih =>
    rw [tree_suffixed, read_onEdge (onEdge_depth e) read_suffixAt, ih]
    rfl

theorem kinded_tree (h : Kinded e) : TabnasExpr.Kinded (tree e) := by
  induction e with
  | lead ps x => exact kinded_prefixes h trivial
  | more e o ps x ih =>
    exact kinded_fill (kinded_attach h.2.1 (ih h.1)) (kinded_prefixes h.2.2 trivial)
  | suffixed e s ih =>
    exact kinded_onEdge (ih h.1) (kinded_suffixAt h.2 (kinded_edgeAt (ih h.1)))

theorem leaves_tree (e : Seq α) : Leaves IsAtom (tree e) := by
  induction e with
  | lead ps x => exact leaves_operand
  | more e o ps x ih => exact leaves_fill (leaves_attach o ih) leaves_operand
  | suffixed e s ih => exact leaves_onEdge ih (leaves_suffixAt (leaves_edgeAt ih))

theorem noParen_tree (e : Seq α) : NoParen (tree e) := by
  induction e with
  | lead ps x => exact noParen_prefixes ps trivial
  | more e o ps x ih => exact noParen_fill (noParen_attach ih) (noParen_prefixes ps trivial)
  | suffixed e s ih => exact noParen_onEdge ih (noParen_suffixAt (noParen_edgeAt ih))

/-- Around an infix operator nothing binds against the powers, whatever the table. -/
theorem ordered_tree (e : Seq α) : Ordered (tree e) := by
  induction e with
  | lead ps x => exact ordered_prefixes ps trivial trivial
  | more e o ps x ih =>
    exact ordered_fill (ordered_attach o ih) (ordered_prefixes ps trivial trivial)
      (isOperand_prefixes ps trivial)
  | suffixed e s ih =>
    exact ordered_onEdge (onEdge_depth e) ih (ordered_suffixAt (ordered_edgeAt (onEdge_depth e) ih))
      fun _ => fitsRight_suffixAt

end Seq

end TabnasExpr
