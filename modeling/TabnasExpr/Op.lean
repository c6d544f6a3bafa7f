import Mathlib.Algebra.Ring.Int.Defs
import Mathlib.Data.Int.Order.Basic
import TabnasExpr.Lib.OpTree

/-!
# Operators and values

The operator descriptions the parser works with, and the values that stand in its nodes.  The map a
rule finds an operator in is that of one kind, so the five flags of the source are one `Kind` here, and
the number of terms follows from it.
-/

namespace TabnasExpr

/-- The power an operator has on the side its definition leaves unset, to the left. -/
def minSafeInteger : ℤ := -(2 ^ 53 - 1)

/-- The power an operator has on the side its definition leaves unset, to the right. -/
def maxSafeInteger : ℤ := 2 ^ 53 - 1

/-- The ports of the parser. -/
inductive Language where
  | typescript
  | rust
  | go
  deriving DecidableEq, Repr

/-- The kind of an operator. -/
inductive Kind where
  | prefixOp
  | suffixOp
  | infixOp
  | ternaryOp
  | parenOp
  deriving DecidableEq, Repr

/-- An operator description, as the token maps of the parser hold it. -/
structure Op where
  name : String
  src : String
  kind : Kind
  left : ℤ
  right : ℤ
  deriving DecidableEq, Repr

/-- The number of operands of an operator. -/
def Op.terms (op : Op) : ℕ :=
  match op.kind with
  | .ternaryOp => 3
  | .infixOp => 2
  | _ => 1

instance : OpTree.Binding Op ℤ := ⟨Op.left, Op.right⟩

@[simp] theorem binding_left (op : Op) : OpTree.left op = op.left := rfl

@[simp] theorem binding_right (op : Op) : OpTree.right op = op.right := rfl

/-- A value of the parse: nothing yet, an operand the engine read, or a node by its identity. -/
inductive Val (α : Type*) where
  | undefined
  | atom (a : α)
  | node (id : ℕ)
  deriving DecidableEq

open OpTree OpTree.Tree

variable {α : Type*}

/-- Every operator stands in a position of its own kind, those before their one operand as `K` has it, and
every paren operator has the powers the paren map gives it. -/
def KindedBy (K : Op → Prop) : Tree Op α → Prop
  | hole => True
  | leaf _ => True
  | pre o x => K o ∧ KindedBy K x
  | suf o x => o.kind = .suffixOp ∧ KindedBy K x
  | inf o l r => o.kind = .infixOp ∧ KindedBy K l ∧ KindedBy K r
  | grp o x => o.kind = .parenOp ∧ o.right = maxSafeInteger ∧ KindedBy K x

/-- Every operator stands in a position of its own kind, and every paren operator has the powers the
paren map gives it. -/
abbrev Kinded : Tree Op α → Prop := KindedBy fun o => o.kind = .prefixOp

/-- The same, but that a closed paren may stand as a prefix operator: both have one operand, their last
one, and go on with its node. -/
abbrev Slotted : Tree Op α → Prop :=
  KindedBy fun o => o.kind = .prefixOp ∨ o.kind = .parenOp ∧ o.right = maxSafeInteger

/-- There is no paren node. -/
def NoParen : Tree Op α → Prop
  | hole => True
  | leaf _ => True
  | pre _ x => NoParen x
  | suf _ x => NoParen x
  | inf _ l r => NoParen l ∧ NoParen r
  | grp _ _ => False

section Kinded

variable {K : Op → Prop}

theorem KindedBy.slotted {t : Tree Op α} (h : Kinded t) : Slotted t := by
  induction t with
  | hole | leaf => trivial
  | pre o x ih => exact ⟨Or.inl h.1, ih h.2⟩
  | suf o x ih => exact ⟨h.1, ih h.2⟩
  | inf o l r ihl ihr => exact ⟨h.1, ihl h.2.1, ihr h.2.2⟩
  | grp o x ih => exact ⟨h.1, h.2.1, ih h.2.2⟩

/-- An operator before its one operand. -/
theorem terms_front {o : Op} (h : o.kind = .prefixOp ∨ o.kind = .parenOp ∧ o.right = maxSafeInteger) :
    o.terms = 1 ∧ o.kind ≠ .suffixOp := by
  rcases h with h | ⟨h, -⟩ <;> simp [Op.terms, h]

theorem kinded_fill {t y : Tree Op α} (ht : KindedBy K t) (hy : KindedBy K y) : KindedBy K (fill y t) := by
  induction t with
  | hole => exact hy
  | pre o x ih => exact ⟨ht.1, ih ht.2⟩
  | inf o l r _ ih => exact ⟨ht.1, ht.2.1, ih ht.2.2⟩
  | leaf | suf | grp => exact ht

theorem kinded_attach {o : Op} {t : Tree Op α} (ho : o.kind = .infixOp) (ht : KindedBy K t) :
    KindedBy K (attach o t) := by
  induction t with
  | pre p x ih =>
    unfold attach
    split_ifs
    · exact ⟨ht.1, ih ht.2⟩
    · exact ⟨ho, ht, trivial⟩
  | inf p l r _ ih =>
    unfold attach
    split_ifs
    · exact ⟨ht.1, ht.2.1, ih ht.2.2⟩
    · exact ⟨ho, ht, trivial⟩
  | hole | leaf | suf | grp => exact ⟨ho, ht, trivial⟩

theorem kinded_prefixes {ps : List Op} {x : Tree Op α} (hps : ∀ p ∈ ps, K p)
    (hx : KindedBy K x) : KindedBy K (prefixes ps x) := by
  induction ps with
  | nil => exact hx
  | cons p ps ih =>
    exact ⟨hps p List.mem_cons_self, ih fun q hq => hps q (List.mem_cons_of_mem _ hq)⟩

theorem kinded_edgeAt {d : ℕ} {t : Tree Op α} (ht : KindedBy K t) : KindedBy K (edgeAt d t) := by
  induction d generalizing t with
  | zero => exact ht
  | succ d ih =>
    cases t with
    | pre o x => exact ih ht.2
    | inf o l r => exact ih ht.2.2
    | hole | leaf | suf | grp => trivial

theorem kinded_onEdge {f : Tree Op α → Tree Op α} {d : ℕ} {t : Tree Op α} (ht : KindedBy K t)
    (hf : KindedBy K (f (edgeAt d t))) : KindedBy K (onEdge f d t) := by
  induction d generalizing t with
  | zero => exact hf
  | succ d ih =>
    cases t with
    | pre o x => exact ⟨ht.1, ih ht.2 hf⟩
    | inf o l r => exact ⟨ht.1, ht.2.1, ih ht.2.2 hf⟩
    | hole | leaf | suf | grp => exact ht

end Kinded

theorem noParen_fill {t y : Tree Op α} (ht : NoParen t) (hy : NoParen y) : NoParen (fill y t) := by
  induction t with
  | hole => exact hy
  | pre o x ih => exact ih ht
  | inf o l r _ ih => exact ⟨ht.1, ih ht.2⟩
  | leaf | suf | grp => exact ht

theorem noParen_attach {o : Op} {t : Tree Op α} (ht : NoParen t) : NoParen (attach o t) := by
  induction t with
  | pre p x ih =>
    unfold attach
    split_ifs
    · exact ih ht
    · exact ⟨ht, trivial⟩
  | inf p l r _ ih =>
    unfold attach
    split_ifs
    · exact ⟨ht.1, ih ht.2⟩
    · exact ⟨ht, trivial⟩
  | hole | leaf | suf | grp => exact ⟨ht, trivial⟩

theorem noParen_prefixes (ps : List Op) {x : Tree Op α} (hx : NoParen x) :
    NoParen (prefixes ps x) := by
  induction ps with
  | nil => exact hx
  | cons p ps ih => exact ih

theorem noParen_edgeAt {d : ℕ} {t : Tree Op α} (ht : NoParen t) : NoParen (edgeAt d t) := by
  induction d generalizing t with
  | zero => exact ht
  | succ d ih =>
    cases t with
    | pre o x => exact ih ht
    | inf o l r => exact ih ht.2
    | hole | leaf | suf | grp => trivial

theorem noParen_onEdge {f : Tree Op α → Tree Op α} {d : ℕ} {t : Tree Op α} (ht : NoParen t)
    (hf : NoParen (f (edgeAt d t))) : NoParen (onEdge f d t) := by
  induction d generalizing t with
  | zero => exact hf
  | succ d ih =>
    cases t with
    | pre o x => exact ih ht hf
    | inf o l r => exact ⟨ht.1, ih ht.2 hf⟩
    | hole | leaf | suf | grp => exact ht

end TabnasExpr
