import Mathlib.Order.Lattice

/-!
# Operator trees and their right edge

Trees of prefix, suffix, infix and grouping operators over an arbitrary type of operators with a
left and a right binding power.  An operator parser that reads its input from left to right only
ever changes such a tree along its *right edge*, the path of last operands from the root.  This
file defines the operations a parser makes there (`fill`, `attach`, `onEdge`), the reading order
`read` of a tree, and local precedence correctness (`Ordered`), and proves how they compose.
-/

namespace OpTree

/-- The two binding powers of an operator. -/
class Binding (ω : Type*) (P : outParam (Type*)) where
  left : ω → P
  right : ω → P

export Binding (left right)

/-- A tree of operators `ω` over operands `α`.  A `hole` is an operand not read yet. -/
inductive Tree (ω α : Type*) where
  | hole
  | leaf (a : α)
  | pre (o : ω) (x : Tree ω α)
  | suf (o : ω) (x : Tree ω α)
  | inf (o : ω) (l r : Tree ω α)
  | grp (o : ω) (x : Tree ω α)
  deriving DecidableEq

/-- A symbol of the text a tree is read as. -/
inductive Sym (ω α : Type*) where
  | leaf (a : α)
  | pre (o : ω)
  | suf (o : ω)
  | inf (o : ω)
  | opn (o : ω)
  | cls (o : ω)
  deriving DecidableEq

namespace Tree

variable {ω α P : Type*}

/-- The text of a tree, from left to right. -/
def read : Tree ω α → List (Sym ω α)
  | hole => []
  | leaf a => [.leaf a]
  | pre o x => .pre o :: read x
  | suf o x => read x ++ [.suf o]
  | inf o l r => read l ++ .inf o :: read r
  | grp o x => .opn o :: read x ++ [.cls o]

/-- Every operator has all its operands. -/
def Complete : Tree ω α → Prop
  | hole => False
  | leaf _ => True
  | pre _ x => Complete x
  | suf _ x => Complete x
  | inf _ l r => Complete l ∧ Complete r
  | grp _ x => Complete x

/-- One operand is due, at the end of the right edge, and every other one is there. -/
def Open : Tree ω α → Prop
  | hole => True
  | pre _ x => Open x
  | inf _ l r => Complete l ∧ Open r
  | _ => False

/-- Put a tree into the operand that is due at the end of the right edge. -/
def fill (y : Tree ω α) : Tree ω α → Tree ω α
  | hole => y
  | pre o x => pre o (fill y x)
  | inf o l r => inf o l (fill y r)
  | t => t

/-- A chain of prefix operators around a tree. -/
def prefixes (ps : List ω) (x : Tree ω α) : Tree ω α := ps.foldr pre x

/-- Rewrite the node `d` steps down the right edge. -/
def onEdge (f : Tree ω α → Tree ω α) : ℕ → Tree ω α → Tree ω α
  | 0, t => f t
  | d + 1, pre o x => pre o (onEdge f d x)
  | d + 1, inf o l r => inf o l (onEdge f d r)
  | _ + 1, t => t

/-- The node `d` steps down the right edge, and a hole past its end. -/
def edgeAt : ℕ → Tree ω α → Tree ω α
  | 0, t => t
  | d + 1, pre _ x => edgeAt d x
  | d + 1, inf _ _ r => edgeAt d r
  | _ + 1, _ => hole

/-- Every operand that is no operator's node satisfies `Q`. -/
def Leaves (Q : α → Prop) : Tree ω α → Prop
  | hole => True
  | leaf a => Q a
  | pre _ x => Leaves Q x
  | suf _ x => Leaves Q x
  | inf _ l r => Leaves Q l ∧ Leaves Q r
  | grp _ x => Leaves Q x

section Read

@[simp] theorem read_hole : read (hole : Tree ω α) = [] := rfl

@[simp] theorem read_leaf (a : α) : read (leaf a : Tree ω α) = [.leaf a] := rfl

@[simp] theorem read_pre (o : ω) (x : Tree ω α) : read (pre o x) = .pre o :: read x := rfl

@[simp] theorem read_suf (o : ω) (x : Tree ω α) : read (suf o x) = read x ++ [.suf o] := rfl

@[simp] theorem read_inf (o : ω) (l r : Tree ω α) :
    read (inf o l r) = read l ++ .inf o :: read r := rfl

@[simp] theorem read_grp (o : ω) (x : Tree ω α) :
    read (grp o x) = .opn o :: (read x ++ [.cls o]) := rfl

@[simp] theorem read_prefixes (ps : List ω) (x : Tree ω α) :
    read (prefixes ps x) = ps.map .pre ++ read x := by
  induction ps with
  | nil => rfl
  | cons p ps ih => simpa [prefixes] using ih

theorem read_fill {t : Tree ω α} (ht : Open t) (y : Tree ω α) :
    read (fill y t) = read t ++ read y := by
  induction t with
  | hole => rfl
  | pre o x ih => simp [fill, ih ht]
  | inf o l r _ ih => simp [fill, ih ht.2]
  | leaf | suf | grp => exact ht.elim

end Read

section Shape

/-- The operators of a text; a pair of parens has the one of its opening symbol. -/
@[simp] def ops : List (Sym ω α) → List ω
  | [] => []
  | .pre o :: ts => o :: ops ts
  | .suf o :: ts => o :: ops ts
  | .inf o :: ts => o :: ops ts
  | .opn o :: ts => o :: ops ts
  | .leaf _ :: ts => ops ts
  | .cls _ :: ts => ops ts

@[simp] theorem ops_append (ts us : List (Sym ω α)) : ops (ts ++ us) = ops ts ++ ops us := by
  induction ts with
  | nil => rfl
  | cons tok ts ih => cases tok <;> simp [ops, ih]

@[simp] theorem ops_prefixes (ps : List ω) : ops (ps.map (Sym.pre (α := α))) = ps := by
  induction ps with
  | nil => rfl
  | cons p ps ih => simp [ops, ih]

/-- The operators of a tree, in the order of its text. -/
def operators (t : Tree ω α) : List ω := ops (read t)

@[simp] theorem operators_leaf (a : α) : operators (leaf a : Tree ω α) = [] := rfl

@[simp] theorem operators_pre (o : ω) (x : Tree ω α) : operators (pre o x) = o :: operators x := rfl

@[simp] theorem operators_suf (o : ω) (x : Tree ω α) : operators (suf o x) = operators x ++ [o] := by
  simp [operators, ops]

@[simp] theorem operators_inf (o : ω) (l r : Tree ω α) :
    operators (inf o l r) = operators l ++ o :: operators r := by
  simp [operators, ops]

@[simp] theorem operators_grp (o : ω) (x : Tree ω α) : operators (grp o x) = o :: operators x := by
  simp [operators, ops]

theorem operators_prefixes (ps : List ω) (x : Tree ω α) :
    operators (prefixes ps x) = ps ++ operators x := by
  simp [operators]

theorem operators_fill {t : Tree ω α} (ht : Open t) (y : Tree ω α) :
    operators (fill y t) = operators t ++ operators y := by
  simp [operators, read_fill ht]

theorem complete_fill {t y : Tree ω α} (ht : Open t) (hy : Complete y) : Complete (fill y t) := by
  induction t with
  | hole => exact hy
  | pre o x ih => exact ih ht
  | inf o l r _ ih => exact ⟨ht.1, ih ht.2⟩
  | leaf | suf | grp => exact ht.elim

theorem open_fill {t y : Tree ω α} (ht : Open t) (hy : Open y) : Open (fill y t) := by
  induction t with
  | hole => exact hy
  | pre o x ih => exact ih ht
  | inf o l r _ ih => exact ⟨ht.1, ih ht.2⟩
  | leaf | suf | grp => exact ht.elim

@[simp] theorem complete_prefixes (ps : List ω) (x : Tree ω α) :
    Complete (prefixes ps x) ↔ Complete x := by
  induction ps with
  | nil => rfl
  | cons p ps ih => exact ih

/-- Filling twice: what was put in first is filled next. -/
theorem fill_fill {t : Tree ω α} (ht : Open t) (y z : Tree ω α) :
    fill z (fill y t) = fill (fill z y) t := by
  induction t with
  | hole => rfl
  | pre o x ih => simp [fill, ih ht]
  | inf o l r _ ih => simp [fill, ih ht.2]
  | leaf | suf | grp => exact ht.elim

theorem fill_hole (t : Tree ω α) : fill hole t = t := by
  induction t with
  | pre o x ih => exact congrArg (pre o) ih
  | inf o l r _ ih => exact congrArg (inf o l) ih
  | hole | leaf | suf | grp => rfl

end Shape

/-! ## Attaching an infix operator -/

section Attach

variable [LinearOrder P] [Binding ω P]

/-- Attach an infix operator at the right edge: go down while the operators there bind their last
operand less tightly than the new one binds it, and take what is found as the left operand. -/
def attach (o : ω) : Tree ω α → Tree ω α
  | pre p x => if right p < left o then pre p (attach o x) else inf o (pre p x) hole
  | inf p l r => if right p < left o then inf p l (attach o r) else inf o (inf p l r) hole
  | t => inf o t hole

/-- How far down the right edge `attach` puts the new operator. -/
def attachDepth (o : ω) : Tree ω α → ℕ
  | pre p x => if right p < left o then attachDepth o x + 1 else 0
  | inf p _ r => if right p < left o then attachDepth o r + 1 else 0
  | _ => 0

theorem open_attach (o : ω) {t : Tree ω α} (ht : Complete t) : Open (attach o t) := by
  induction t with
  | hole => exact ht.elim
  | pre p x ih =>
    unfold attach
    split_ifs
    · exact ih ht
    · exact ⟨ht, trivial⟩
  | inf p l r _ ih =>
    unfold attach
    split_ifs
    · exact ⟨ht.1, ih ht.2⟩
    · exact ⟨ht, trivial⟩
  | leaf | suf | grp => exact ⟨ht, trivial⟩

theorem read_attach (o : ω) (t : Tree ω α) : read (attach o t) = read t ++ [.inf o] := by
  induction t with
  | pre p x ih => unfold attach; split_ifs <;> simp [ih]
  | inf p l r _ ih => unfold attach; split_ifs <;> simp [ih]
  | hole | leaf | suf | grp => simp [attach]

theorem operators_attach (o : ω) (t : Tree ω α) : operators (attach o t) = operators t ++ [o] := by
  simp [operators, read_attach, ops]

/-- The node `attach` makes stands at `attachDepth`, its right operand due. -/
theorem edgeAt_attach (o : ω) (t : Tree ω α) :
    ∃ l, edgeAt (attachDepth o t) (attach o t) = inf o l hole := by
  induction t with
  | pre p x ih =>
    unfold attach attachDepth
    split_ifs
    · simpa [edgeAt] using ih
    · exact ⟨_, rfl⟩
  | inf p l r _ ih =>
    unfold attach attachDepth
    split_ifs
    · simpa [edgeAt] using ih
    · exact ⟨_, rfl⟩
  | hole | leaf | suf | grp => exact ⟨_, rfl⟩

end Attach

/-! ## Working at a node of the right edge -/

section Edge

/-- The right edge is at least `d` steps long. -/
def OnEdge : ℕ → Tree ω α → Prop
  | 0, _ => True
  | d + 1, pre _ x => OnEdge d x
  | d + 1, inf _ _ r => OnEdge d r
  | _ + 1, _ => False

variable {f : Tree ω α → Tree ω α} {d : ℕ} {t : Tree ω α}

theorem OnEdge.onEdge (h : OnEdge d t) : OnEdge d (onEdge f d t) := by
  induction d generalizing t with
  | zero => trivial
  | succ d ih =>
    cases t with
    | pre o x => exact ih h
    | inf o l r => exact ih h
    | hole | leaf | suf | grp => exact h.elim

theorem onEdge_congr {g : Tree ω α → Tree ω α} (h : f (edgeAt d t) = g (edgeAt d t)) :
    Tree.onEdge f d t = Tree.onEdge g d t := by
  induction d generalizing t with
  | zero => exact h
  | succ d ih =>
    cases t with
    | pre o x => exact congrArg (pre o) (ih h)
    | inf o l r => exact congrArg (inf o l) (ih h)
    | hole | leaf | suf | grp => rfl

theorem edgeAt_onEdge (h : OnEdge d t) : edgeAt d (onEdge f d t) = f (edgeAt d t) := by
  induction d generalizing t with
  | zero => rfl
  | succ d ih =>
    cases t with
    | pre o x => exact ih h
    | inf o l r => exact ih h
    | hole | leaf | suf | grp => exact h.elim

theorem OnEdge.fill (h : OnEdge d t) (y : Tree ω α) : OnEdge d (fill y t) := by
  induction d generalizing t with
  | zero => trivial
  | succ d ih =>
    cases t with
    | pre o x => exact ih h
    | inf o l r => exact ih h
    | hole | leaf | suf | grp => exact h.elim

theorem edgeAt_fill (h : OnEdge d t) (y : Tree ω α) :
    edgeAt d (Tree.fill y t) = Tree.fill y (edgeAt d t) := by
  induction d generalizing t with
  | zero => rfl
  | succ d ih =>
    cases t with
    | pre o x => exact ih h
    | inf o l r => exact ih h
    | hole | leaf | suf | grp => exact h.elim

theorem read_onEdge {s : List (Sym ω α)} (h : OnEdge d t)
    (hf : read (f (edgeAt d t)) = read (edgeAt d t) ++ s) :
    read (onEdge f d t) = read t ++ s := by
  induction d generalizing t with
  | zero => exact hf
  | succ d ih =>
    cases t with
    | pre o x => simp [Tree.onEdge, ih h hf]
    | inf o l r => simp [Tree.onEdge, ih h hf]
    | hole | leaf | suf | grp => exact h.elim

theorem complete_edgeAt (h : OnEdge d t) (ht : Complete t) : Complete (edgeAt d t) := by
  induction d generalizing t with
  | zero => exact ht
  | succ d ih =>
    cases t with
    | pre o x => exact ih h ht
    | inf o l r => exact ih h ht.2
    | hole | leaf | suf | grp => exact h.elim

theorem complete_onEdge (h : OnEdge d t) (ht : Complete t) (hf : Complete (f (edgeAt d t))) :
    Complete (onEdge f d t) := by
  induction d generalizing t with
  | zero => exact hf
  | succ d ih =>
    cases t with
    | pre o x => exact ih h ht hf
    | inf o l r => exact ⟨ht.1, ih h ht.2 hf⟩
    | hole | leaf | suf | grp => exact h.elim

theorem open_edgeAt (h : OnEdge d t) (ht : Open t) : Open (edgeAt d t) := by
  induction d generalizing t with
  | zero => exact ht
  | succ d ih =>
    cases t with
    | pre o x => exact ih h ht
    | inf o l r => exact ih h ht.2
    | hole | leaf | suf | grp => exact h.elim

theorem onEdge_attach [LinearOrder P] [Binding ω P] (o : ω) (t : Tree ω α) :
    OnEdge (attachDepth o t) (attach o t) := by
  induction t with
  | pre p x ih =>
    unfold attach attachDepth
    split_ifs
    · exact ih
    · trivial
  | inf p l r _ ih =>
    unfold attach attachDepth
    split_ifs
    · exact ih
    · trivial
  | hole | leaf | suf | grp => trivial

end Edge

/-! ## Operands -/

section Leaves

variable {Q R : α → Prop} {t y : Tree ω α}

theorem Leaves.mono (h : Leaves Q t) (hQ : ∀ a, Q a → R a) : Leaves R t := by
  induction t with
  | hole => trivial
  | leaf a => exact hQ a h
  | pre o x ih | suf o x ih | grp o x ih => exact ih h
  | inf o l r ihl ihr => exact ⟨ihl h.1, ihr h.2⟩

theorem leaves_fill (ht : Leaves Q t) (hy : Leaves Q y) : Leaves Q (fill y t) := by
  induction t with
  | hole => exact hy
  | pre o x ih => exact ih ht
  | inf o l r _ ih => exact ⟨ht.1, ih ht.2⟩
  | leaf | suf | grp => exact ht

theorem leaves_prefixes (ps : List ω) (hy : Leaves Q y) : Leaves Q (prefixes ps y) := by
  induction ps with
  | nil => exact hy
  | cons p ps ih => exact ih

theorem leaves_attach [LinearOrder P] [Binding ω P] (o : ω) (ht : Leaves Q t) :
    Leaves Q (attach o t) := by
  induction t with
  | pre p x ih =>
    unfold attach
    split_ifs
    · exact ih ht
    · exact ⟨ht, trivial⟩
  | inf p l r _ ih =>
    unfold attach
    split_ifs
    · exact ⟨ht.1, ih ht.2⟩
    · exact ⟨ht, trivial⟩
  | hole | leaf | suf | grp => exact ⟨ht, trivial⟩

theorem leaves_onEdge {f : Tree ω α → Tree ω α} {d : ℕ} (ht : Leaves Q t)
    (hf : Leaves Q (f (edgeAt d t))) : Leaves Q (onEdge f d t) := by
  induction d generalizing t with
  | zero => exact hf
  | succ d ih =>
    cases t with
    | pre o x => exact ih ht hf
    | inf o l r => exact ⟨ht.1, ih ht.2 hf⟩
    | hole | leaf | suf | grp => exact ht

theorem leaves_edgeAt {d : ℕ} (ht : Leaves Q t) : Leaves Q (edgeAt d t) := by
  induction d generalizing t with
  | zero => exact ht
  | succ d ih =>
    cases t with
    | pre o x => exact ih ht
    | inf o l r => exact ih ht.2
    | hole | leaf | suf | grp => trivial

end Leaves

/-! ## Local precedence correctness -/

section Ordered

variable [LinearOrder P] [Binding ω P]

/-- An operator binds its last operand less tightly than an infix operator at the root of that
operand binds its own first one. -/
def FitsRight (p : ω) : Tree ω α → Prop
  | inf c _ _ => right p < left c
  | _ => True

/-- An operator binds its first operand at most as tightly as the operator at the root of that
operand binds its own last one. -/
def FitsLeft (o : ω) : Tree ω α → Prop
  | inf c _ _ => left o ≤ right c
  | pre c _ => left o ≤ right c
  | _ => True

/-- Every operator fits its operands. -/
def Ordered : Tree ω α → Prop
  | hole => True
  | leaf _ => True
  | pre p x => FitsRight p x ∧ Ordered x
  | suf _ x => Ordered x
  | inf o l r => FitsLeft o l ∧ FitsRight o r ∧ Ordered l ∧ Ordered r
  | grp _ x => Ordered x

/-- The root is no infix operator, so any operator fits the tree as its last operand. -/
def IsOperand : Tree ω α → Prop
  | inf _ _ _ => False
  | _ => True

theorem IsOperand.fitsRight {t : Tree ω α} (h : IsOperand t) (p : ω) : FitsRight p t := by
  cases t <;> trivial

theorem isOperand_prefixes (ps : List ω) {x : Tree ω α} (h : IsOperand x) :
    IsOperand (prefixes ps x) := by
  cases ps with
  | nil => exact h
  | cons p ps => trivial

theorem ordered_prefixes (ps : List ω) {x : Tree ω α} (hx : Ordered x) (h : IsOperand x) :
    Ordered (prefixes ps x) := by
  induction ps with
  | nil => exact hx
  | cons p ps ih => exact ⟨(isOperand_prefixes ps h).fitsRight p, ih⟩

theorem fitsRight_attach {p o : ω} {t : Tree ω α} (hpo : right p < left o)
    (ht : FitsRight p t) : FitsRight p (attach o t) := by
  cases t with
  | pre q x => unfold attach; split_ifs <;> trivial
  | inf q l r => unfold attach; split_ifs <;> first | exact ht | exact hpo
  | hole | leaf | suf | grp => exact hpo

/-- Attaching keeps a tree locally correct: the operators passed on the way down are the ones the
new operator fits under, and what it takes is what it fits over. -/
theorem ordered_attach (o : ω) {t : Tree ω α} (ht : Ordered t) : Ordered (attach o t) := by
  induction t with
  | pre p x ih =>
    unfold attach
    split_ifs with h
    · exact ⟨fitsRight_attach h ht.1, ih ht.2⟩
    · exact ⟨not_lt.1 h, trivial, ht, trivial⟩
  | inf p l r _ ih =>
    unfold attach
    split_ifs with h
    · exact ⟨ht.1, fitsRight_attach h ht.2.1, ht.2.2.1, ih ht.2.2.2⟩
    · exact ⟨not_lt.1 h, trivial, ht, trivial⟩
  | hole | leaf | suf | grp => exact ⟨trivial, trivial, ht, trivial⟩

theorem fitsRight_fill {p : ω} {t y : Tree ω α} (ht : FitsRight p t) (hy : IsOperand y) :
    FitsRight p (fill y t) := by
  cases t with
  | hole => exact hy.fitsRight p
  | leaf | pre | suf | inf | grp => exact ht

theorem ordered_fill {t y : Tree ω α} (ht : Ordered t) (hy : Ordered y) (hop : IsOperand y) :
    Ordered (fill y t) := by
  induction t with
  | hole => exact hy
  | pre p x ih => exact ⟨fitsRight_fill ht.1 hop, ih ht.2⟩
  | inf o l r _ ih => exact ⟨ht.1, fitsRight_fill ht.2.1 hop, ht.2.2.1, ih ht.2.2.2⟩
  | leaf | suf | grp => exact ht

theorem ordered_edgeAt {d : ℕ} {t : Tree ω α} (h : OnEdge d t) (ht : Ordered t) :
    Ordered (edgeAt d t) := by
  induction d generalizing t with
  | zero => exact ht
  | succ d ih =>
    cases t with
    | pre o x => exact ih h ht.2
    | inf o l r => exact ih h ht.2.2.2
    | hole | leaf | suf | grp => exact h.elim

/-- Rewriting a node of the right edge keeps a tree locally correct when the new node is correct
and fits wherever the old one did. -/
theorem ordered_onEdge {f : Tree ω α → Tree ω α} {d : ℕ} {t : Tree ω α} (h : OnEdge d t)
    (ht : Ordered t) (hf : Ordered (f (edgeAt d t)))
    (hfit : ∀ p, FitsRight p (edgeAt d t) → FitsRight p (f (edgeAt d t))) :
    Ordered (onEdge f d t) := by
  -- The parent of the rewritten node is one step above it; every other node is unchanged.
  have fits : ∀ {d : ℕ} {t : Tree ω α} (p : ω), OnEdge d t →
      (∀ p, FitsRight p (edgeAt d t) → FitsRight p (f (edgeAt d t))) →
      FitsRight p t → FitsRight p (onEdge f d t) := by
    intro d t p hd hfit hp
    cases d with
    | zero => exact hfit p hp
    | succ d => cases t <;> exact hp
  induction d generalizing t with
  | zero => exact hf
  | succ d ih =>
    cases t with
    | pre o x => exact ⟨fits o h hfit ht.1, ih h ht.2 hf hfit⟩
    | inf o l r => exact ⟨ht.1, fits o h hfit ht.2.1, ht.2.2.1, ih h ht.2.2.2 hf hfit⟩
    | hole | leaf | suf | grp => exact h.elim

end Ordered

end Tree

end OpTree
