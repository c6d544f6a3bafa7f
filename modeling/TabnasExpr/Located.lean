import TabnasExpr.Lib.Stored
import TabnasExpr.Suffix

/-!
# Trees whose operators carry their nodes

The tree functions the ports share: the handle a tree is known by, the node at its root, and the node
that waits for the operand that is due.
-/

namespace TabnasExpr

open OpTree OpTree.Tree

variable {α : Type*} {t x y : Tree (ℕ × Op) (Val α)} {p : ℕ × Op}
  {l? : Option (Tree (ℕ × Op) (Val α))} {d : ℕ}

/-- The value that stands for a tree in the node above it. -/
def handle : Tree (ℕ × Op) (Val α) → Val α
  | hole => .undefined
  | leaf v => v
  | pre p _ => .node p.1
  | suf p _ => .node p.1
  | inf p _ _ => .node p.1
  | grp p _ => .node p.1

/-- The operator at the root, with its node. -/
def rootOp : Tree (ℕ × Op) (Val α) → Option (ℕ × Op)
  | hole => none
  | leaf _ => none
  | pre p _ => some p
  | suf p _ => some p
  | inf p _ _ => some p
  | grp p _ => some p

theorem rootId_eq (t : Tree (ℕ × Op) (Val α)) : rootId t = (rootOp t).map Prod.fst := by
  cases t <;> rfl

theorem handle_of_rootId {i : ℕ} (h : rootId t = some i) : handle t = .node i := by
  cases t <;> cases h <;> rfl

/-- The operand before the last one is there. -/
def FrontComplete (l? : Option (Tree (ℕ × Op) (Val α))) : Prop := ∀ l ∈ l?, Complete l

theorem length_slots {V C : Type*} (L : Layout Op (Val α) V C) (hx : Complete x) :
    (L.slots x).length = 1 := by
  cases x with
  | hole => exact hx.elim
  | leaf | pre | suf | inf | grp => rfl

/-- The last operand of a node of the right edge is the last of its operator's terms. -/
theorem terms_spine {V C : Type*} (L : Layout Op (Val α) V C) (hl : FrontComplete l?)
    (hk : Slotted (erase (spine p l? x))) : p.2.terms = (L.front l?).length + 1 := by
  cases l? with
  | none => simp [(terms_front hk.1).1, Layout.front]
  | some l => simp [Op.terms, hk.1, Layout.front, length_slots L (hl l rfl)]

theorem kind_spine_ne (hk : Slotted (erase (spine p l? x))) : p.2.kind ≠ .suffixOp := by
  cases l? with
  | none => exact (terms_front hk.1).2
  | some l => simp [hk.1]

theorem edgeAt_spine (d : ℕ) : edgeAt (d + 1) (spine p l? x) = edgeAt d x := by
  cases l? <;> rfl

/-- The kind of an operator of the right edge that is no closed paren's. -/
def edgeKind (l? : Option (Tree (ℕ × Op) (Val α))) : Kind := l?.elim .prefixOp fun _ => .infixOp

theorem edgeKind_of_kinded (hk : Kinded (erase (spine p l? x))) : p.2.kind = edgeKind l? := by
  cases l? <;> exact hk.1

theorem edgeKind_ne : edgeKind l? ≠ .parenOp := by
  cases l? <;> simp [edgeKind]

theorem terms_due {V C : Type*} (L : Layout Op (Val α) V C) (hl : FrontComplete l?)
    (hk : p.2.kind = edgeKind l?) : p.2.terms = (L.front l?).length + 1 := by
  cases l? with
  | none => simp [Op.terms, hk, edgeKind, Layout.front]
  | some l => simp [Op.terms, hk, edgeKind, Layout.front, length_slots L (hl l rfl)]

/-- The node `d` steps down the right edge waits for its last operand, and it is the node `i`. -/
def DueAt (d i : ℕ) (t : Tree (ℕ × Op) (Val α)) : Prop :=
  ∃ p l?, p.1 = i ∧ FrontComplete l? ∧ p.2.kind = edgeKind l? ∧ edgeAt d t = spine p l? hole

theorem onEdge_of_edgeAt {u : Tree (ℕ × Op) (Val α)} (h : edgeAt d t = u) (hu : u ≠ hole) :
    OnEdge d t := by
  induction d generalizing t with
  | zero => trivial
  | succ d ih =>
    cases t with
    | pre q x | inf q l x => exact ih h
    | hole | leaf | suf | grp => exact hu h.symm

theorem spine_ne_hole : spine p l? y ≠ hole := by
  cases l? <;> simp [spine]

/-- Filling the operand that is due rewrites the node that waits for it. -/
theorem fill_eq_onEdge (h : edgeAt d t = spine p l? hole) (y : Tree (ℕ × Op) (Val α)) :
    fill y t = onEdge (fun _ => spine p l? y) d t := by
  induction d generalizing t with
  | zero =>
    subst h
    cases l? <;> rfl
  | succ d ih =>
    cases t with
    | pre q x => exact congrArg (pre q) (ih h)
    | inf q l r => exact congrArg (inf q l) (ih h)
    | hole | leaf | suf | grp => exact absurd h.symm spine_ne_hole

theorem edgeAt_onEdge_of {f : Tree (ℕ × Op) (Val α) → Tree (ℕ × Op) (Val α)} {u : Tree (ℕ × Op) (Val α)}
    (h : edgeAt d t = u) (hu : u ≠ hole) : edgeAt d (onEdge f d t) = f u := by
  rw [edgeAt_onEdge (onEdge_of_edgeAt h hu), h]

theorem edgeAt_add (d e : ℕ) (t : Tree (ℕ × Op) (Val α)) :
    edgeAt (d + e) t = edgeAt e (edgeAt d t) := by
  induction d generalizing t with
  | zero => rw [Nat.zero_add]; rfl
  | succ d ih =>
    rw [Nat.succ_add]
    cases t with
    | pre q x | inf q l x => exact ih x
    | hole | leaf | suf | grp => cases e <;> rfl

theorem rootId_fill {i : ℕ} (h : rootId t = some i) (y : Tree (ℕ × Op) (Val α)) :
    rootId (fill y t) = some i := by
  cases t <;> first | exact h | cases h

theorem ne_hole_of_rootId {i : ℕ} (h : rootId t = some i) : t ≠ hole := by
  rintro rfl
  cases h

/-- Filling the operand that is due leaves the node above it where it was. -/
theorem rootId_edgeAt_fill {i : ℕ} (h : rootId (edgeAt d t) = some i)
    (y : Tree (ℕ × Op) (Val α)) : rootId (edgeAt d (fill y t)) = some i := by
  rw [edgeAt_fill (onEdge_of_edgeAt rfl (ne_hole_of_rootId h))]
  exact rootId_fill h y

theorem rootId_of_root {p : ℕ × Op} (h : rootOp t = some p) : rootId t = some p.1 := by
  rw [rootId_eq, h]
  rfl

theorem rootId_of_edgeAt {i : ℕ} (h : rootId (edgeAt d t) = some i) : ∃ j, rootId t = some j := by
  cases d with
  | zero => exact ⟨i, h⟩
  | succ d => cases t <;> first | exact ⟨_, rfl⟩ | cases h

theorem rootOp_of_edgeAt {q : ℕ × Op} (h : rootOp (edgeAt d t) = some q) :
    ∃ q', rootOp t = some q' := by
  cases d with
  | zero => exact ⟨q, h⟩
  | succ d => cases t <;> first | exact ⟨_, rfl⟩ | cases h

/-- A value the engine read, and no node. -/
def IsAtom (v : Val α) : Prop := ∃ a, v = .atom a

/-- A complete tree is one operand, or has an operator at its root. -/
theorem leaf_or_op (hc : Complete t) : (∃ v, t = leaf v) ∨ ∃ p, rootOp t = some p := by
  cases t with
  | hole => exact hc.elim
  | leaf v => exact Or.inl ⟨v, rfl⟩
  | pre p | suf p | inf p | grp p => exact Or.inr ⟨p, rfl⟩

theorem leaf_or_root (hc : Complete t) (hl : Leaves IsAtom (erase t)) :
    (∃ a, t = leaf (.atom a)) ∨ ∃ p, rootOp t = some p := by
  obtain ⟨v, rfl⟩ | hp := leaf_or_op hc
  · obtain ⟨a, rfl⟩ := hl
    exact Or.inl ⟨a, rfl⟩
  · exact Or.inr hp

end TabnasExpr
