import TabnasExpr.Ts.Prattify

/-!
# The tree a value stands for

Reading an expression off the heap, down to its operands.  A paren node is an operand; a node that
lacks an operand, or has one too many, makes the reading fail.
-/

namespace TabnasExpr.Ts

open OpTree OpTree.Tree

variable {α : Type*}

/-- The terms of a node. -/
def terms (h : Heap α) (i : ℕ) : List (Val α) :=
  match h.cell i with
  | some n => n.terms
  | none => []

/-- Read an expression tree, at most so many nodes deep. -/
def treeFrom : ℕ → Heap α → Val α → Option (Tree Op (Val α))
  | 0, _, _ => none
  | _ + 1, _, .undefined => none
  | _ + 1, _, .atom a => some (leaf (.atom a))
  | fuel + 1, h, .node i =>
    match opOf h i with
    | none => some (leaf (.node i))
    | some op =>
      match op.kind, terms h i with
      | .prefixOp, [x] => (treeFrom fuel h x).map (pre op)
      | .suffixOp, [x] => (treeFrom fuel h x).map (suf op)
      | .infixOp, [l, r] => (treeFrom fuel h l).bind fun l => (treeFrom fuel h r).map (inf op l)
      | .parenOp, _ => some (leaf (.node i))
      | _, _ => none

/-- The tree a value stands for. -/
def treeOf (h : Heap α) (v : Val α) : Option (Tree Op (Val α)) := treeFrom (h.last + 2) h v

/-- A value that is read as an operand. -/
def IsOperand (h : Heap α) (v : Val α) : Prop :=
  v ≠ .undefined ∧ ∀ q ∈ opAt h v, q.2.kind = .parenOp

variable {h : Heap α} {t : Tree (ℕ × Op) (Val α)}

theorem treeFrom_leaf {v : Val α} (hv : IsOperand h v) (fuel : ℕ) :
    treeFrom (fuel + 1) h v = some (leaf v) := by
  cases v with
  | undefined => exact absurd rfl hv.1
  | atom a => rfl
  | node i =>
    rw [treeFrom]
    cases hq : opOf h i with
    | none => rfl
    | some q =>
      have hk : q.kind = .parenOp := hv.2 (i, q) (by simp [opAt, hq])
      simp [hk]

theorem treeFrom_handle {fuel : ℕ} (ht : Stores layout h t) (hc : Complete t)
    (hk : Kinded (erase t)) (hn : NoParen (erase t)) (hl : Leaves (IsOperand h) (erase t))
    (hfuel : (ids t).length < fuel) : treeFrom fuel h (handle t) = some (erase t) := by
  induction t generalizing fuel with
  | hole => exact hc.elim
  | leaf v =>
    obtain ⟨fuel, rfl⟩ := Nat.exists_eq_succ_of_ne_zero (Nat.ne_of_gt hfuel)
    exact treeFrom_leaf hl fuel
  | pre p x ih | suf p x ih =>
    obtain ⟨fuel, rfl⟩ := Nat.exists_eq_succ_of_ne_zero (Nat.ne_zero_of_lt hfuel)
    have hx : treeFrom fuel h _ = _ := ih ht.2 hc hk.2 hn hl (by simpa [ids] using hfuel)
    have hcell := ht.1
    rw [slots_of_complete (x := x) hc] at hcell
    rw [handle, treeFrom, opOf_root ht rfl]
    simp [terms, hcell, hk.1, hx, erase]
  | grp p x => exact hn.elim
  | inf p l r ihl ihr =>
    obtain ⟨fuel, rfl⟩ := Nat.exists_eq_succ_of_ne_zero (Nat.ne_zero_of_lt hfuel)
    simp only [ids, List.length_cons, List.length_append] at hfuel
    have hl' : treeFrom fuel h _ = _ := ihl ht.2.1 hc.1 hk.2.1 hn.1 hl.1 (by omega)
    have hr' : treeFrom fuel h _ = _ := ihr ht.2.2 hc.2 hk.2.2 hn.2 hl.2 (by omega)
    have hcell := ht.1
    rw [slots_of_complete hc.1, slots_of_complete hc.2] at hcell
    rw [handle, treeFrom, opOf_root ht rfl]
    simp [terms, hcell, hk.1, hl', hr', erase]

/-- A stored tree is read off its handle. -/
theorem treeOf_handle (ht : Held layout h t) (hc : Complete t) (hk : Kinded (erase t))
    (hn : NoParen (erase t)) (hl : Leaves (IsOperand h) (erase t)) :
    treeOf h (handle t) = some (erase t) :=
  treeFrom_handle ht.stores hc hk hn hl (Nat.lt_succ_of_le ht.length_ids_le)

end TabnasExpr.Ts
