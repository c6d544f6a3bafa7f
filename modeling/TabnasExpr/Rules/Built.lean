import TabnasExpr.Rules.Flat
import TabnasExpr.Rules.Outcome

/-!
# Trees read off the nodes

What a run without an evaluator builds is the tree that its value stands for on the nodes, when every
operator has all its operands there (`treeOf`).  On the text of an expression it is that expression's
tree (`Expr.builds`).
-/

namespace TabnasExpr.Rules

open OpTree OpTree.Tree Ts Machine

universe u v

variable {σ : Type v} {α : Type u}

/-- Read an expression tree with its parens, at most so many nodes deep. -/
def treeFrom : ℕ → Heap α → Val α → Option (Tree Op (Val α))
  | 0, _, _ => none
  | _ + 1, _, .undefined => none
  | _ + 1, _, .atom a => some (leaf (.atom a))
  | fuel + 1, h, .node i =>
    match h.cell i with
    | some ⟨some op, [x]⟩ =>
      match op.kind with
      | .prefixOp => (treeFrom fuel h x).map (pre op)
      | .suffixOp => (treeFrom fuel h x).map (suf op)
      | .parenOp => (treeFrom fuel h x).map (grp op)
      | _ => none
    | some ⟨some op, [l, r]⟩ =>
      if op.kind = .infixOp then
        (treeFrom fuel h l).bind fun l => (treeFrom fuel h r).map (inf op l)
      else none
    | _ => none

/-- The tree a value stands for. -/
def treeOf (h : Heap α) (v : Val α) : Option (Tree Op (Val α)) := treeFrom (h.last + 2) h v

theorem treeFrom_handle {h : Heap α} {t : Tree (ℕ × Op) (Val α)} {fuel : ℕ}
    (ht : Stores layout h t) (hc : Complete t) (hk : Slotted (erase t)) (hl : Leaves IsAtom (erase t))
    (hfuel : (ids t).length < fuel) : treeFrom fuel h (handle t) = some (group (erase t)) := by
  induction t generalizing fuel with
  | hole => exact hc.elim
  | leaf v =>
    obtain ⟨a, rfl⟩ := hl
    obtain ⟨fuel, rfl⟩ := Nat.exists_eq_succ_of_ne_zero (Nat.ne_of_gt hfuel)
    rfl
  | pre p x ih =>
    obtain ⟨fuel, rfl⟩ := Nat.exists_eq_succ_of_ne_zero (Nat.ne_zero_of_lt hfuel)
    have hx : treeFrom fuel h _ = _ := ih ht.2 hc hk.2 hl (by simpa [ids] using hfuel)
    have hcell := ht.1
    rw [slots_of_complete (x := x) hc] at hcell
    rw [handle, treeFrom]
    rcases hk.1 with hp | ⟨hp, -⟩
    · simp [hcell, hp, hx, erase, group]
    · simp [hcell, hp, hx, erase, group]
  | suf p x ih =>
    obtain ⟨fuel, rfl⟩ := Nat.exists_eq_succ_of_ne_zero (Nat.ne_zero_of_lt hfuel)
    have hx : treeFrom fuel h _ = _ := ih ht.2 hc hk.2 hl (by simpa [ids] using hfuel)
    have hcell := ht.1
    rw [slots_of_complete (x := x) hc] at hcell
    rw [handle, treeFrom]
    simp [hcell, hk.1, hx, erase, group]
  | grp p x ih =>
    obtain ⟨fuel, rfl⟩ := Nat.exists_eq_succ_of_ne_zero (Nat.ne_zero_of_lt hfuel)
    have hx : treeFrom fuel h _ = _ := ih ht.2 hc hk.2.2 hl (by simpa [ids] using hfuel)
    have hcell := ht.1
    rw [slots_of_complete (x := x) hc] at hcell
    rw [handle, treeFrom]
    simp [hcell, hk.1, hx, erase, group]
  | inf p l r ihl ihr =>
    obtain ⟨fuel, rfl⟩ := Nat.exists_eq_succ_of_ne_zero (Nat.ne_zero_of_lt hfuel)
    simp only [ids, List.length_cons, List.length_append] at hfuel
    have hl' : treeFrom fuel h _ = _ := ihl ht.2.1 hc.1 hk.2.1 hl.1 (by omega)
    have hr' : treeFrom fuel h _ = _ := ihr ht.2.2 hc.2 hk.2.2 hl.2 (by omega)
    have hcell := ht.1
    rw [slots_of_complete hc.1, slots_of_complete hc.2] at hcell
    rw [handle, treeFrom]
    simp [hcell, hk.1, hl', hr', erase, group]

/-- The tree the rules build for a sequence of tokens when no evaluator is installed. -/
def Builds (tokens : List (Sym Op α)) (T : Tree Op (Val α)) : Prop :=
  ∃ fuel m, run (none : Option (Evaluator Unit α)) fuel (start () tokens) = some m ∧
    treeOf m.world.heap (m.node 1) = some T

/-- Without an evaluator the tree is built that the expression reads as. -/
theorem Expr.builds {e : Expr α} (hk : e.Kinded) : Builds e.text (group e.flat.1) := by
  obtain ⟨fuel, m, t, T, cs, cs', hrun, hnode, ht, -, ⟨d, hreads⟩, -, hT⟩ :=
    Expr.run_scalar (none : Option (Evaluator Unit α)) scalar_none hk ()
  have hform := hreads.formed hk
  rw [← hT] at hform
  refine ⟨fuel, m, hrun, ?_⟩
  rw [hnode, treeOf, ← hreads.eq_flat.1, ← hT]
  exact treeFrom_handle ht.held.stores (complete_erase.1 hform.complete) hform.slotted
    (ht.leaves.mono fun _ hv => hv.2 scalar_none) (Nat.lt_succ_of_le ht.held.length_ids_le)

/-- One tree is built. -/
theorem Builds.unique {tokens : List (Sym Op α)} {T T' : Tree Op (Val α)} (h : Builds tokens T)
    (h' : Builds tokens T') : T = T' := by
  obtain ⟨fuel, m, hrun, hT⟩ := h
  obtain ⟨fuel', m', hrun', hT'⟩ := h'
  obtain rfl := run_unique hrun hrun'
  exact Option.some.inj (hT.symm.trans hT')

end TabnasExpr.Rules
