import TabnasExpr.Rules.Expression

/-!
# The tree that is built without an evaluator

Without an evaluator an expression leaves one tree on the nodes (`Expr.flat`), in which a closed paren
stands as a prefix operator.  What is built is that tree with the closed parens as groups (`group`).
-/

namespace TabnasExpr.Rules

open OpTree OpTree.Tree

universe u v

variable {σ : Type v} {α : Type u}

/-- The tree with its closed parens, which stand as prefix operators, as groups. -/
def group {β : Type*} : Tree Op β → Tree Op β
  | hole => hole
  | leaf v => leaf v
  | pre o x => if o.kind = .parenOp then grp o (group x) else pre o (group x)
  | suf o x => suf o (group x)
  | inf o l r => inf o (group l) (group r)
  | grp o x => grp o (group x)

@[simp] theorem operators_group {β : Type*} (T : Tree Op β) : operators (group T) = operators T := by
  induction T with
  | pre o x ih =>
    unfold group
    split_ifs <;> simp [ih]
  | hole | leaf => rfl
  | suf o x ih | grp o x ih => simp [group, ih]
  | inf o l r ihl ihr => simp [group, ihl, ihr]

theorem complete_group {β : Type*} {T : Tree Op β} (h : Complete T) : Complete (group T) := by
  induction T with
  | hole => exact h.elim
  | leaf => trivial
  | pre o x ih =>
    unfold group
    split_ifs <;> exact ih h
  | suf o x ih | grp o x ih => exact ih h
  | inf o l r ihl ihr => exact ⟨ihl h.1, ihr h.2⟩

theorem kinded_group {β : Type*} {T : Tree Op β} (h : Slotted T) : Kinded (group T) := by
  induction T with
  | hole | leaf => trivial
  | pre o x ih =>
    rcases h.1 with ho | ⟨ho, hr⟩
    · simpa [group, ho, KindedBy] using ih h.2
    · simpa [group, ho, hr, KindedBy] using ih h.2
  | suf o x ih => exact ⟨h.1, ih h.2⟩
  | inf o l r ihl ihr => exact ⟨h.1, ihl h.2.1, ihr h.2.2⟩
  | grp o x ih => exact ⟨h.1, h.2.1, ih h.2.2⟩

theorem leaves_group {β : Type*} {Q : β → Prop} {T : Tree Op β} (h : Leaves Q T) :
    Leaves Q (group T) := by
  induction T with
  | hole | leaf => exact h
  | pre o x ih =>
    unfold group
    split_ifs <;> exact ih h
  | suf o x ih | grp o x ih => exact ih h
  | inf o l r ihl ihr => exact ⟨ihl h.1, ihr h.2⟩

mutual

/-- What stands for an operand without an evaluator. -/
def Operand.flat : Operand α → Tree Op (Val α)
  | .atom a => leaf (.atom a)
  | .paren p e => pre p e.flat.1

/-- The tree on the nodes without an evaluator, in which a closed paren stands as a prefix operator, and
the depth of the attachment node. -/
def Expr.flat : Expr α → Tree Op (Val α) × ℕ
  | .lead ps x => (prefixes ps x.flat, 0)
  | .more e o ps x => (fill (prefixes ps x.flat) (attach o e.flat.1), attachDepth o e.flat.1)
  | .suffixed e s => (onEdge (suffixFlat s) e.flat.2 e.flat.1, e.flat.2)

end

mutual

theorem Operand.Reads.eq_flat : {x : Operand α} → {cs : List (Call α)} → {y : Tree Op (Val α)} →
    x.Reads (none : Option (Evaluator σ α)) cs y → y = x.flat
  | .atom _, _, _, ⟨_, hy⟩ => by
    rw [hy, Operand.flat]
  | .paren _ _, _, _, ⟨_, _, _, _, he, ⟨_, hy⟩, _⟩ => by
    rw [hy, he.eq_flat.1, Operand.flat]

/-- Without an evaluator one tree is read. -/
theorem Expr.Reads.eq_flat : {e : Expr α} → {ends : Bool} → {cs : List (Call α)} →
    {T : Tree Op (Val α)} → {d : ℕ} → e.Reads (none : Option (Evaluator σ α)) ends cs T d →
    T = e.flat.1 ∧ d = e.flat.2
  | .lead [] _, _, _, _, _, ⟨hd, hx⟩ => by
    simp [Expr.flat, prefixes, hd, hx.eq_flat]
  | .lead (p :: ps) _, ends, _, _, _, ⟨hd, _, y, _, _, hx, _, hcl, _⟩ => by
    obtain rfl : _ = prefixes (p :: ps) y := by
      cases ends <;> exact hcl.2
    simp [Expr.flat, hd, hx.eq_flat]
  | .more _ _ _ _, _, _, _, _, ⟨_, _, _, _, _, _, he, hx, hT, hd, _⟩ => by
    simp [Expr.flat, hT, hd, he.eq_flat.1, hx.eq_flat]
  | .suffixed _ _, _, _, _, _, ⟨_, he, hT⟩ => by
    simp [Expr.flat, hT, he.eq_flat.1, he.eq_flat.2]

end

theorem operators_suffixed {T : Tree Op (Val α)} {d : ℕ} (h : OnEdge d T) (s : Op) :
    operators (onEdge (suffixFlat s) d T) = operators T ++ [s] := by
  have hread : read (onEdge (suffixFlat s) d T) = read T ++ [.suf s] := read_onEdge h read_suffixFlat
  simp [operators, hread, ops]

mutual

theorem Operand.formed_flat : {x : Operand α} → x.Kinded → Formed x.flat 0
  | .atom a, _ => by
    rw [Operand.flat]
    exact formed_leaf (.atom a)
  | .paren _ e, hk => by
    rw [Operand.flat]
    exact (e.formed_flat hk.2.2).closed hk.1 hk.2.1

theorem Expr.formed_flat : (e : Expr α) → e.Kinded → Formed e.flat.1 e.flat.2
  | .lead _ _, hk => by
    rw [Expr.flat]
    exact (Operand.formed_flat hk.2).prefixes hk.1
  | .more e _ _ _, hk => by
    rw [Expr.flat]
    exact (e.formed_flat hk.1).more ((Operand.formed_flat hk.2.2.2).prefixes hk.2.2.1) hk.2.1
  | .suffixed e _, hk => by
    rw [Expr.flat]
    exact (e.formed_flat hk.1).suffixed hk.2

end

mutual

theorem Operand.leaves_flat : (x : Operand α) → Leaves IsAtom x.flat
  | .atom a => by
    rw [Operand.flat]
    exact ⟨a, rfl⟩
  | .paren _ e => by
    rw [Operand.flat]
    exact e.leaves_flat

theorem Expr.leaves_flat : (e : Expr α) → Leaves IsAtom e.flat.1
  | .lead ps x => by
    rw [Expr.flat]
    exact leaves_prefixes ps x.leaves_flat
  | .more e o ps x => by
    rw [Expr.flat]
    exact leaves_fill (leaves_attach o e.leaves_flat) (leaves_prefixes ps x.leaves_flat)
  | .suffixed e s => by
    rw [Expr.flat]
    exact leaves_onEdge e.leaves_flat (leaves_suffixFlat (leaves_edgeAt e.leaves_flat))

end

mutual

theorem Operand.noParen_flat : (x : Operand α) → NoParen x.flat
  | .atom a => by
    rw [Operand.flat]
    trivial
  | .paren _ e => by
    rw [Operand.flat]
    exact e.noParen_flat

theorem Expr.noParen_flat : (e : Expr α) → NoParen e.flat.1
  | .lead ps x => by
    rw [Expr.flat]
    exact noParen_prefixes ps x.noParen_flat
  | .more e o ps x => by
    rw [Expr.flat]
    exact noParen_fill (noParen_attach e.noParen_flat) (noParen_prefixes ps x.noParen_flat)
  | .suffixed e s => by
    rw [Expr.flat]
    exact noParen_onEdge e.noParen_flat (noParen_suffixFlat (noParen_edgeAt e.noParen_flat))

end

mutual

theorem Operand.operators_flat : {x : Operand α} → x.Kinded → operators x.flat = ops x.text
  | .atom _, _ => by simp [Operand.flat, Operand.text, ops]
  | .paren _ e, hk => by simp [Operand.flat, Operand.text, ops, e.operators_flat hk.2.2]

/-- The tree has the operators of the tokens, in their order. -/
theorem Expr.operators_flat : (e : Expr α) → e.Kinded → operators e.flat.1 = ops e.text
  | .lead ps x, hk => by
    simp [Expr.flat, Expr.text, operators_prefixes, Operand.operators_flat hk.2]
  | .more e o ps x, hk => by
    have hopen := open_attach o (e.formed_flat hk.1).complete
    simp [Expr.flat, Expr.text, operators_fill hopen, operators_attach, operators_prefixes,
      e.operators_flat hk.1, Operand.operators_flat hk.2.2.2, ops]
  | .suffixed e s, hk => by
    simp [Expr.flat, Expr.text, operators_suffixed (e.formed_flat hk.1).onEdge, e.operators_flat hk.1,
      ops]

end

end TabnasExpr.Rules
