import TabnasExpr.Append
import TabnasExpr.Rules.Held
import TabnasExpr.Rules.Recognition

/-!
# Expressions one after another

Every token of an expression stands in its tree, in its place, those of its parens included
(`Expr.read_tree`), and nothing in the tree binds against the powers (`Expr.ordered_tree`).  Where an
infix operator takes all that is before it, and all that is after it binds more tightly, the tree is its
node over the trees of the two sides (`Expr.tree_append`).
-/

namespace TabnasExpr.Rules

open OpTree OpTree.Tree

universe u

variable {α : Type u}

/-- A token whose operand is a value of the parse. -/
def asValue : Sym Op α → Sym Op (Val α)
  | .leaf a => .leaf (.atom a)
  | .pre o => .pre o
  | .suf o => .suf o
  | .inf o => .inf o
  | .opn o => .opn o
  | .cls o => .cls o

theorem asValue_injective : Function.Injective (asValue (α := α)) := by
  intro a b h
  cases a <;> cases b <;> simp [asValue] at h ⊢ <;> exact h

/-! ## The tokens of a tree -/

mutual

theorem Operand.read_tree : (x : Operand α) → x.Kinded → read (x.tree false) = x.text.map asValue
  | .atom a, _ => by
    rw [Operand.tree]
    rfl
  | .paren p e, hk => by
    rw [tree_paren, read_grp, e.read_tree hk.2.2, Operand.text]
    simp [asValue]

theorem Expr.read_tree : (e : Expr α) → e.Kinded → read (e.tree false) = e.text.map asValue
  | .lead ps x, hk => by
    rw [tree_lead, Tree.read_prefixes, x.read_tree hk.2, Expr.text, List.map_append, List.map_map]
    rfl
  | .more e o ps x, hk => by
    have hopen := open_attach o (e.formed_tree false hk.1).complete
    rw [tree_more, read_fill hopen, read_attach, Tree.read_prefixes, e.read_tree hk.1,
      x.read_tree hk.2.2.2, Expr.text, List.append_assoc, List.map_append, List.map_cons, List.map_append,
      List.map_map]
    rfl
  | .suffixed e s, hk => by
    have hedge := (e.formed_tree false hk.1).onEdge
    rw [tree_suffixed (by simp), read_onEdge hedge read_suffixAt, e.read_tree hk.1, Expr.text]
    simp [asValue]

end

/-- An expression's tree has the tokens of no other expression. -/
theorem Expr.text_eq_of_tree {e e' : Expr α} (hk : e.Kinded) (hk' : e'.Kinded)
    (h : e.tree false = e'.tree false) : e.text = e'.text := by
  have hread := congrArg read h
  rw [e.read_tree hk, e'.read_tree hk'] at hread
  exact List.map_injective_iff.2 asValue_injective hread

theorem isOperand_tree (x : Operand α) : IsOperand (x.tree false) := by
  cases x <;> simp [Operand.tree, IsOperand]

mutual

theorem Operand.ordered_tree : (x : Operand α) → x.Kinded → Ordered (x.tree false)
  | .atom a, _ => by
    rw [Operand.tree]
    trivial
  | .paren p e, hk => by
    rw [tree_paren]
    exact e.ordered_tree hk.2.2

/-- Around an infix operator nothing binds against the powers, whatever the table. -/
theorem Expr.ordered_tree : (e : Expr α) → e.Kinded → Ordered (e.tree false)
  | .lead ps x, hk => by
    rw [tree_lead]
    exact ordered_prefixes ps (x.ordered_tree hk.2) (isOperand_tree x)
  | .more e o ps x, hk => by
    rw [tree_more]
    exact ordered_fill (ordered_attach o (e.ordered_tree hk.1))
      (ordered_prefixes ps (x.ordered_tree hk.2.2.2) (isOperand_tree x))
      (isOperand_prefixes ps (isOperand_tree x))
  | .suffixed e s, hk => by
    have hedge := (e.formed_tree false hk.1).onEdge
    have he := e.ordered_tree hk.1
    rw [tree_suffixed (by simp)]
    exact ordered_onEdge hedge he (ordered_suffixAt (ordered_edgeAt hedge he)) fun _ => fitsRight_suffixAt

end

/-- No paren of an expression is empty. -/
theorem Expr.noEmpty_text (e : Expr α) : NoEmpty e.text := by
  intro us p q vs h
  have hread := e.read_text .top
  rw [h, Config.read_append] at hread
  obtain ⟨c, -, hread⟩ := Option.bind_eq_some_iff.1 hread
  obtain ⟨c₁, hopn, hread⟩ := Option.bind_eq_some_iff.1 hread
  obtain ⟨c₂, hcls, -⟩ := Option.bind_eq_some_iff.1 hread
  cases c with
  | operand L head ps =>
    cases hopn
    cases hcls
  | after L e => cases hopn

/-! ## An infix operator between two expressions -/

/-- An infix operator between two expressions. -/
def Expr.append (e : Expr α) (o : Op) : Expr α → Expr α
  | .lead ps x => .more e o ps x
  | .more f q ps x => .more (e.append o f) q ps x
  | .suffixed f s => .suffixed (e.append o f) s

/-- There is no suffix operator, and every infix operator binds its left operand at least so tightly. -/
def Expr.AtLeast (b : ℤ) : Expr α → Prop
  | .lead _ _ => True
  | .more e q _ _ => e.AtLeast b ∧ b ≤ q.left
  | .suffixed _ _ => False

variable {o : Op} {b c : ℤ}

theorem Expr.text_append (e : Expr α) (o : Op) (f : Expr α) :
    (e.append o f).text = e.text ++ .inf o :: f.text := by
  fun_induction Expr.append e o f with
  | case1 ps x => rw [Expr.text, Expr.text]
  | case2 f q ps x ih => rw [Expr.text, Expr.text, ih, List.append_assoc, List.cons_append]
  | case3 f s ih => rw [Expr.text, Expr.text, ih, List.append_assoc, List.cons_append]

theorem Expr.AtLeast.mono (hbc : c ≤ b) : {e : Expr α} → e.AtLeast b → e.AtLeast c
  | .lead _ _, _ => trivial
  | .more _ _ _ _, h => ⟨AtLeast.mono hbc h.1, hbc.trans h.2⟩

theorem Expr.AtLeast.append (ho : b ≤ o.left) {e : Expr α} (he : e.AtLeast b) :
    {f : Expr α} → f.AtLeast b → (e.append o f).AtLeast b
  | .lead _ _, _ => ⟨he, ho⟩
  | .more _ _ _ _, h => ⟨he.append ho h.1, h.2⟩

theorem Expr.tree_append {e : Expr α} (ht : Takes o (e.tree false)) (hb : o.right < b) :
    {f : Expr α} → f.AtLeast b → (e.append o f).tree false = inf o (e.tree false) (f.tree false)
  | .lead ps x, _ => by
    rw [Expr.append, tree_more, tree_lead, Seq.attach_of_takes ht]
    rfl
  | .more f q ps x, h => by
    have hq : right o < left q := hb.trans_le h.2
    rw [Expr.append, tree_more, tree_more, tree_append ht hb h.1, attach, if_pos hq]
    rfl

end TabnasExpr.Rules
