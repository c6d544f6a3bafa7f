import TabnasExpr.Sequence

/-!
# Sequences one after another

A sequence after an infix operator, and a sequence under prefix operators.  When the operator takes
everything before it and binds its right operand less tightly than the infix operators after it bind
their left ones, the tree is the operator's node over the trees of the two sequences (`tree_append`).
-/

namespace TabnasExpr

open OpTree OpTree.Tree

variable {α : Type*}

namespace Seq

/-- A sequence whose first operand is under more prefix operators. -/
def under (ps : List Op) : Seq α → Seq α
  | lead qs x => lead (ps ++ qs) x
  | more e o qs x => more (under ps e) o qs x
  | suffixed e s => suffixed (under ps e) s

/-- An infix operator between two sequences. -/
@[simp] def append (e : Seq α) (o : Op) : Seq α → Seq α
  | lead ps x => more e o ps x
  | more e' o' ps x => more (append e o e') o' ps x
  | suffixed e' s => suffixed (append e o e') s

/-- The infix operators of a sequence. -/
def infixes : Seq α → List Op
  | lead _ _ => []
  | more e o _ _ => infixes e ++ [o]
  | suffixed e _ => infixes e

variable {e e' f : Seq α} {o q : Op} {ps : List Op}

theorem under_under (qs : List Op) : under ps (under qs e) = under (ps ++ qs) e := by
  induction e with
  | lead rs x => simp [under]
  | more e o rs x ih => simp [under, ih]
  | suffixed e s ih => simp [under, ih]

@[simp] theorem under_nil : under [] e = e := by
  induction e with
  | lead rs x => rfl
  | more e o rs x ih => simp [under, ih]
  | suffixed e s ih => simp [under, ih]

theorem under_append : under ps (append e o e') = append (under ps e) o e' := by
  induction e' with
  | lead rs x => rfl
  | more e' q rs x ih => simp [under, append, ih]
  | suffixed e' s ih => simp [under, append, ih]

theorem append_append : append e o (append e' q f) = append (append e o e') q f := by
  induction f with
  | lead rs x => rfl
  | more f r rs x ih => simp [append, ih]
  | suffixed f s ih => simp [append, ih]

theorem infixes_append : infixes (append e o e') = infixes e ++ o :: infixes e' := by
  induction e' with
  | lead rs x => rfl
  | more e' q rs x ih => simp [append, infixes, ih]
  | suffixed e' s ih => simp [append, infixes, ih]

theorem Kinded.append (he : Kinded e) (ho : o.kind = .infixOp) (he' : Kinded e') :
    Kinded (append e o e') := by
  induction e' with
  | lead rs x => exact ⟨he, ho, he'⟩
  | more e' q rs x ih => exact ⟨ih he'.1, he'.2⟩
  | suffixed e' s ih => exact ⟨ih he'.1, he'.2⟩

theorem NoSuffix.append (he : NoSuffix e) (he' : NoSuffix e') : NoSuffix (append e o e') := by
  induction e' with
  | lead rs x => exact he
  | more e' q rs x ih => exact ih he'
  | suffixed e' s ih => exact he'.elim

/-- An operator that takes a whole tree stands above it. -/
theorem attach_of_takes {t : Tree Op (Val α)} (h : Takes o t) : attach o t = inf o t hole := by
  cases t with
  | pre p x | inf p l r => simp [attach, not_lt.2 h]
  | hole | leaf | suf | grp => rfl

theorem tree_append (he' : NoSuffix e') (ht : Takes o (tree e))
    (hr : ∀ q ∈ infixes e', o.right < q.left) :
    tree (append e o e') = inf o (tree e) (tree e') := by
  induction e' with
  | lead rs x => simp [append, attach_of_takes ht, fill]
  | more e' q rs x ih =>
    have hq : o.right < q.left := hr q (by simp [infixes])
    rw [append, tree_more, ih he' fun p hp => hr p (by simp [infixes, hp]), attach]
    simp [hq, fill]
  | suffixed e' s ih => exact he'.elim

end Seq

end TabnasExpr
