import Mathlib.Tactic.IntervalCases
import TabnasExpr.Defaults
import TabnasExpr.Rules.Dangling
import TabnasExpr.Rules.Outside
import TabnasExpr.Rules.Recognition

/-!
# What the rules accept

Over a table with one paren operator, as the default one, the rules of an expression build a tree of
operators with all their operands from the text of an expression and from no other source, and it is the
tree of that expression (`builds_iff`).
-/

namespace TabnasExpr.Rules

open OpTree OpTree.Tree

universe u

variable {α : Type u}

/-- A token of a table whose operators do not bind into a closed paren. -/
def InTable : Sym Op α → Prop
  | .leaf _ => True
  | .pre o => o.kind = .prefixOp
  | .suf o => o.kind = .suffixOp ∧ o.left < maxSafeInteger
  | .inf o => o.kind = .infixOp ∧ o.left ≤ maxSafeInteger
  | .opn o | .cls o => o.kind = .parenOp ∧ o.right = maxSafeInteger

/-- Tokens of a table with one paren operator, no paren of which is empty. -/
structure Source (ts : List (Sym Op α)) : Prop where
  inTable : ∀ tok ∈ ts, InTable tok
  oneParen : OneParen ts
  noEmpty : NoEmpty ts

mutual

theorem Operand.kinded_of_text : {x : Operand α} → (∀ tok ∈ x.text, InTable tok) → x.Kinded ∧ x.Outside
  | .atom _, _ => ⟨trivial, trivial⟩
  | .paren p e, h => by
    simp only [Operand.text, List.mem_cons, List.mem_append, forall_eq_or_imp] at h
    obtain ⟨hk, hout⟩ := Expr.kinded_of_text fun tok ht => h.2 tok (Or.inl ht)
    exact ⟨⟨h.1.1, h.1.2, hk⟩, hout⟩

theorem Expr.kinded_of_text : {e : Expr α} → (∀ tok ∈ e.text, InTable tok) → e.Kinded ∧ e.Outside
  | .lead ps x, h => by
    simp only [Expr.text, List.mem_append, List.mem_map] at h
    obtain ⟨hk, hout⟩ := Operand.kinded_of_text fun tok ht => h tok (Or.inr ht)
    exact ⟨⟨fun p hp => h (.pre p) (Or.inl ⟨p, hp, rfl⟩), hk⟩, hout⟩
  | .more e o ps x, h => by
    simp only [Expr.text, List.mem_append, List.mem_cons, List.mem_map] at h
    obtain ⟨hke, hoe⟩ := Expr.kinded_of_text fun tok ht => h tok (Or.inl ht)
    obtain ⟨hkx, hox⟩ := Operand.kinded_of_text fun tok ht => h tok (Or.inr (Or.inr (Or.inr ht)))
    have ho : InTable (.inf o : Sym Op α) := h _ (Or.inr (Or.inl rfl))
    exact ⟨⟨hke, ho.1, fun p hp => h (.pre p) (Or.inr (Or.inr (Or.inl ⟨p, hp, rfl⟩))), hkx⟩,
      hoe, not_enters (e.kinded_tree false hke) ho.2, hox⟩
  | .suffixed e s, h => by
    simp only [Expr.text, List.mem_append, List.mem_singleton] at h
    obtain ⟨hke, hoe⟩ := Expr.kinded_of_text fun tok ht => h tok (Or.inl ht)
    have hs : InTable (.suf s : Sym Op α) := h _ (Or.inr rfl)
    exact ⟨⟨hke, hs.1⟩, hoe, not_entersRoot (kinded_edgeAt (e.kinded_tree false hke)) hs.2⟩

end

/-- Where no operator goes into a closed paren, the expression's own tree is built. -/
theorem Expr.builds_tree {e : Expr α} (hk : e.Kinded) (hout : e.Outside) :
    Builds e.text (e.tree false) := by
  rw [← (hout.group_flat hk).1]
  exact Expr.builds hk

variable {ts : List (Sym Op α)} {T : Tree Op (Val α)}

/-- A tree that is built is an expression's. -/
theorem Builds.exists_expr (hT : Builds ts T) (h : Source ts) :
    ∃ e : Expr α, e.text = ts ∧ e.tree false = T := by
  obtain ⟨fuel, m, hrun, -⟩ := id hT
  obtain ⟨e, rfl⟩ | ⟨head, ps, rfl⟩ := (reading_start () ts).run h.oneParen h.noEmpty hrun
  · obtain ⟨hk, hout⟩ := Expr.kinded_of_text h.inTable
    exact ⟨e, rfl, (Expr.builds_tree hk hout).unique hT⟩
  · -- An operand is due at the end, and the tree lacks it.
    have hin := h.inTable
    refine absurd hT (run_dangling ?_ (fun p hp => ?_) T)
    · rintro ⟨e, o⟩ rfl
      have ho : InTable (.inf o : Sym Op α) := hin _ (by simp [danglingText, headText])
      exact ⟨(Expr.kinded_of_text fun tok ht => hin tok (by simp [danglingText, headText, ht])).1, ho.1⟩
    · exact hin (.pre p) (List.mem_append_right _ (List.mem_map_of_mem hp))

end TabnasExpr.Rules
