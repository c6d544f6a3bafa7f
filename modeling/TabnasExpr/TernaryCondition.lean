import TabnasExpr.Go.Ternary

/-!
# The condition of a ternary

In the Go port the condition of a ternary is the whole expression before it.  In TypeScript and Rust
it is the tree at the attachment node, which is the whole expression exactly when the last infix
operator took everything before it as its left operand (`ternary_takes_whole_iff`).
-/

namespace TabnasExpr

open OpTree OpTree.Tree

universe u

variable {α : Type u}

namespace Seq

/-- The last infix operator takes the whole expression before it as its left operand. -/
def LastTakes : Seq α → Prop
  | lead _ _ => True
  | more e o _ _ => Takes o (tree e)
  | suffixed e _ => LastTakes e

theorem depth_eq_zero_iff (e : Seq α) : e.depth = 0 ↔ e.LastTakes := by
  induction e with
  | lead ps x => exact iff_of_true rfl trivial
  | more e o ps x _ => exact attachDepth_eq_zero_iff
  | suffixed e s ih => exact ih

end Seq

section Condition

variable {T : Tree Op (Val α)} {d : ℕ}

theorem length_read_edgeAt (hd : OnEdge d T) : (read (edgeAt d T)).length + d ≤ (read T).length := by
  induction d generalizing T with
  | zero => exact le_rfl
  | succ d ih =>
    cases T with
    | pre p x =>
      have := ih (T := x) hd
      simp only [edgeAt, read_pre, List.length_cons]
      omega
    | inf p l x =>
      have := ih (T := x) hd
      simp only [edgeAt, read_inf, List.length_append, List.length_cons]
      omega
    | hole | leaf | suf | grp => exact hd.elim

/-- Below the root there is no tree as large. -/
theorem edgeAt_eq_self_iff (hd : OnEdge d T) : edgeAt d T = T ↔ d = 0 := by
  constructor
  · intro h
    have := length_read_edgeAt hd
    rw [h] at this
    omega
  · rintro rfl
    rfl

theorem IsTernary.cond_eq {h : Ts.Heap α} {v : Val α} {op : Op} {c c' x x' y y' : Tree Op (Val α)}
    (hc : IsTernary h v op c x y) (hc' : IsTernary h v op c' x' y') : c = c' := by
  obtain ⟨i, vs, rfl, hi, hvs⟩ := hc
  obtain ⟨j, us, hj, hi', hus⟩ := hc'
  cases hj
  rw [hi] at hi'
  cases hi'
  rw [hvs] at hus
  injection hus with hus
  exact Option.some.inj hus

/-- In both ports: the condition is the whole tree, and the ternary the root, when the attachment node
is the root. -/
theorem run_ternary_iff {P : Port α} (s : P.State) (op : Op) {e a b : Seq α} (he : e.Kinded)
    (ha : a.Kinded) (hb : b.Kinded) :
    ∃ r₀ T r, Run.run e.text (Run.start s) = some r₀ ∧
      Ts.treeOf (P.heap r₀.store) r₀.root = some T ∧ Run.ternary op e a b s = some r ∧
      (IsTernary (P.heap r.store) r.attach op T a.tree b.tree ↔ e.depth = 0) ∧
      (r.root = r.attach ↔ e.depth = 0) := by
  obtain ⟨r₀, t, hr₀, h₀⟩ := run_text s he
  obtain ⟨r, hr, hternary, hroot⟩ := run_ternary s op he ha hb
  refine ⟨r₀, e.tree, r, hr₀, h₀.treeOf he, hr, ?_, hroot⟩
  rw [← edgeAt_eq_self_iff e.onEdge_depth]
  constructor
  · exact hternary.cond_eq
  · intro h
    rwa [h] at hternary

end Condition

/-- A ternary after `e`: in TypeScript and Rust its condition is the tree `e` builds alone exactly when
the last infix operator of `e` took everything before it, and so is it the root of the expression; in
Go both are always so. -/
theorem ternary_takes_whole_iff (lang : Lang) (s : (lang.port (α := α)).State) (h : Go.Heap α)
    {op : Op} {e a b : Seq α} (hop : op.kind = .ternaryOp) (he : e.Kinded) (ha : a.Kinded)
    (hb : b.Kinded) :
    (∃ r₀ T r, Run.run e.text (Run.start s) = some r₀ ∧
      Ts.treeOf (lang.port.heap r₀.store) r₀.root = some T ∧ Run.ternary op e a b s = some r ∧
      (IsTernary (lang.port.heap r.store) r.attach op T a.tree b.tree ↔ e.LastTakes) ∧
      (r.root = r.attach ↔ e.LastTakes)) ∧
    ∃ r₀ T r, Go.Run.run e.text (Go.Run.start h) = some r₀ ∧
      Ts.treeOf (Go.cleaned r₀.heap) r₀.root = some T ∧ Go.Run.ternary op e a b h = some r ∧
      IsTernary (Go.cleaned r.heap) r.root op T a.goTree b.goTree := by
  constructor
  · simp only [← e.depth_eq_zero_iff]
    exact run_ternary_iff s op he ha hb
  · obtain ⟨r₀, t, hr₀, h₀⟩ := Go.run_text h he
    obtain ⟨r, hr, hternary⟩ := Go.run_ternary h hop he ha hb
    exact ⟨r₀, e.goTree, r, hr₀, h₀.treeOf he, hr, hternary⟩

/-- A ternary operator, as a table gives it: no powers. -/
def conditional : Op := ⟨"conditional-ternary", "?", .ternaryOp, minSafeInteger, maxSafeInteger⟩

/-- `0*1+2 ? 3 : 4`: the sum took the product. -/
theorem ternary_takes_whole_iff_default :
    Seq.LastTakes (.more (.more (.lead [] 0) multiplication [] 1) addition [] 2) ∧
    ∃ r₀ T r, Run.run (Seq.text (.more (.more (.lead [] 0) multiplication [] 1) addition [] 2))
        (Run.start Lang.rust.start) = some r₀ ∧
      Ts.treeOf (Lang.rust.port.heap r₀.store) r₀.root = some T ∧
      Run.ternary conditional (.more (.more (.lead [] 0) multiplication [] 1) addition [] 2)
        (.lead [] 3) (.lead [] 4) Lang.rust.start = some r ∧
      IsTernary (Lang.rust.port.heap r.store) r.attach conditional T
        (Seq.tree (.lead [] 3)) (Seq.tree (.lead [] 4)) ∧ r.root = r.attach := by
  have hlast : Seq.LastTakes (.more (.more (.lead [] 0) multiplication [] 1) addition [] 2) := by
    show Takes addition _
    decide
  have hkind : conditional.kind = .ternaryOp := rfl
  obtain ⟨⟨r₀, T, r, hr₀, hT, hr, hcond, hroot⟩, -⟩ := ternary_takes_whole_iff .rust
    Lang.rust.start Store.empty (e := .more (.more (.lead [] 0) multiplication [] 1) addition [] 2)
    (a := .lead [] 3) (b := .lead [] 4) hkind
    (by simp [Seq.Kinded, addition, multiplication, infixDef])
    (by simp [Seq.Kinded]) (by simp [Seq.Kinded])
  exact ⟨hlast, r₀, T, r, hr₀, hT, hr, hcond.2 hlast, hroot.2 hlast⟩

/-- `0+1*2 ? 3 : 4`: only the product is the condition, and the sum stays the root. -/
theorem product_is_condition :
    (∃ r₀ T r, Run.run (Seq.text (.more (.more (.lead [] 0) addition [] 1) multiplication [] 2))
        (Run.start Lang.typescript.start) = some r₀ ∧
      Ts.treeOf (Lang.typescript.port.heap r₀.store) r₀.root = some T ∧
      Run.ternary conditional (.more (.more (.lead [] 0) addition [] 1) multiplication [] 2)
        (.lead [] 3) (.lead [] 4) Lang.typescript.start = some r ∧
      ¬ IsTernary (Lang.typescript.port.heap r.store) r.attach conditional T
        (Seq.tree (.lead [] 3)) (Seq.tree (.lead [] 4)) ∧ r.root ≠ r.attach) ∧
    ∃ r₀ T r, Run.run (Seq.text (.more (.more (.lead [] 0) addition [] 1) multiplication [] 2))
        (Run.start Lang.rust.start) = some r₀ ∧
      Ts.treeOf (Lang.rust.port.heap r₀.store) r₀.root = some T ∧
      Run.ternary conditional (.more (.more (.lead [] 0) addition [] 1) multiplication [] 2)
        (.lead [] 3) (.lead [] 4) Lang.rust.start = some r ∧
      ¬ IsTernary (Lang.rust.port.heap r.store) r.attach conditional T
        (Seq.tree (.lead [] 3)) (Seq.tree (.lead [] 4)) ∧ r.root ≠ r.attach := by
  have hk : Seq.Kinded (.more (.more (.lead [] 0) addition [] 1) multiplication [] 2) := by
    simp [Seq.Kinded, addition, multiplication, infixDef]
  have hd : Seq.depth (.more (.more (.lead [] 0) addition [] 1) multiplication [] 2) ≠ 0 := by
    decide
  have hlead : ∀ n : ℕ, Seq.Kinded (.lead [] n) := by simp [Seq.Kinded]
  obtain ⟨r₀, T, r, hr₀, hT, hr, hcond, hroot⟩ :=
    run_ternary_iff Lang.typescript.start conditional hk (hlead 3) (hlead 4)
  obtain ⟨r₀', T', r', hr₀', hT', hr', hcond', hroot'⟩ :=
    run_ternary_iff Lang.rust.start conditional hk (hlead 3) (hlead 4)
  exact ⟨⟨r₀, T, r, hr₀, hT, hr, hd ∘ hcond.1, hd ∘ hroot.1⟩,
    r₀', T', r', hr₀', hT', hr', hd ∘ hcond'.1, hd ∘ hroot'.1⟩

end TabnasExpr
