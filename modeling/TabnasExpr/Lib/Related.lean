import Mathlib.Data.Sum.Basic
import TabnasExpr.Lib.Store

/-!
# Related stores

Two stores are related when they hold related cells under the same numbers.  The operations of a store
keep related stores related, so a program that only reads the related parts of a cell runs alike on
both.
-/

namespace Option.Rel

variable {A B A' B' : Type*} {R : A → B → Prop} {Q : A' → B' → Prop} {x : Option A} {y : Option B}

theorem map {f : A → A'} {g : B → B'} (h : Option.Rel R x y) (hfg : ∀ a b, R a b → Q (f a) (g b)) :
    Option.Rel Q (x.map f) (y.map g) := by
  cases h with
  | none => exact .none
  | some h => exact .some (hfg _ _ h)

theorem bind {f : A → Option A'} {g : B → Option B'} (h : Option.Rel R x y)
    (hfg : ∀ a b, R a b → Option.Rel Q (f a) (g b)) : Option.Rel Q (x.bind f) (y.bind g) := by
  cases h with
  | none => exact .none
  | some h => exact hfg _ _ h

theorem filter {p : A → Bool} {q : B → Bool} (h : Option.Rel R x y)
    (hpq : ∀ a b, R a b → p a = q b) : Option.Rel R (x.filter p) (y.filter q) := by
  cases h with
  | none => exact .none
  | @some a b h =>
    simp only [Option.filter_some, hpq a b h]
    split_ifs
    · exact .some h
    · exact .none

end Option.Rel

namespace Store

variable {C D : Type*} {R : C → D → Prop} {s : Store C} {t : Store D} {c : C} {d : D} {i : ℕ}

/-- The cells under each number are related, and the same numbers were handed out. -/
structure Rel (R : C → D → Prop) (s : Store C) (t : Store D) : Prop where
  last : s.last = t.last
  cell : ∀ i, Option.Rel R (s.cell i) (t.cell i)

theorem Rel.alloc (h : Rel R s t) (hc : R c d) : Rel R (s.alloc c).1 (t.alloc d).1 where
  last := congrArg (· + 1) h.last
  cell i := by
    rw [cell_alloc, cell_alloc, h.last]
    split_ifs
    · exact .some hc
    · exact h.cell i

theorem Rel.modify {f : C → C} {g : D → D} (h : Rel R s t) (hfg : ∀ c d, R c d → R (f c) (g d)) :
    Rel R (s.modify i f) (t.modify i g) where
  last := h.last
  cell j := by
    obtain rfl | hj := eq_or_ne j i
    · rw [cell_modify_self, cell_modify_self]
      exact (h.cell j).map hfg
    · rw [cell_modify_of_ne _ hj, cell_modify_of_ne _ hj]
      exact h.cell j

theorem Rel.getD (h : Rel R s t) (hc : R c d) (i : ℕ) : R ((s.cell i).getD c) ((t.cell i).getD d) := by
  generalize s.cell i = x, t.cell i = y, h.cell i = hxy
  cases hxy with
  | none => exact hc
  | some h => exact h

end Store
