import Mathlib.Logic.Basic
import Mathlib.Order.Nat

/-!
# Stores of numbered cells

A store hands out cell numbers in order and never twice.  Cells are rewritten in place, so every
holder of a number sees the rewrite.
-/

/-- Cells by number, with the last number handed out. -/
@[ext] structure Store (C : Type*) where
  cell : ℕ → Option C
  last : ℕ
  fresh : ∀ i, last < i → cell i = none

namespace Store

variable {C D : Type*} (s : Store C) (i j : ℕ) (c : C)

/-- The store with no cells. -/
def empty : Store C := ⟨fun _ => none, 0, fun _ _ => rfl⟩

/-- A new cell and its number. -/
def alloc : Store C × ℕ :=
  (⟨fun i => if i = s.last + 1 then some c else s.cell i, s.last + 1, fun i h => by
    rw [if_neg (by omega), s.fresh i (by omega)]⟩, s.last + 1)

/-- Rewrite a cell in place; nothing happens where there is none. -/
def modify (f : C → C) : Store C :=
  ⟨fun j => if j = i then (s.cell i).map f else s.cell j, s.last, fun j h => by
    split_ifs with e
    · rw [← e, s.fresh j h]
      rfl
    · exact s.fresh j h⟩

/-- A cell is dropped; its number is not handed out again. -/
def drop : Store C :=
  ⟨fun j => if j = i then none else s.cell j, s.last, fun j h => by rw [s.fresh j h, ite_self]⟩

/-- Every cell is dropped; the numbers handed out are not handed out again. -/
def clear : Store C := ⟨fun _ => none, s.last, fun _ _ => rfl⟩

/-- The same cells, each read through a function. -/
def map (f : C → D) : Store D := ⟨fun i => (s.cell i).map f, s.last, fun i h => by
  rw [s.fresh i h]
  rfl⟩

@[simp] theorem alloc_snd : (s.alloc c).2 = s.last + 1 := rfl

@[simp] theorem last_alloc : (s.alloc c).1.last = s.last + 1 := rfl

@[simp] theorem last_clear : s.clear.last = s.last := rfl

@[simp] theorem last_drop : (s.drop i).last = s.last := rfl

theorem cell_drop : (s.drop i).cell j = if j = i then none else s.cell j := rfl

@[simp] theorem last_modify (f : C → C) : (s.modify i f).last = s.last := rfl

@[simp] theorem last_map (f : C → D) : (s.map f).last = s.last := rfl

theorem cell_alloc : (s.alloc c).1.cell i = if i = s.last + 1 then some c else s.cell i := rfl

@[simp] theorem cell_alloc_self : (s.alloc c).1.cell (s.last + 1) = some c := if_pos rfl

theorem cell_next : s.cell (s.last + 1) = none := s.fresh _ (Nat.lt_succ_self _)

variable {s i j c}

theorem le_last {d : C} (h : s.cell i = some d) : i ≤ s.last := by
  by_contra hlt
  rw [s.fresh i (by omega)] at h
  cases h

theorem cell_alloc_of_ne_none (h : s.cell i ≠ none) : (s.alloc c).1.cell i = s.cell i := by
  rw [cell_alloc, if_neg]
  rintro rfl
  exact h s.cell_next

theorem cell_alloc_of_some {d : C} (h : s.cell i = some d) : (s.alloc c).1.cell i = some d := by
  rw [cell_alloc_of_ne_none (by simp [h]), h]

/-- All that is in a store is in the other as it was. -/
def Extends (s s' : Store C) : Prop := ∀ i, s.cell i ≠ none → s'.cell i = s.cell i

theorem extends_alloc (s : Store C) (c : C) :
    s.Extends (s.alloc c).1 := fun _ h => cell_alloc_of_ne_none h

theorem Extends.trans {s' s'' : Store C} (h : s.Extends s') (h' : s'.Extends s'') : s.Extends s'' :=
  fun i hi => (h' i (by rwa [h i hi])).trans (h i hi)

@[simp] theorem cell_modify_self (f : C → C) : (s.modify i f).cell i = (s.cell i).map f := if_pos rfl

theorem cell_modify_of_ne (f : C → C) (h : j ≠ i) : (s.modify i f).cell j = s.cell j := if_neg h

@[simp] theorem cell_map (f : C → D) : (s.map f).cell i = (s.cell i).map f := rfl

theorem map_alloc (f : C → D) : ((s.alloc c).1).map f = ((s.map f).alloc (f c)).1 := by
  ext1
  · funext i
    simp only [cell_map, cell_alloc, last_map]
    split_ifs with h <;> simp [h]
  · rfl

theorem map_modify {f : C → D} {g : C → C} {g' : D → D} (h : ∀ c, f (g c) = g' (f c)) :
    (s.modify i g).map f = (s.map f).modify i g' := by
  ext1
  · funext j
    by_cases hj : j = i
    · subst hj
      cases hc : s.cell j with
      | none => simp [hc]
      | some c => simp [hc, h]
    · simp [cell_modify_of_ne _ hj]
  · rfl

/-- The cell a new one and a rewrite take in is the new one. -/
theorem eq_next {f : C → C} (h : s.cell j = none) (h' : ((s.alloc c).1.modify i f).cell j ≠ none) :
    j = s.last + 1 := by
  have hj : (s.alloc c).1.cell j ≠ none := fun hn => h' (by
    by_cases hji : j = i
    · subst hji
      rw [cell_modify_self, hn]
      rfl
    · rw [cell_modify_of_ne _ hji, hn])
  rw [cell_alloc] at hj
  split_ifs at hj with he
  · exact he
  · exact absurd h hj

theorem modify_id : s.modify i id = s := by
  ext1
  · funext j
    by_cases hj : j = i
    · subst hj
      simp
    · exact cell_modify_of_ne _ hj
  · rfl

theorem modify_of_none {f : C → C} (h : s.cell i = none) : s.modify i f = s := by
  ext1
  · funext j
    by_cases hj : j = i
    · subst hj
      simp [h]
    · exact cell_modify_of_ne _ hj
  · rfl

/-- A rewrite that the reading does not see. -/
theorem map_modify_of_same {f : C → D} {g : C → C} (h : ∀ c, f (g c) = f c) :
    (s.modify i g).map f = s.map f := by
  have h' : ∀ c, f (g c) = id (f c) := h
  rw [map_modify h', modify_id]

end Store
