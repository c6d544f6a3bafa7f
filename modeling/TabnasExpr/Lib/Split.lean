import Mathlib.Data.List.Basic

/-!
# Cutting a list at a separator

`split sep s` is the pieces of `s` between the places where `sep` stands, found from the left and apart
from one another.  With `sep` between them the pieces are `s` again (`intercalate_split`), and the first
one is empty just where `sep` comes first (`head?_split`).
-/

namespace TabnasExpr.Split

universe u

variable {α : Type u} [DecidableEq α]

/-- The pieces from where the next `skip` elements are the rest of a separator. -/
def splitFrom (sep : List α) : ℕ → List α → List (List α)
  | _, [] => [[]]
  | skip + 1, _ :: cs => splitFrom sep skip cs
  | 0, c :: cs =>
    if sep <+: c :: cs then [] :: splitFrom sep (sep.length - 1) cs
    else (splitFrom sep 0 cs).modifyHead (c :: ·)

/-- The pieces of a list. -/
def split (sep s : List α) : List (List α) := splitFrom sep 0 s

variable {sep s v : List α}

@[simp] theorem splitFrom_eq (k : ℕ) (s : List α) : splitFrom sep k s = split sep (s.drop k) := by
  induction s generalizing k with
  | nil => simp [split, splitFrom]
  | cons c cs ih =>
    cases k with
    | zero => rfl
    | succ k => rw [splitFrom, ih, List.drop_succ_cons]

@[simp] theorem split_nil : split sep [] = [[]] := rfl

/-- A separator that stands first. -/
theorem split_append (h : sep ≠ []) (v : List α) : split sep (sep ++ v) = [] :: split sep v := by
  obtain ⟨c, cs, rfl⟩ := List.exists_cons_of_ne_nil h
  have hpre : c :: cs <+: c :: (cs ++ v) := ⟨v, rfl⟩
  rw [List.cons_append, split, splitFrom, if_pos hpre, splitFrom_eq]
  simp

/-- An element where no separator stands. -/
theorem split_cons {c : α} {cs : List α} (h : ¬ sep <+: c :: cs) :
    split sep (c :: cs) = (split sep cs).modifyHead (c :: ·) := by
  rw [split, splitFrom, if_neg h, splitFrom_eq, List.drop_zero]

theorem split_ne_nil (h : sep ≠ []) (s : List α) : split sep s ≠ [] := by
  cases s with
  | nil => simp
  | cons c cs =>
    by_cases hpre : sep <+: c :: cs
    · obtain ⟨v, hv⟩ := hpre
      rw [← hv, split_append h]
      exact List.cons_ne_nil _ _
    · have htail : split sep cs ≠ [] := split_ne_nil h cs
      rw [split_cons hpre]
      simpa using htail

/-- The first piece is empty where the separator stands first, and where there is nothing. -/
theorem head?_split (h : sep ≠ []) : (split sep s).head? = some [] ↔ s = [] ∨ sep <+: s := by
  cases s with
  | nil => simp
  | cons c cs =>
    by_cases hpre : sep <+: c :: cs
    · obtain ⟨v, hv⟩ := hpre
      simp [← hv, split_append h]
    · obtain ⟨p, ps, hp⟩ := List.exists_cons_of_ne_nil (split_ne_nil h cs)
      simp [split_cons hpre, hp, hpre]

/-- The separator between the pieces gives the list back. -/
theorem intercalate_split (h : sep ≠ []) (s : List α) : sep.intercalate (split sep s) = s := by
  -- From within a separator on, what is left after it.
  have hfrom : ∀ k, sep.intercalate (splitFrom sep k s) = s.drop k := by
    induction s with
    | nil => simp
    | cons c cs ih =>
      rintro (_ | k)
      · have hcs := ih 0
        by_cases hpre : sep <+: c :: cs
        · obtain ⟨v, hv⟩ := hpre
          have hdrop : cs.drop (sep.length - 1) = v := by
            have hlen : sep.length - 1 + 1 = sep.length := Nat.succ_pred_eq_of_pos (List.length_pos_iff.2 h)
            rw [← List.drop_succ_cons (a := c), hlen, ← hv, List.drop_left]
          have hv' := ih (sep.length - 1)
          rw [splitFrom_eq, hdrop] at hv'
          rw [splitFrom_eq, List.drop_zero, ← hv, split_append h,
            List.intercalate_cons_of_ne_nil (split_ne_nil h v), hv']
          rfl
        · obtain ⟨p, ps, hp⟩ := List.exists_cons_of_ne_nil (split_ne_nil h cs)
          rw [splitFrom_eq, List.drop_zero, hp] at hcs
          rw [splitFrom_eq, List.drop_zero, split_cons hpre, hp, List.modifyHead_cons,
            List.intercalate_cons_cons_left, hcs]
      · exact ih k
  exact hfrom 0

/-- What stands after a separator that stands first. -/
theorem intercalate_tail_split (h : sep ≠ []) (v : List α) :
    sep.intercalate (split sep (sep ++ v)).tail = v := by
  rw [split_append h, List.tail_cons, intercalate_split h]

end TabnasExpr.Split
