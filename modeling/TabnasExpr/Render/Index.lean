import Mathlib.Data.List.Induction
import Mathlib.Data.Nat.Digits.Defs

/-!
# The index of the next element

An index is the decimal digits of a number, the most significant first, and goes up a digit at a
time: the nines at the end become zeros and the digit before them goes up, or, where every digit is a
nine, a one leads zeros one more than there were nines.
-/

namespace TabnasExpr.Render

/-- A decimal digit. -/
abbrev Digit := Fin 10

/-- The index of the first element. -/
def firstIndex : List Digit := [0]

@[simp] theorem firstIndex_ne_nil : firstIndex ≠ [] := List.cons_ne_nil _ _

def exprDigitUp : Digit → Option Digit
  | 0 => some 1
  | 1 => some 2
  | 2 => some 3
  | 3 => some 4
  | 4 => some 5
  | 5 => some 6
  | 6 => some 7
  | 7 => some 8
  | 8 => some 9
  | 9 => none

/-- Whether the digit is a nine; any other is a bar, at which the digits are split. -/
def exprNineOrBar (d : Digit) : Bool := d = 9

def exprOneThenZero (i : ℕ) : Digit := if i = 0 then 1 else 0

def exprCarried (digits : List Digit) (up i : ℕ) : Option Digit :=
  match compare i up with
  | .lt => digits[i]?
  | .eq => digits[i]?.bind exprDigitUp
  | .gt => some 0

/-- The digits after ones that end in a nine. -/
def exprCarry (digits : List Digit) : Option (List Digit) :=
  let runs := (digits.map exprNineOrBar).splitOn false
  match runs with
  | [_] => some ((List.range digits.length).map exprOneThenZero ++ [0])
  | _ =>
    let up := (List.intercalate [false] runs.dropLast).length
    (List.range digits.length).mapM (exprCarried digits up)

/-- The digits of the next index. -/
def exprCountUp (digits : List Digit) : Option (List Digit) :=
  match digits.getLast? with
  | none => none
  | some 9 => exprCarry digits
  | some digit => (exprDigitUp digit).map fun d => digits.dropLast ++ [d]

/-- The digits of an index end in nines, after a digit that is none unless all are. -/
theorem digits_cases (digits : List Digit) :
    (∃ k, digits = List.replicate k 9) ∨
      ∃ pre d k, d ≠ 9 ∧ digits = pre ++ d :: List.replicate k 9 := by
  induction digits with
  | nil => exact Or.inl ⟨0, rfl⟩
  | cons c digits ih =>
    rcases ih with ⟨k, rfl⟩ | ⟨pre, d, k, hd, rfl⟩
    · by_cases hc : c = 9
      · exact Or.inl ⟨k + 1, by rw [hc, List.replicate_succ]⟩
      · exact Or.inr ⟨[], c, k, hc, rfl⟩
    · exact Or.inr ⟨c :: pre, d, k, hd, rfl⟩

theorem exists_exprDigitUp {d : Digit} (hd : d ≠ 9) : ∃ d', exprDigitUp d = some d' := by
  revert d
  decide

/-- A function that is defined on every position gives the list of its values. -/
theorem mapM_range {α : Type} {f : ℕ → Option α} {xs : List α} (h : ∀ i < xs.length, f i = xs[i]?) :
    (List.range xs.length).mapM f = some xs := by
  induction xs using List.reverseRecOn with
  | nil => rfl
  | append_singleton xs x ih =>
    have hinit : (List.range xs.length).mapM f = some xs := by
      apply ih
      intro i hi
      rw [h i (by simp; omega), List.getElem?_append_left hi]
    have hlast : f xs.length = some x := by
      rw [h xs.length (by simp)]
      simp
    rw [List.length_append, List.length_singleton, List.range_succ, List.mapM_append, hinit]
    simp [hlast]

theorem range_exprOneThenZero (k : ℕ) :
    (List.range (k + 1)).map exprOneThenZero = 1 :: List.replicate k 0 := by
  rw [List.range_succ_eq_map, List.map_cons, List.map_map]
  congr 1
  rw [List.eq_replicate_iff]
  refine ⟨by simp, ?_⟩
  intro d hd
  obtain ⟨i, -, rfl⟩ := List.mem_map.1 hd
  rfl

theorem splitOn_nines (k : ℕ) :
    ((List.replicate k (9 : Digit)).map exprNineOrBar).splitOn false =
      [List.replicate k true] := by
  rw [List.map_replicate, List.splitOn_eq_singleton]
  · rfl
  · simp [exprNineOrBar]

theorem getLast?_nines (pre : List Digit) (k : ℕ) :
    (pre ++ List.replicate (k + 1) 9).getLast? = some 9 := by
  rw [List.replicate_succ', ← List.append_assoc, List.getLast?_concat]

/-- Where every digit is a nine, the next index is one digit longer. -/
theorem exprCountUp_nines (k : ℕ) :
    exprCountUp (List.replicate (k + 1) 9) = some (1 :: List.replicate (k + 1) 0) := by
  have hlast : (List.replicate (k + 1) (9 : Digit)).getLast? = some 9 := getLast?_nines [] k
  rw [exprCountUp, hlast]
  show exprCarry _ = _
  rw [exprCarry, splitOn_nines, List.length_replicate]
  show some ((List.range (k + 1)).map exprOneThenZero ++ [0]) = _
  rw [range_exprOneThenZero, List.replicate_succ', List.cons_append]

theorem exprCarry_append {d d' : Digit} (hd : exprDigitUp d = some d') (hne : d ≠ 9)
    (pre : List Digit) (k : ℕ) :
    exprCarry (pre ++ d :: List.replicate k 9) = some (pre ++ d' :: List.replicate k 0) := by
  have hruns : ((pre ++ d :: List.replicate k (9 : Digit)).map exprNineOrBar).splitOn false =
      (pre.map exprNineOrBar).splitOn false ++ [List.replicate k true] := by
    rw [List.map_append, List.map_cons, show exprNineOrBar d = false by simp [exprNineOrBar, hne],
      List.splitOn_append_cons_self, splitOn_nines]
  rw [exprCarry, hruns]
  split
  · rename_i hone
    exact absurd (List.append_eq_singleton_iff.1 hone) (by simp)
  · -- The digit that goes up stands where the last bar does.
    have hup : (List.intercalate [false] ((pre.map exprNineOrBar).splitOn false ++
        [List.replicate k true]).dropLast).length = pre.length := by
      rw [List.dropLast_concat, List.intercalate_splitOn, List.length_map]
    have hlen : (pre ++ d :: List.replicate k (9 : Digit)).length =
        (pre ++ d' :: List.replicate k 0).length := by simp
    rw [hup, hlen]
    apply mapM_range
    intro i hi
    rw [exprCarried]
    rcases Nat.lt_trichotomy i pre.length with h | rfl | h
    · rw [Nat.compare_eq_lt.2 h, List.getElem?_append_left h, List.getElem?_append_left h]
    · simp [hd]
    · obtain ⟨j, hj⟩ := Nat.exists_eq_add_of_lt h
      have hjk : j < k := by
        simp at hi
        omega
      rw [Nat.compare_eq_gt.2 h]
      show some 0 = _
      rw [List.getElem?_append_right (Nat.le_of_lt h), show i - pre.length = j + 1 by omega,
        List.getElem?_cons_succ, List.getElem?_replicate_of_lt hjk]

/-- Below the nines at the end every digit stays, and the one before them goes up. -/
theorem exprCountUp_append {d d' : Digit} (hd : exprDigitUp d = some d') (pre : List Digit) (k : ℕ) :
    exprCountUp (pre ++ d :: List.replicate k 9) = some (pre ++ d' :: List.replicate k 0) := by
  have hne : d ≠ 9 := by
    rintro rfl
    cases hd
  cases k with
  | zero =>
    have hlast : (pre ++ [d]).getLast? = some d := List.getLast?_concat
    show exprCountUp (pre ++ [d]) = _
    rw [exprCountUp, hlast]
    split
    · contradiction
    · rename_i h
      exact absurd (Option.some.inj h) hne
    · rename_i h
      cases h
      simp [hd]
  | succ k =>
    have hlast : (pre ++ d :: List.replicate (k + 1) (9 : Digit)).getLast? = some 9 := by
      have := getLast?_nines (pre ++ [d]) k
      rwa [List.append_assoc] at this
    rw [exprCountUp, hlast]
    exact exprCarry_append hd hne pre (k + 1)

/-- An index has a next one. -/
theorem exists_exprCountUp {digits : List Digit} (h : digits ≠ []) :
    ∃ next, exprCountUp digits = some next ∧ next ≠ [] := by
  rcases digits_cases digits with ⟨k, rfl⟩ | ⟨pre, d, k, hd, rfl⟩
  · obtain ⟨k, rfl⟩ : ∃ n, k = n + 1 := Nat.exists_eq_succ_of_ne_zero (by simpa using h)
    exact ⟨_, exprCountUp_nines k, by simp⟩
  · obtain ⟨d', hd'⟩ := exists_exprDigitUp hd
    exact ⟨_, exprCountUp_append hd' pre k, by simp⟩

/-! ## The number of an index -/

/-- The number some digits are of. -/
def numberOf (digits : List Digit) : ℕ := Nat.ofDigits 10 (digits.reverse.map Fin.val)

/-- The digits of a number, with no zero before the others. -/
structure IsDecimal (digits : List Digit) (n : ℕ) : Prop where
  ne_nil : digits ≠ []
  noLeadingZero : digits.head? = some 0 → digits = [0]
  number_eq : numberOf digits = n

theorem isDecimal_firstIndex : IsDecimal firstIndex 0 where
  ne_nil := firstIndex_ne_nil
  noLeadingZero _ := rfl
  number_eq := rfl

section Number

variable {digits : List Digit} {d d' : Digit}

/-- The digits after one are its low ones. -/
theorem numberOf_append (pre post : List Digit) (d : Digit) :
    numberOf (pre ++ d :: post) = numberOf post + 10 ^ post.length * (d + 10 * numberOf pre) := by
  simp [numberOf, Nat.ofDigits_append, Nat.ofDigits_cons, Nat.mul_add]

theorem numberOf_zeros (k : ℕ) : numberOf (List.replicate k 0) = 0 := by
  simp [numberOf]

theorem numberOf_nines (k : ℕ) : numberOf (List.replicate k 9) + 1 = 10 ^ k := by
  induction k with
  | zero => rfl
  | succ k ih =>
    have hsplit : numberOf (List.replicate (k + 1) 9) =
        numberOf (List.replicate k 9) +
          10 ^ (List.replicate k (9 : Digit)).length * (9 + 10 * numberOf []) :=
      numberOf_append [] (List.replicate k 9) 9
    have hnil : numberOf [] = 0 := rfl
    rw [hsplit, hnil, List.length_replicate, pow_succ]
    omega

theorem exprDigitUp_val (h : exprDigitUp d = some d') : d'.val = d.val + 1 := by
  revert d d'
  decide

/-- The numbers of an index and of the next one, where a digit below nines goes up. -/
theorem numberOf_up (h : exprDigitUp d = some d') (pre : List Digit) (k : ℕ) :
    numberOf (pre ++ d' :: List.replicate k 0) = numberOf (pre ++ d :: List.replicate k 9) + 1 := by
  have hcarry : 10 ^ k * (d.val + 1 + 10 * numberOf pre) =
      numberOf (List.replicate k 9) + 10 ^ k * (d.val + 10 * numberOf pre) + 1 := by
    rw [Nat.add_right_comm, Nat.mul_succ, ← numberOf_nines k]
    omega
  rw [numberOf_append, numberOf_append, numberOf_zeros, exprDigitUp_val h, List.length_replicate,
    List.length_replicate, Nat.zero_add, hcarry]

theorem ne_zero_of_exprDigitUp (h : exprDigitUp d = some d') : d' ≠ 0 := by
  rintro rfl
  have hval := exprDigitUp_val h
  simp at hval

/-- Digits with no zero before the others are those of no other number's. -/
theorem IsDecimal.map_val {n : ℕ} (h : IsDecimal digits (n + 1)) :
    digits.map Fin.val = (Nat.digits 10 (n + 1)).reverse := by
  obtain ⟨hne, hz, hn⟩ := h
  rw [← hn, numberOf, Nat.digits_ofDigits 10 (by decide), ← List.map_reverse, List.reverse_reverse]
  · intro l hl
    obtain ⟨d, -, rfl⟩ := List.mem_map.1 hl
    exact d.isLt
  · intro hne' hlast
    obtain ⟨d, ds, rfl⟩ := List.exists_cons_of_ne_nil hne
    have hd : d = 0 := by
      simpa using hlast
    rw [hd] at hz hn
    rw [hz rfl] at hn
    cases hn

/-- The next index is the digits of the next number. -/
theorem exprCountUp_isDecimal {n : ℕ} (h : IsDecimal digits n) :
    ∃ next, exprCountUp digits = some next ∧ IsDecimal next (n + 1) := by
  obtain ⟨hne, hz, rfl⟩ := h
  rcases digits_cases digits with ⟨k, rfl⟩ | ⟨pre, d, k, hd, rfl⟩
  · obtain ⟨k, rfl⟩ : ∃ n, k = n + 1 := Nat.exists_eq_succ_of_ne_zero (by simpa using hne)
    refine ⟨_, exprCountUp_nines k, by simp, by simp, ?_⟩
    have hone : numberOf (1 :: List.replicate (k + 1) 0) = numberOf (List.replicate (k + 1) 0) +
        10 ^ (List.replicate (k + 1) (0 : Digit)).length * (1 + 10 * numberOf []) :=
      numberOf_append [] (List.replicate (k + 1) 0) 1
    have hnil : numberOf [] = 0 := rfl
    rw [numberOf_nines, hone, numberOf_zeros, hnil, List.length_replicate]
    omega
  · obtain ⟨d', hd'⟩ := exists_exprDigitUp hd
    refine ⟨_, exprCountUp_append hd' pre k, by simp, ?_, numberOf_up hd' pre k⟩
    -- What leads the next index leads this one, or is the digit that goes up.
    intro hlead
    cases pre with
    | nil => exact absurd (Option.some.inj hlead) (ne_zero_of_exprDigitUp hd')
    | cons p pre =>
      have hzero := hz hlead
      simp at hzero

/-- The index after the hundredth element's. -/
theorem exprCountUp_isDecimal_99 : ∃ next, exprCountUp [9, 9] = some next ∧ IsDecimal next 100 :=
  exprCountUp_isDecimal ⟨by decide, by decide, rfl⟩

end Number

end TabnasExpr.Render
