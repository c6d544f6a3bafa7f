import Mathlib.Data.List.Chain

/-!
# Numerals

The text of a number without a sign, as JSON has it: digits, a fraction and an exponent.  A numeral that
goes on after a numeral goes on with a digit, a point or an exponent (`Numeral.next`), so what is
written after a number with an operator between them is no part of it.
-/

namespace TabnasExpr

/-- One digit at least, and nothing else. -/
def Digits (cs : List Char) : Prop := cs ≠ [] ∧ ∀ c ∈ cs, c.isDigit = true

def IsExponent (c : Char) : Prop := c = 'e' ∨ c = 'E'

def IsSign (c : Char) : Prop := c = '+' ∨ c = '-'

/-- The fraction of a numeral, where it has one. -/
inductive Fraction : List Char → Prop where
  | none : Fraction []
  | some {ds} (h : Digits ds) : Fraction ('.' :: ds)

/-- The exponent of a numeral, where it has one. -/
inductive Exponent : List Char → Prop where
  | none : Exponent []
  | plain {e ds} (he : IsExponent e) (h : Digits ds) : Exponent (e :: ds)
  | signed {e s ds} (he : IsExponent e) (hs : IsSign s) (h : Digits ds) : Exponent (e :: s :: ds)

inductive Numeral : List Char → Prop where
  | mk {int frac exp} (hi : Digits int) (hf : Fraction frac) (hx : Exponent exp) :
    Numeral (int ++ (frac ++ exp))

/-- A sign stands after an exponent's letter only. -/
def SignsApart : List Char → Prop := List.IsChain fun a b => IsSign b → IsExponent a

theorem not_isSign_of_isDigit {c : Char} (h : c.isDigit = true) : ¬ IsSign c := by
  rintro (rfl | rfl) <;> cases h

theorem not_isExponent_of_isDigit {c : Char} (h : c.isDigit = true) : ¬ IsExponent c := by
  rintro (rfl | rfl) <;> cases h

section Digits

variable {ds : List Char}

theorem Digits.head (h : Digits ds) : ∃ d cs, ds = d :: cs ∧ d.isDigit = true := by
  obtain ⟨d, cs, rfl⟩ := List.exists_cons_of_ne_nil h.1
  exact ⟨d, cs, rfl, h.2 d List.mem_cons_self⟩

theorem Digits.last (h : Digits ds) : ∃ cs d, ds = cs ++ [d] ∧ d.isDigit = true := by
  refine ⟨ds.dropLast, ds.getLast h.1, (List.dropLast_append_getLast h.1).symm, ?_⟩
  exact h.2 _ (List.getLast_mem h.1)

theorem Digits.signsApart (h : Digits ds) : SignsApart ds := by
  rw [SignsApart, List.isChain_iff_forall_rel_of_append_cons_cons]
  rintro a b l r rfl hs
  exact absurd hs (not_isSign_of_isDigit (h.2 b (by simp)))

end Digits

theorem SignsApart.append {a b : List Char} (ha : SignsApart a) (hb : SignsApart b)
    (h : ∀ c ∈ b.head?, ¬ IsSign c) : SignsApart (a ++ b) :=
  List.IsChain.append ha hb fun _ _ c hc hs => absurd hs (h c hc)

theorem Fraction.signsApart {frac : List Char} (h : Fraction frac) : SignsApart frac := by
  cases h with
  | none => exact List.IsChain.nil
  | some h =>
    obtain ⟨d, cs, rfl, hd⟩ := h.head
    exact List.IsChain.cons_cons (fun hs => absurd hs (not_isSign_of_isDigit hd)) h.signsApart

theorem Exponent.signsApart {exp : List Char} (h : Exponent exp) : SignsApart exp := by
  cases h with
  | none => exact List.IsChain.nil
  | plain he h =>
    obtain ⟨d, cs, rfl, hd⟩ := h.head
    exact List.IsChain.cons_cons (fun _ => he) h.signsApart
  | signed he hs h =>
    obtain ⟨d, cs, rfl, hd⟩ := h.head
    exact List.IsChain.cons_cons (fun _ => he)
      (List.IsChain.cons_cons (fun hs => absurd hs (not_isSign_of_isDigit hd)) h.signsApart)

namespace Numeral

variable {a b cs : List Char} {c : Char}

theorem head (h : Numeral cs) : ∃ d ds, cs = d :: ds ∧ d.isDigit = true := by
  obtain ⟨hi, hf, hx⟩ := h
  obtain ⟨d, ds, rfl, hd⟩ := hi.head
  exact ⟨d, _, rfl, hd⟩

theorem last (h : Numeral cs) : ∃ ds d, cs = ds ++ [d] ∧ d.isDigit = true := by
  cases h with
  | @mk int frac exp hi hf hx =>
  cases hx with
  | none =>
    cases hf with
    | none =>
      obtain ⟨ds, d, rfl, hd⟩ := hi.last
      exact ⟨ds, d, by simp, hd⟩
    | some h =>
      obtain ⟨ds, d, rfl, hd⟩ := h.last
      exact ⟨int ++ '.' :: ds, d, by simp, hd⟩
  | @plain e _ he h =>
    obtain ⟨ds, d, rfl, hd⟩ := h.last
    exact ⟨int ++ (frac ++ e :: ds), d, by simp, hd⟩
  | @signed e s _ he hs h =>
    obtain ⟨ds, d, rfl, hd⟩ := h.last
    exact ⟨int ++ (frac ++ e :: s :: ds), d, by simp, hd⟩

theorem signsApart (h : Numeral cs) : SignsApart cs := by
  obtain ⟨hi, hf, hx⟩ := h
  -- An exponent begins with its letter and a fraction with a point.
  have hexp : ∀ {exp}, Exponent exp → ∀ c ∈ exp.head?, ¬ IsSign c := by
    rintro _ (_ | ⟨he | he⟩ | ⟨he | he⟩) c hc
    · cases hc
    all_goals
      cases hc
      subst he
      rintro (h | h) <;> cases h
  refine hi.signsApart.append (hf.signsApart.append hx.signsApart (hexp hx)) ?_
  cases hf with
  | none => exact hexp hx
  | some h =>
    rintro c hc
    cases hc
    rintro (h | h) <;> cases h

theorem mem (h : Numeral cs) (hc : c ∈ cs) : c.isDigit = true ∨ c = '.' ∨ IsExponent c ∨ IsSign c := by
  obtain ⟨hi, hf, hx⟩ := h
  rcases List.mem_append.1 hc with hc | hc
  · exact Or.inl (hi.2 c hc)
  rcases List.mem_append.1 hc with hc | hc
  · cases hf with
    | none => cases hc
    | some h =>
      rcases List.mem_cons.1 hc with rfl | hc
      · exact Or.inr (Or.inl rfl)
      · exact Or.inl (h.2 c hc)
  · cases hx with
    | none => cases hc
    | plain he h =>
      rcases List.mem_cons.1 hc with rfl | hc
      · exact Or.inr (Or.inr (Or.inl he))
      · exact Or.inl (h.2 c hc)
    | signed he hs h =>
      rcases List.mem_cons.1 hc with rfl | hc
      · exact Or.inr (Or.inr (Or.inl he))
      rcases List.mem_cons.1 hc with rfl | hc
      · exact Or.inr (Or.inr (Or.inr hs))
      · exact Or.inl (h.2 c hc)

/-- A numeral that goes on after a numeral goes on with a digit, a point or an exponent. -/
theorem next (ha : Numeral a) (h : Numeral (a ++ c :: b)) :
    c.isDigit = true ∨ c = '.' ∨ IsExponent c := by
  rcases h.mem (c := c) (by simp) with hc | hc | hc | hc
  · exact Or.inl hc
  · exact Or.inr (Or.inl hc)
  · exact Or.inr (Or.inr hc)
  · -- A sign stands after an exponent's letter, and a numeral ends with a digit.
    obtain ⟨ds, d, rfl, hd⟩ := ha.last
    have hchain := h.signsApart
    rw [List.append_assoc, List.singleton_append, SignsApart, List.isChain_append_cons_cons] at hchain
    exact absurd (hchain.2.1 hc) (not_isExponent_of_isDigit hd)

end Numeral

end TabnasExpr
