import Mathlib.Data.Finset.Card
import Mathlib.Data.Finset.Insert
import Mathlib.Data.Finset.Dedup
import Mathlib.Data.Fintype.EquivFin
import Mathlib.Data.Set.Finite.Basic
import Mathlib.Logic.Relation
import Mathlib.Order.Monotone.Basic
import Mathlib.Order.RelClasses

/-!
# Walks down a graph

A value holds a list of values.  A recursion over what a value holds ends exactly where no value below
it holds itself, and a walk that remembers the keys of the values it is inside of finds exactly the ways
down on which a key comes twice.
-/

namespace Walk

open Relation

variable {α κ : Type*} {kids kids' : α → List α} {key : α → Option κ} {W : List α} {a b c : α} {k : κ}

/-- One value is held by another. -/
def Holds (kids : α → List α) (a b : α) : Prop := b ∈ kids a

/-- A value is at or below another one. -/
abbrev Reaches (kids : α → List α) : α → α → Prop := ReflTransGen (Holds kids)

/-- A value is below another one. -/
abbrev Below (kids : α → List α) : α → α → Prop := TransGen (Holds kids)

/-- A value at or below this one holds itself. -/
def Loop (kids : α → List α) (a : α) : Prop := ∃ b, Reaches kids a b ∧ Below kids b b

/-- A way down from a value comes to the same key twice. -/
def Repeats (kids : α → List α) (key : α → Option κ) (a : α) : Prop :=
  ∃ b c k, Reaches kids a b ∧ Below kids b c ∧ key b = some k ∧ key c = some k

/-- The values hold no others than these. -/
def Closed (kids : α → List α) (W : List α) : Prop := ∀ w ∈ W, ∀ c ∈ kids w, c ∈ W

theorem Closed.reaches (hW : Closed kids W) (ha : a ∈ W) (h : Reaches kids a b) : b ∈ W := by
  induction h with
  | refl => exact ha
  | tail _ hbc ih => exact hW _ ih _ hbc

theorem Loop.head (hb : b ∈ kids a) (h : Loop kids b) : Loop kids a := by
  obtain ⟨c, hbc, hcc⟩ := h
  exact ⟨c, .head hb hbc, hcc⟩

theorem Loop.mono (h : ∀ a, ∀ b ∈ kids a, b ∈ kids' a) (hl : Loop kids a) : Loop kids' a := by
  obtain ⟨b, hab, hbb⟩ := hl
  have hle : Holds kids ≤ Holds kids' := fun a b => h a b
  exact ⟨b, ReflTransGen.mono hle _ _ hab, TransGen.mono hle _ _ hbb⟩

/-! ## Recursions -/

theorem not_loop_of_acc (h : Acc (fun b a => Holds kids a b) a) : ¬ Loop kids a := by
  induction h with
  | intro a _ ih =>
    rintro ⟨b, hab, hbb⟩
    rcases hab.cases_head with rfl | ⟨c, hac, hcb⟩
    · obtain ⟨c, hac, hca⟩ := TransGen.head'_iff.1 hbb
      exact ih c hac ⟨a, hca, hbb⟩
    · exact ih c hac ⟨b, hcb, hbb⟩

/-- Among finitely many values the recursion below one ends where no value holds itself. -/
theorem acc_iff_not_loop (hW : Closed kids W) (ha : a ∈ W) :
    Acc (fun b a => Holds kids a b) a ↔ ¬ Loop kids a := by
  refine ⟨not_loop_of_acc, fun h => ?_⟩
  let S := {b // Reaches kids a b}
  have : Finite S := (W.finite_toSet.subset fun b hb => hW.reaches ha hb).to_subtype
  let r : S → S → Prop := fun b c => Below kids c.1 b.1
  have : IsTrans S r := ⟨fun _ _ _ hab hbc => hbc.trans hab⟩
  have : Std.Irrefl r := ⟨fun b hb => h ⟨b.1, b.2, hb⟩⟩
  have hwf : WellFounded r := Finite.wellFounded_of_trans_of_irrefl r
  suffices H : ∀ b : S, Acc (fun b a => Holds kids a b) b.1 from H ⟨a, .refl⟩
  intro b
  induction b using hwf.induction with
  | h b ih => exact ⟨_, fun c hc => ih ⟨c, b.2.tail hc⟩ (.single hc)⟩

/-- A recursion with fuel that needs each value held, and fuel, ends where the recursion below a value
does. -/
theorem exists_fuel_iff_acc (ends : ℕ → α → Prop) (zero : ∀ a, ¬ ends 0 a)
    (succ : ∀ n a, ends (n + 1) a ↔ ∀ b ∈ kids a, ends n b) :
    (∃ n, ends n a) ↔ Acc (fun b a => Holds kids a b) a := by
  have mono : ∀ n a, ends n a → ends (n + 1) a := by
    intro n
    induction n with
    | zero => exact fun a h => absurd h (zero a)
    | succ n ih => exact fun a h => (succ _ _).2 fun b hb => ih b ((succ _ _).1 h b hb)
  constructor
  · rintro ⟨n, h⟩
    induction n generalizing a with
    | zero => exact absurd h (zero a)
    | succ n ih => exact ⟨_, fun b hb => ih ((succ _ _).1 h b hb)⟩
  · intro h
    induction h with
    | intro a _ ih =>
      have hall : ∀ bs : List α, (∀ b ∈ bs, ∃ n, ends n b) → ∃ n, ∀ b ∈ bs, ends n b := by
        intro bs hbs
        induction bs with
        | nil => exact ⟨0, by simp⟩
        | cons b bs ih =>
          obtain ⟨n, hn⟩ := hbs b List.mem_cons_self
          obtain ⟨m, hm⟩ := ih fun c hc => hbs c (List.mem_cons_of_mem b hc)
          have hle := fun c =>
            monotone_nat_of_le_succ (show ∀ n, ends n c ≤ ends (n + 1) c from fun n => mono n c)
          refine ⟨max n m, fun c hc => ?_⟩
          rcases List.mem_cons.1 hc with rfl | hc
          · exact hle c (le_max_left n m) hn
          · exact hle c (le_max_right n m) (hm c hc)
      obtain ⟨n, hn⟩ := hall (kids a) ih
      exact ⟨n + 1, (succ n a).2 hn⟩

/-- A way down that never comes back takes no more steps than there are values. -/
theorem path_induction {P : α → Prop} {U : Finset α} (hU : ∀ a, P a → a ∈ U)
    (hloop : ∀ a, P a → ¬ Below kids a a) {motive : ℕ → α → Prop}
    (step : ∀ fuel a, P a → (∀ b ∈ kids a, P b → motive fuel b) → motive (fuel + 1) a)
    (fuel : ℕ) (a : α) (ha : P a) (hfuel : U.card ≤ fuel) : motive fuel a := by
  classical
  suffices H : ∀ fuel (opened : Finset α) a, P a → (∀ b ∈ opened, Below kids b a) →
      (U \ opened).card ≤ fuel → motive fuel a from H fuel ∅ a ha (by simp) (by simpa using hfuel)
  intro fuel
  induction fuel with
  | zero =>
    intro opened a ha hopened hcard
    have hmem : a ∈ U \ opened := Finset.mem_sdiff.2 ⟨hU a ha, fun ho => hloop a ha (hopened a ho)⟩
    exact absurd (Finset.card_pos.2 ⟨a, hmem⟩) (by omega)
  | succ fuel ih =>
    intro opened a ha hopened hcard
    refine step fuel a ha fun b hb hPb => ih (insert a opened) b hPb (fun c hc => ?_) ?_
    · rcases Finset.mem_insert.1 hc with rfl | hc
      · exact .single hb
      · exact (hopened c hc).tail hb
    · have hmem : a ∈ U \ opened := Finset.mem_sdiff.2 ⟨hU a ha, fun ho => hloop a ha (hopened a ho)⟩
      rw [Finset.sdiff_insert, Finset.card_erase_of_mem hmem]
      omega

/-- The recursion below a value ends. -/
abbrev Ends (kids : α → List α) : α → Prop := Acc fun b a => Holds kids a b

/-- The recursion below a value still ends when each value newly held ends, once the old ones do. -/
theorem Ends.of_kids (h : Ends kids a)
    (hkids : ∀ b, Reaches kids a b → ∀ c ∈ kids' b, (∀ d ∈ kids b, Ends kids' d) → Ends kids' c) :
    Ends kids' a := by
  induction h with
  | intro a _ ih =>
    refine ⟨_, fun b hb => hkids a .refl b hb fun c hc => ih c hc fun d hcd => ?_⟩
    exact hkids d (.head hc hcd)

/-- What is reached by way of values that hold nothing new. -/
theorem Reaches.of_agree {a b : α} (h : Reaches kids' a b)
    (hag : ∀ c, Reaches kids a c → ∀ d ∈ kids' c, d ∈ kids c) : Reaches kids a b := by
  induction h with
  | refl => exact .refl
  | tail _ hbc ih => exact ih.tail (hag _ ih _ hbc)

/-! ## Searches -/

variable [DecidableEq κ] {on : Finset κ}

/-- Inside values of certain keys, the walk down from a value comes to one of these keys, or to one
twice. -/
inductive Found (kids : α → List α) (key : α → Option κ) : Finset κ → α → Prop
  | here (on : Finset κ) (a : α) (k : κ) (hk : key a = some k) (hon : k ∈ on) : Found kids key on a
  | deeper (on : Finset κ) (a : α) (k : κ) (c : α) (hk : key a = some k) (hon : k ∉ on)
    (hc : c ∈ kids a) (h : Found kids key (insert k on) c) : Found kids key on a

theorem Found.cases (h : Found kids key on a) :
    (∃ b k, Reaches kids a b ∧ key b = some k ∧ k ∈ on) ∨ Repeats kids key a := by
  induction h with
  | here on a k hk hon => exact .inl ⟨a, k, .refl, hk, hon⟩
  | deeper on a k c hk _ hc _ ih =>
    rcases ih with ⟨b, k', hcb, hk', hon⟩ | ⟨b, d, k', hcb, hbd, hb, hd⟩
    · rcases Finset.mem_insert.1 hon with rfl | hon
      · exact .inr ⟨a, b, k', .refl, .head' hc hcb, hk, hk'⟩
      · exact .inl ⟨b, k', .head hc hcb, hk', hon⟩
    · exact .inr ⟨b, d, k', .head hc hcb, hbd, hb, hd⟩

/-- Below a value without a key the walk sees nothing. -/
def Keyed (kids : α → List α) (key : α → Option κ) : Prop := ∀ a, ∀ b ∈ kids a, key a ≠ none

theorem not_found_below (hkey : Keyed kids key) (h : ¬ Found kids key on a) (hb : b ∈ kids a) :
    ∃ k, key a = some k ∧ k ∉ on ∧ ¬ Found kids key (insert k on) b := by
  obtain ⟨k, hk⟩ := Option.ne_none_iff_exists'.1 (hkey a b hb)
  have hon : k ∉ on := fun hon => h (.here _ _ _ hk hon)
  exact ⟨k, hk, hon, fun hf => h (.deeper _ _ _ _ hk hon hb hf)⟩

theorem not_mem_of_not_found (hkey : Keyed kids key) (h : ¬ Found kids key on a)
    (hab : Reaches kids a b) (hk : key b = some k) : k ∉ on := by
  induction hab using ReflTransGen.head_induction_on generalizing on with
  | refl => exact fun hon => h (.here _ _ _ hk hon)
  | head hac _ ih =>
    obtain ⟨k', -, -, hc⟩ := not_found_below hkey h hac
    exact fun hon => ih hc (Finset.mem_insert_of_mem hon)

theorem not_repeats_of_not_found (hkey : Keyed kids key) (h : ¬ Found kids key on a) :
    ¬ Repeats kids key a := by
  rintro ⟨b, c, k, hab, hbc, hb, hc⟩
  induction hab using ReflTransGen.head_induction_on generalizing on with
  | refl =>
    obtain ⟨d, hbd, hdc⟩ := TransGen.head'_iff.1 hbc
    obtain ⟨k', hk', -, hd⟩ := not_found_below hkey h hbd
    obtain rfl : k' = k := Option.some.inj (hk'.symm.trans hb)
    exact not_mem_of_not_found hkey hd hdc hc (Finset.mem_insert_self ..)
  | head had _ ih =>
    obtain ⟨k', -, -, hd⟩ := not_found_below hkey h had
    exact ih hd

/-- Started inside of nothing, the walk finds the ways down that come to a key twice. -/
theorem found_iff_repeats (hkey : Keyed kids key) : Found kids key ∅ a ↔ Repeats kids key a := by
  constructor
  · intro h
    rcases h.cases with ⟨b, k, -, -, hon⟩ | h
    · simp at hon
    · exact h
  · intro h
    by_contra hf
    exact not_repeats_of_not_found hkey hf h

/-! ## Walks that stop at a value they are inside of -/

/-- A property of every walk with enough fuel to be inside of each value of a finite set once. -/
theorem fuel_induction {P : κ → Prop} {U : Finset κ} {next : κ → List κ} (hU : ∀ i, P i → i ∈ U)
    (hP : ∀ i, P i → ∀ j ∈ next i, P j) {motive : ℕ → List κ → κ → Prop}
    (step : ∀ fuel opened i, P i →
      (i ∉ opened → ∀ j ∈ next i, motive fuel (i :: opened) j) → motive (fuel + 1) opened i)
    (fuel : ℕ) (opened : List κ) (i : κ) (hi : P i) (hfuel : (U \ opened.toFinset).card < fuel) :
    motive fuel opened i := by
  induction fuel generalizing opened i with
  | zero => simp at hfuel
  | succ fuel ih =>
    refine step fuel opened i hi fun hio j hj => ih (i :: opened) j (hP i hi j hj) ?_
    have hmem : i ∈ U \ opened.toFinset := Finset.mem_sdiff.2 ⟨hU i hi, by simpa using hio⟩
    have hlt : (U \ (i :: opened).toFinset).card < (U \ opened.toFinset).card := by
      rw [List.toFinset_cons, Finset.sdiff_insert]
      exact Finset.card_erase_lt_of_mem hmem
    omega

/-- Inside of certain values, the walk down from a value comes to one of them, or to one twice. -/
def Sees (next : κ → List κ) (opened : List κ) (i : κ) : Prop :=
  ∃ j, Reaches next i j ∧ (j ∈ opened ∨ Below next j j)

omit [DecidableEq κ] in
theorem sees_of_mem {next : κ → List κ} {opened : List κ} {i : κ} (h : i ∈ opened) : Sees next opened i :=
  ⟨i, .refl, .inl h⟩

omit [DecidableEq κ] in
theorem sees_nil {next : κ → List κ} {i : κ} : Sees next [] i ↔ Loop next i := by
  simp [Sees, Loop]

omit [DecidableEq κ] in
/-- A walk at a value it is not inside of sees what the walks of those it holds see. -/
theorem sees_iff {next : κ → List κ} {opened : List κ} {i : κ} (hi : i ∉ opened) :
    Sees next opened i ↔ ∃ j ∈ next i, Sees next (i :: opened) j := by
  constructor
  · rintro ⟨k, hik, hk⟩
    rcases hik.cases_head with rfl | ⟨j, hj, hjk⟩
    · have hii : Below next i i := hk.resolve_left hi
      obtain ⟨j, hj, hji⟩ := TransGen.head'_iff.1 hii
      exact ⟨j, hj, i, hji, .inl List.mem_cons_self⟩
    · exact ⟨j, hj, k, hjk, hk.imp_left (List.mem_cons_of_mem i)⟩
  · rintro ⟨j, hj, k, hjk, hk⟩
    rcases hk with hk | hk
    · rcases List.mem_cons.1 hk with rfl | hk
      · exact ⟨k, .refl, .inr (.head' hj hjk)⟩
      · exact ⟨k, .head hj hjk, .inl hk⟩
    · exact ⟨k, .head hj hjk, .inr hk⟩

/-- The ways down that keep off certain values. -/
def off (next : κ → List κ) (opened : List κ) (i : κ) : List κ := (next i).filter fun j => j ∉ opened

/-- What can be reached off certain values is reached from a value below without coming back. -/
theorem reaches_off {next : κ → List κ} {opened : List κ} {i j : κ}
    (h : Reaches (off next opened) i j) :
    j = i ∨ ∃ l ∈ next i, l ∉ i :: opened ∧ Reaches (off next (i :: opened)) l j := by
  induction h with
  | refl => exact .inl rfl
  | @tail m j _ hmj ih =>
    obtain ⟨hj, hjo⟩ := List.mem_filter.1 hmj
    by_cases hji : j = i
    · exact .inl hji
    · have hoff : j ∉ i :: opened := by simpa [hji] using hjo
      rcases ih with rfl | ⟨l, hl, hlo, hlm⟩
      · exact .inr ⟨j, hj, hoff, .refl⟩
      · exact .inr ⟨l, hl, hlo, hlm.tail (List.mem_filter.2 ⟨hj, by simpa using hoff⟩)⟩

theorem Reaches.of_off_cons {next : κ → List κ} {opened : List κ} {i l j : κ}
    (h : Reaches (off next (i :: opened)) l j) : Reaches (off next opened) l j := by
  refine ReflTransGen.mono (fun a b hab => ?_) _ _ h
  obtain ⟨hb, hbo⟩ := List.mem_filter.1 hab
  exact List.mem_filter.2 ⟨hb, by simpa using fun hm => by simp [hm] at hbo⟩

@[simp] theorem off_nil (next : κ → List κ) : off next [] = next := by
  funext i
  simp [off]

end Walk
