import Mathlib.SetTheory.Cardinal.Arithmetic
import TabnasExpr.Rules.Held

/-!
# Evaluators that tell trees apart

There are as many lists of scalars as scalars, when there are infinitely many, so an evaluator may give
every call a value of its own.  It evaluates no two trees alike (`Free.evalTree_inj`).
-/

namespace TabnasExpr.Rules

open OpTree OpTree.Tree

universe u

variable {α : Type u} {f : Op → List (Val α) → α}

section Free

variable {S : Finset α} {T T' : Tree Op (Val α)}

/-- A value as one of a type that is no larger. -/
def valueCode : Val α → Option (α ⊕ ℕ)
  | .undefined => none
  | .atom a => some (.inl a)
  | .node i => some (.inr i)

theorem valueCode_injective : Function.Injective (valueCode (α := α)) := by
  intro v w h
  cases v <;> cases w <;> simp_all [valueCode]

/-- An operator as one of a type that is countable. -/
theorem countable_op : Countable Op := by
  have hchars : Function.Injective (List.map Char.toNat) :=
    List.map_injective_iff.2 fun _ _ h => Char.toNat_inj.1 h
  have hop : Function.Injective fun o : Op =>
      (o.name.toList.map Char.toNat, o.src.toList.map Char.toNat, o.kind.ctorIdx, o.left, o.right) := by
    rintro ⟨n, s, k, l, r⟩ ⟨n', s', k', l', r'⟩ h
    simp only [Prod.mk.injEq] at h
    obtain ⟨hn, hs, hk, rfl, rfl⟩ := h
    obtain rfl := String.toList_injective (hchars hn)
    obtain rfl := String.toList_injective (hchars hs)
    obtain rfl : k = k' := by cases k <;> cases k' <;> first | rfl | cases hk
    rfl
  exact hop.countable

/-- The callback tells its calls apart, and their results from the scalars in a set. -/
structure Free (f : Op → List (Val α) → α) (S : Finset α) : Prop where
  inj : ∀ {o o' vs vs'}, f o vs = f o' vs' → o = o' ∧ vs = vs'
  fresh : ∀ o vs, f o vs ∉ S

theorem exists_free [Infinite α] (S : Finset α) : ∃ f : Op → List (Val α) → α, Free f S := by
  have hcard : Cardinal.mk (ℕ × List (Option (α ⊕ ℕ))) = Cardinal.mk ((S : Set α)ᶜ : Set α) := by
    rw [Cardinal.mk_prod, Cardinal.mk_list_eq_mk, Cardinal.mk_compl_finset_of_infinite]
    simp [Cardinal.add_eq_left, Cardinal.aleph0_le_mk]
  obtain ⟨e⟩ := Cardinal.eq.1 hcard
  have := countable_op
  obtain ⟨number, hnumber⟩ := exists_injective_nat Op
  refine ⟨fun o vs => e (number o, vs.map valueCode), fun h => ?_, fun o vs h => ?_⟩
  · have hcode := e.injective (Subtype.ext h)
    rw [Prod.mk.injEq] at hcode
    exact ⟨hnumber hcode.1, List.map_injective_iff.2 valueCode_injective hcode.2⟩
  · exact (e _).2 (Finset.mem_coe.2 h)

/-- The value is a scalar of a set. -/
def IsIn (S : Finset α) (v : Val α) : Prop := ∃ a ∈ S, v = .atom a

section

variable {o o' : Op} {v v' w w' : Val α}

theorem Free.unary (hf : Free f S) (h : Val.atom (f o [v]) = .atom (f o' [v'])) : o = o' ∧ v = v' := by
  obtain ⟨ho, hv⟩ := hf.inj (Val.atom.inj h)
  exact ⟨ho, (List.cons.inj hv).1⟩

theorem Free.binary (hf : Free f S) (h : Val.atom (f o [v, w]) = .atom (f o' [v', w'])) :
    o = o' ∧ v = v' ∧ w = w' := by
  obtain ⟨ho, hv⟩ := hf.inj (Val.atom.inj h)
  obtain ⟨hv, hw⟩ := List.cons.inj hv
  exact ⟨ho, hv, (List.cons.inj hw).1⟩

theorem Free.unary_ne_binary (hf : Free f S) : Val.atom (f o [v]) ≠ .atom (f o' [v', w']) := by
  intro h
  have hlen := congrArg List.length (hf.inj (Val.atom.inj h)).2
  simp at hlen

theorem Free.ne_operand (hf : Free f S) {vs : List (Val α)} (hv : IsIn S v) :
    Val.atom (f o vs) ≠ v := by
  obtain ⟨a, ha, rfl⟩ := hv
  rintro h
  exact hf.fresh o vs (Val.atom.inj h ▸ ha)

theorem ne_of_kind {k k' : Kind} (h : o.kind = k) (h' : o'.kind = k') (hne : k ≠ k') : o ≠ o' := by
  rintro rfl
  exact hne (h.symm.trans h')

end

/-- A free callback evaluates different trees differently. -/
theorem Free.evalTree_inj (hf : Free f S) (hc : Complete T) (hc' : Complete T') (hk : Kinded T)
    (hk' : Kinded T') (hl : Leaves (IsIn S) T) (hl' : Leaves (IsIn S) T')
    (h : evalTree f T = evalTree f T') : T = T' := by
  induction T generalizing T' with
  | hole => exact hc.elim
  | leaf v =>
    cases T' with
    | hole => exact hc'.elim
    | leaf w => exact congrArg leaf h
    | pre | suf | grp | inf => exact absurd h.symm (hf.ne_operand hl)
  | pre p x ih =>
    cases T' with
    | hole => exact hc'.elim
    | leaf w => exact absurd h (hf.ne_operand hl')
    | pre q y =>
      obtain ⟨rfl, hv⟩ := hf.unary h
      obtain rfl : x = y := ih hc hc' hk.2 hk'.2 hl hl' hv
      rfl
    | suf | grp => exact absurd (hf.unary h).1 (ne_of_kind hk.1 hk'.1 (by decide))
    | inf => exact absurd h hf.unary_ne_binary
  | suf p x ih =>
    cases T' with
    | hole => exact hc'.elim
    | leaf w => exact absurd h (hf.ne_operand hl')
    | suf q y =>
      obtain ⟨rfl, hv⟩ := hf.unary h
      obtain rfl : x = y := ih hc hc' hk.2 hk'.2 hl hl' hv
      rfl
    | pre | grp => exact absurd (hf.unary h).1 (ne_of_kind hk.1 hk'.1 (by decide))
    | inf => exact absurd h hf.unary_ne_binary
  | grp p x ih =>
    cases T' with
    | hole => exact hc'.elim
    | leaf w => exact absurd h (hf.ne_operand hl')
    | grp q y =>
      obtain ⟨rfl, hv⟩ := hf.unary h
      obtain rfl : x = y := ih hc hc' hk.2.2 hk'.2.2 hl hl' hv
      rfl
    | pre | suf => exact absurd (hf.unary h).1 (ne_of_kind hk.1 hk'.1 (by decide))
    | inf => exact absurd h hf.unary_ne_binary
  | inf p l r ihl ihr =>
    cases T' with
    | hole => exact hc'.elim
    | leaf w => exact absurd h (hf.ne_operand hl')
    | inf q l' r' =>
      obtain ⟨rfl, hv, hw⟩ := hf.binary h
      obtain rfl : l = l' := ihl hc.1 hc'.1 hk.2.1 hk'.2.1 hl.1 hl'.1 hv
      obtain rfl : r = r' := ihr hc.2 hc'.2 hk.2.2 hk'.2.2 hl.2 hl'.2 hw
      rfl
    | pre | suf | grp => exact absurd h.symm hf.unary_ne_binary

theorem IsIn.mono {S' : Finset α} {v : Val α} (h : IsIn S v) (hS : S ⊆ S') : IsIn S' v := by
  obtain ⟨a, ha, hv⟩ := h
  exact ⟨a, hS ha, hv⟩

/-- The operands of a tree are in some set. -/
theorem exists_isIn (h : Leaves IsAtom T) : ∃ S : Finset α, Leaves (IsIn S) T := by
  classical
  induction T with
  | hole => exact ⟨∅, trivial⟩
  | leaf v =>
    obtain ⟨a, rfl⟩ := h
    exact ⟨{a}, a, Finset.mem_singleton_self a, rfl⟩
  | pre o x ih | suf o x ih | grp o x ih => exact ih h
  | inf o l r ihl ihr =>
    obtain ⟨S, hS⟩ := ihl h.1
    obtain ⟨S', hS'⟩ := ihr h.2
    exact ⟨S ∪ S', hS.mono fun _ hv => hv.mono Finset.subset_union_left,
      hS'.mono fun _ hv => hv.mono Finset.subset_union_right⟩

theorem exists_evalTree_ne [Infinite α] (hc : Complete T) (hc' : Complete T') (hk : Kinded T)
    (hk' : Kinded T') (hl : Leaves IsAtom T) (hl' : Leaves IsAtom T') (hne : T ≠ T') :
    ∃ f, evalTree f T ≠ evalTree f T' := by
  classical
  obtain ⟨S, hS⟩ := exists_isIn hl
  obtain ⟨S', hS'⟩ := exists_isIn hl'
  obtain ⟨f, hf⟩ := exists_free (S ∪ S')
  refine ⟨f, fun h => hne (hf.evalTree_inj hc hc' hk hk' ?_ ?_ h)⟩
  · exact hS.mono fun _ hv => hv.mono Finset.subset_union_left
  · exact hS'.mono fun _ hv => hv.mono Finset.subset_union_right

end Free

end TabnasExpr.Rules
