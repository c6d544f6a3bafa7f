import Mathlib.Data.List.Nodup
import Mathlib.Data.List.Pairwise
import Mathlib.Order.Basic

/-!
# Linearizations

A history says when calls are made and when they return.  A linearization of it is a sequence of calls
with their answers that a sequential object gives one after another, in which a call that returned
before another was made comes first.

A call may take effect where it is no longer the last one: right before an operation that leaves no
trace of it (`Plays.insert`).
-/

namespace Linear

variable {ι S O R : Type*}

/-- What happens at the boundary of an object. -/
inductive Event (ι O R : Type*)
  | call (c : ι) (op : O)
  | ret (c : ι) (r : R)

/-- A call with its answer. -/
structure Entry (ι O R : Type*) where
  call : ι
  op : O
  ret : R

variable (apply : S → O → R × S)

/-- The object gives the answers of the entries, one after another. -/
def Plays : S → List (Entry ι O R) → S → Prop
  | s, [], s' => s = s'
  | s, e :: L, s' => (apply s e.op).1 = e.ret ∧ Plays (apply s e.op).2 L s'

/-- The one call returned before the other was made. -/
def Precedes (h : List (Event ι O R)) (c c' : ι) : Prop :=
  ∃ r op, [Event.ret c r, Event.call c' op].Sublist h

/-- The entries are calls of the history in an order the object agrees with, and all that returned are
among them. -/
structure Linearizes (init : S) (h : List (Event ι O R)) (L : List (Entry ι O R)) : Prop where
  plays : ∃ s, Plays apply init L s
  nodup : (L.map Entry.call).Nodup
  called : ∀ e ∈ L, .call e.call e.op ∈ h
  returned : ∀ c r, .ret c r ∈ h → ∃ op, ⟨c, op, r⟩ ∈ L
  order : L.Pairwise fun e e' => ¬ Precedes h e'.call e.call

variable {apply} {s s' s₁ init : S} {L L₁ L₂ : List (Entry ι O R)} {e x y : Entry ι O R}
  {h : List (Event ι O R)} {c c' c'' : ι} {op : O} {r : R} {Q : ι → Prop}

/-! ### What the object answers -/

theorem plays_append : Plays apply s (L₁ ++ L₂) s' ↔ ∃ s₁, Plays apply s L₁ s₁ ∧ Plays apply s₁ L₂ s' := by
  induction L₁ generalizing s with
  | nil => simp [Plays]
  | cons e L₁ ih => simp [Plays, ih, and_assoc]

theorem Plays.concat (hL : Plays apply s L s') (he : (apply s' e.op).1 = e.ret) :
    Plays apply s (L ++ [e]) (apply s' e.op).2 :=
  plays_append.2 ⟨s', hL, he, rfl⟩

theorem Plays.unique (h₁ : Plays apply s L s') (h₂ : Plays apply s L s₁) : s' = s₁ := by
  induction L generalizing s with
  | nil => exact h₁.symm.trans h₂
  | cons e L ih => exact ih h₁.2 h₂.2

/-- An entry before one that leaves no trace of it changes nothing after that one. -/
theorem Plays.insert (h₁ : Plays apply s L₁ s₁) (he : (apply s₁ e.op).1 = e.ret)
    (hx : apply (apply s₁ e.op).2 x.op = apply s₁ x.op) (h₂ : Plays apply s₁ (x :: L₂) s') :
    Plays apply s (L₁ ++ e :: x :: L₂) s' := by
  refine plays_append.2 ⟨s₁, h₁, he, ?_⟩
  rw [Plays, hx]
  exact h₂

/-! ### The order of a history -/

theorem not_precedes_of_not_returned (hc : ∀ r, Event.ret c r ∉ h) : ¬ Precedes h c c' := by
  rintro ⟨r, op, hs⟩
  exact hc r (hs.subset (by simp))

theorem precedes_concat {ev : Event ι O R} : Precedes (h ++ [ev]) c c' ↔
    Precedes h c c' ∨ ∃ r op, .ret c r ∈ h ∧ ev = .call c' op := by
  constructor
  · rintro ⟨r, op, hs⟩
    obtain ⟨l₁, l₂, he, h₁, h₂⟩ := List.sublist_append_iff.1 hs
    rcases List.sublist_singleton.1 h₂ with rfl | rfl
    · exact Or.inl ⟨r, op, by rwa [he, List.append_nil]⟩
    · match l₁ with
      | [a] =>
        simp only [List.singleton_append, List.cons.injEq, and_true] at he
        obtain ⟨rfl, rfl⟩ := he
        exact Or.inr ⟨r, op, h₁.subset (List.mem_singleton_self _), rfl⟩
      | [] | _ :: _ :: _ => simp at he
  · rintro (⟨r, op, hs⟩ | ⟨r, op, hm, rfl⟩)
    · exact ⟨r, op, hs.trans (List.sublist_append_left _ _)⟩
    · exact ⟨r, op, (List.singleton_sublist.2 hm).append (List.Sublist.refl _)⟩

/-- A call that is made changes the order of no other. -/
theorem precedes_call (hc : c' ≠ c'') : Precedes (h ++ [.call c'' op]) c c' ↔ Precedes h c c' := by
  rw [precedes_concat, or_iff_left]
  rintro ⟨r, op', -, he⟩
  exact hc (Event.call.inj he).1.symm

/-- Nor does a call that returns. -/
theorem precedes_ret : Precedes (h ++ [.ret c'' r]) c c' ↔ Precedes h c c' := by
  rw [precedes_concat, or_iff_left]
  rintro ⟨r', op', -, he⟩
  cases he

/-! ### How a linearization grows -/

namespace Linearizes

variable (hL : Linearizes apply init h L)

theorem nil : Linearizes apply init [] ([] : List (Entry ι O R)) where
  plays := ⟨init, rfl⟩
  nodup := List.nodup_nil
  called := by simp
  returned := by simp
  order := List.Pairwise.nil

include hL

/-- A call is made. -/
theorem invoke (hc : ∀ op, Event.call c op ∉ h) : Linearizes apply init (h ++ [.call c op]) L where
  plays := hL.plays
  nodup := hL.nodup
  called e he := List.mem_append_left _ (hL.called e he)
  returned c r hr := hL.returned c r (by simpa using hr)
  order := hL.order.imp_of_mem fun {e e'} he _ hp => by
    rwa [precedes_call]
    rintro rfl
    exact hc _ (hL.called e he)

/-- A call returns with its answer. -/
theorem answer (he : ⟨c, op, r⟩ ∈ L) : Linearizes apply init (h ++ [.ret c r]) L where
  plays := hL.plays
  nodup := hL.nodup
  called e he := List.mem_append_left _ (hL.called e he)
  returned c' r' hr := by
    rcases List.mem_append.1 hr with hr | hr
    · exact hL.returned c' r' hr
    · obtain ⟨rfl, rfl⟩ := Event.ret.inj (List.mem_singleton.1 hr)
      exact ⟨op, he⟩
  order := hL.order.imp fun {e e'} hp => by rwa [precedes_ret]

end Linearizes

/-- A call takes effect, before some that have not returned since it was made. -/
theorem Linearizes.insert (hL : Linearizes apply init h (L₁ ++ L₂))
    (hp : ∃ s, Plays apply init (L₁ ++ e :: L₂) s) (hcall : .call e.call e.op ∈ h)
    (hret : ∀ r, Event.ret e.call r ∉ h) (hnew : ∀ x ∈ L₁ ++ L₂, x.call ≠ e.call)
    (horder : ∀ x ∈ L₂, ¬ Precedes h x.call e.call) : Linearizes apply init h (L₁ ++ e :: L₂) := by
  have hperm : (L₁ ++ e :: L₂).Perm (e :: (L₁ ++ L₂)) := List.perm_middle
  refine ⟨hp, ?_, fun x hx => ?_, fun c r hr => ?_, ?_⟩
  · refine ((hperm.map Entry.call).nodup_iff).2 (List.nodup_cons.2 ⟨?_, hL.nodup⟩)
    rintro hm
    obtain ⟨x, hx, he⟩ := List.mem_map.1 hm
    exact hnew x hx he
  · rcases List.mem_cons.1 (hperm.subset hx) with rfl | hx
    · exact hcall
    · exact hL.called x hx
  · obtain ⟨op, hm⟩ := hL.returned c r hr
    exact ⟨op, hperm.symm.subset (List.mem_cons_of_mem _ hm)⟩
  · obtain ⟨h₁, h₂, h₁₂⟩ := List.pairwise_append.1 hL.order
    refine List.pairwise_append.2 ⟨h₁, List.pairwise_cons.2 ⟨horder, h₂⟩, fun x hx y hy => ?_⟩
    rcases List.mem_cons.1 hy with rfl | hy
    · exact not_precedes_of_not_returned hret
    · exact h₁₂ x hx y hy

/-! ### Places before entries -/

/-- The object is in the state `s` right before the entry, and no entry from there on is of a call with
`Q`. -/
def Place (apply : S → O → R × S) (init : S) (L : List (Entry ι O R)) (x : Entry ι O R) (s : S)
    (Q : ι → Prop) : Prop :=
  ∃ L₁ L₂, L = L₁ ++ x :: L₂ ∧ Plays apply init L₁ s ∧ ∀ y ∈ x :: L₂, ¬ Q y.call

namespace Place

variable {Q' : ι → Prop}

theorem mem (hx : Place apply init L x s Q) : x ∈ L := by
  obtain ⟨L₁, L₂, rfl, -⟩ := hx
  simp

theorem mono (hx : Place apply init L x s Q) (hQ : ∀ c, Q' c → Q c) : Place apply init L x s Q' := by
  obtain ⟨L₁, L₂, rfl, hp, hq⟩ := hx
  exact ⟨L₁, L₂, rfl, hp, fun y hy hy' => hq y hy (hQ _ hy')⟩

theorem last (hp : Plays apply init L s) (hx : ¬ Q x.call) : Place apply init (L ++ [x]) x s Q :=
  ⟨L, [], rfl, hp, by simpa using hx⟩

theorem concat (hx : Place apply init L x s Q) (he : ¬ Q e.call) :
    Place apply init (L ++ [e]) x s Q := by
  obtain ⟨L₁, L₂, rfl, hp, hq⟩ := hx
  refine ⟨L₁, L₂ ++ [e], by simp, hp, fun y hy => ?_⟩
  rw [← List.cons_append] at hy
  rcases List.mem_append.1 hy with hy | hy
  · exact hq y hy
  · obtain rfl := List.mem_singleton.1 hy
    exact he

/-- Where an entry goes before one that leaves no trace of it, the object is before every other entry in
the state it was. -/
theorem insert (hx : Place apply init (L₁ ++ y :: L₂) x s Q) (hxy : x ≠ y)
    (hp : Plays apply init L₁ s₁) (he : (apply s₁ e.op).1 = e.ret)
    (hy : apply (apply s₁ e.op).2 y.op = apply s₁ y.op) (hq : ¬ Q e.call) :
    Place apply init (L₁ ++ e :: y :: L₂) x s Q := by
  obtain ⟨K₁, K₂, hL, hK, hQ⟩ := hx
  rcases List.append_eq_append_iff.1 hL with ⟨M, rfl, hM⟩ | ⟨M, rfl, hM⟩
  · -- The entry goes before `y`, which is before `x`.
    cases M with
    | nil => exact absurd (List.cons.inj hM).1 fun hx => hxy hx.symm
    | cons y' M =>
      obtain ⟨rfl, rfl⟩ := List.cons.inj hM
      obtain ⟨s', h₁, h₂⟩ := plays_append.1 hK
      obtain rfl := h₁.unique hp
      exact ⟨L₁ ++ e :: y :: M, K₂, by simp, hp.insert he hy h₂, hQ⟩
  · -- The entry goes behind `x`.
    cases M with
    | nil => exact absurd (List.cons.inj hM).1 hxy
    | cons x' M =>
      obtain ⟨rfl, rfl⟩ := List.cons.inj hM
      refine ⟨K₁, M ++ e :: y :: L₂, by simp, hK, fun z hz => ?_⟩
      rcases List.mem_cons.1 hz with rfl | hz
      · exact hQ z (List.mem_cons_self ..)
      · rcases List.mem_append.1 hz with hz | hz
        · exact hQ z (List.mem_cons_of_mem _ (List.mem_append_left _ hz))
        · rcases List.mem_cons.1 hz with rfl | hz
          · exact hq
          · exact hQ z (List.mem_cons_of_mem _ (List.mem_append_right _ hz))

end Place

end Linear
