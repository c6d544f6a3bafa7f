import Mathlib.Algebra.BigOperators.Group.Finset.Basic
import Mathlib.Algebra.Order.BigOperators.Group.Finset
import TabnasExpr.Clib.Exclusion

/-!
# Every call of the registry returns

A call waits only for calls that can go on, so some call can as long as one has not returned
(`exists_canStep`); and a call takes a bounded number of steps.
-/

namespace TabnasExpr.Clib

open Linear

variable {ι σ P V D R : Type*} [DecidableEq ι] {host : Host σ P V D} {s s' : State ι σ (Reply P D)}
  {c d : ι} {o : Option (Reply P D)} {h : List (Event ι Call (Reply P D))}

/-! ### Waiting -/

section Waiting

/-- The call can take a step. -/
def CanStep (host : Host σ P V D) (s : State ι σ (Reply P D)) (c : ι) : Prop :=
  (advance host s c).isSome

theorem canStep_of_alone (hc : s.At Pc.Alone c) : CanStep host s c := by
  obtain ⟨pc, hpc, hA⟩ := hc
  cases pc <;> first | exact hA.elim | simp [CanStep, advance, hpc]

theorem canStep_of_reading (hc : s.At Pc.Reading c) : CanStep host s c := by
  obtain ⟨pc, hpc, hR⟩ := hc
  cases pc with
  | lookup => simp [CanStep, advance, hpc]
  | runlock g => cases g <;> simp [CanStep, advance, hpc]
  | _ => exact hR.elim

theorem canStep_of_holds (hG : Guarded s) {g : ℕ} (hc : s.At (Pc.Holds g) c) : CanStep host s c := by
  obtain ⟨i, hi⟩ := Option.ne_none_iff_exists'.1 (hG.used c g (hc.mono fun _ => Pc.Holds.uses))
  obtain ⟨pc, hpc, hH⟩ := hc
  cases pc with
  | parse =>
    obtain rfl := hH
    simp [CanStep, advance, hpc, hi]
  | parsed | muUnlock => simp [CanStep, advance, hpc]
  | _ => exact hH.elim

/-- The call that keeps the writers out can go on, or a reader it waits for can. -/
theorem exists_canStep_of_writer (host : Host σ P V D) (hG : Guarded s) (hw : s.reg.writer ≠ none) :
    ∃ d, CanStep host s d := by
  obtain ⟨d, hd⟩ := Option.ne_none_iff_exists'.1 hw
  obtain ⟨pc, hpc, hW⟩ := (hG.writer d).1 hd
  cases pc with
  | drain w =>
    by_cases hr : s.reg.readers = ∅
    · exact ⟨d, by simp [CanStep, advance, hpc, hr]⟩
    · obtain ⟨e, he⟩ := Finset.nonempty_iff_ne_empty.2 hr
      exact ⟨e, canStep_of_reading ((hG.reader e).1 he)⟩
  | readID | writeID | fetchID | store | delete | unlock => exact ⟨d, canStep_of_alone ⟨_, hpc, trivial⟩⟩
  | _ => exact hW.elim

/-- While a call has not returned, some call can go on. -/
theorem exists_canStep (host : Host σ P V D) (hG : Guarded s) {pc : Pc σ (Reply P D)} (hc : s.calls c = some pc)
    (hr : ∀ r, pc ≠ .returned r) : ∃ d, CanStep host s d := by
  cases pc with
  | load optsJSON =>
    refine ⟨c, ?_⟩
    cases hb : host.build optsJSON <;> simp [CanStep, advance, hc, hb]
  | lock | rlock =>
    by_cases hw : s.reg.writer = none
    · exact ⟨c, by simp [CanStep, advance, hc, hw]⟩
    · exact exists_canStep_of_writer host hG hw
  | drain =>
    refine exists_canStep_of_writer host hG ?_
    rw [(hG.writer c).2 ⟨_, hc, trivial⟩]
    exact Option.some_ne_none c
  | readID | writeID | fetchID | store | delete | unlock => exact ⟨c, canStep_of_alone ⟨_, hc, trivial⟩⟩
  | lookup | runlock => exact ⟨c, canStep_of_reading ⟨_, hc, trivial⟩⟩
  | muLock g =>
    obtain ⟨i, hi⟩ := Option.ne_none_iff_exists'.1 (hG.used c g ⟨_, hc, rfl⟩)
    cases hm : i.mu with
    | none => exact ⟨c, by simp [CanStep, advance, hc, hi, hm]⟩
    | some d => exact ⟨d, canStep_of_holds hG ((hG.holder g i hi d).1 hm)⟩
  | parse | parsed | muUnlock => exact ⟨c, canStep_of_holds hG ⟨_, hc, rfl⟩⟩
  | reply => exact ⟨c, by simp [CanStep, advance, hc]⟩
  | returned r => exact absurd rfl (hr r)

end Waiting

/-! ### Counting steps -/

section Steps

/-- The steps a call is yet to take at most. -/
def Pc.left : Pc σ R → ℕ
  | .load _ => 9
  | .lock _ | .rlock _ _ => 8
  | .drain _ | .lookup _ _ => 7
  | .readID _ | .runlock _ _ => 6
  | .writeID _ _ | .muLock _ _ => 5
  | .fetchID _ | .parse _ _ => 4
  | .store _ _ | .delete _ | .parsed _ _ _ => 3
  | .unlock _ | .muUnlock _ _ => 2
  | .reply _ => 1
  | .returned _ => 0

def State.left (s : State ι σ R) (c : ι) : ℕ := ((s.calls c).map Pc.left).getD 0

omit [DecidableEq ι] in
theorem left_le_nine (c : ι) : s.left c ≤ 9 := by
  unfold State.left
  cases s.calls c with
  | none => simp
  | some pc => cases pc <;> simp [Pc.left]

theorem Advances.calls_self (ha : Advances host s c s' o) : ∃ pc, s'.calls c = some pc := by
  cases ha <;> exact ⟨_, State.calls_goto.trans (if_pos rfl)⟩

theorem Advances.left_lt (ha : Advances host s c s' o) : s'.left c < s.left c := by
  unfold State.left
  cases ha <;> simp_all [Pc.left]

/-- The calls that were made. -/
def made (h : List (Event ι Call (Reply P D))) : Finset ι :=
  (h.filterMap fun
    | .call c _ => some c
    | .ret _ _ => none).toFinset

theorem mem_made : c ∈ made h ↔ ∃ op, .call c op ∈ h := by
  simp only [made, List.mem_toFinset, List.mem_filterMap]
  constructor
  · rintro ⟨e, he, hc⟩
    cases e with
    | call d op =>
      obtain rfl := Option.some.inj hc
      exact ⟨op, he⟩
    | ret => cases hc
  · rintro ⟨op, ho⟩
    exact ⟨_, ho, rfl⟩

theorem Reaches.mem_made (hs : Reaches host s h) (hc : s.calls c ≠ none) : c ∈ made h := by
  rw [Clib.mem_made]
  induction hs with
  | init => exact absurd rfl hc
  | invoke d op _ _ ih =>
    rw [State.calls_goto] at hc
    split_ifs at hc with hcd
    · exact ⟨op, by simp [hcd]⟩
    · exact (ih hc).imp fun op' ho => List.mem_append_left _ ho
  | step d r _ ha ih =>
    refine (ih fun hn => hc ?_).imp fun op' ho => List.mem_append_left _ ho
    rw [(advances ha).calls_of_ne, hn]
    rintro rfl
    simp [advance, hn] at ha

/-- So many steps of the calls there are, none of which is a new call. -/
inductive Goes (host : Host σ P V D) :
    ℕ → State ι σ (Reply P D) → State ι σ (Reply P D) → List (Event ι Call (Reply P D)) → Prop
  | refl (s : State ι σ (Reply P D)) : Goes host 0 s s []
  | step {n : ℕ} {s s' s'' : State ι σ (Reply P D)} {c : ι} {r : Option (Reply P D)}
      {h : List (Event ι Call (Reply P D))} : Goes host n s s' h → advance host s' c = some (s'', r) →
      Goes host (n + 1) s s'' (h ++ (r.map (Event.ret c)).toList)

variable {n : ℕ} {k : List (Event ι Call (Reply P D))}

theorem Goes.reaches (hg : Goes host n s s' k) (hs : Reaches host s h) : Reaches host s' (h ++ k) := by
  induction hg with
  | refl => simpa using hs
  | step _ ha ih =>
    rw [← List.append_assoc]
    exact (ih hs).step _ _ ha

theorem Goes.made (hg : Goes host n s s' k) : made (h ++ k) = made h := by
  induction hg with
  | refl => simp
  | @step n s s' s'' c r k _ _ ih =>
    rw [← ih]
    cases r <;> simp [Clib.made]

theorem Goes.calls_ne_none (hg : Goes host n s s' k) (hc : s.calls c ≠ none) : s'.calls c ≠ none := by
  induction hg with
  | refl => exact hc
  | @step n s s' s'' d r k _ ha ih =>
    by_cases hcd : c = d
    · obtain ⟨pc, hpc⟩ := (advances ha).calls_self
      simp [hcd, hpc]
    · rw [(advances ha).calls_of_ne hcd]
      exact ih hc

/-- The steps that are left get fewer. -/
theorem Goes.left_le (hg : Goes host n s s' k) (hs : Reaches host s h) :
    n + ∑ c ∈ Clib.made h, s'.left c ≤ ∑ c ∈ Clib.made h, s.left c := by
  induction hg with
  | refl => simp
  | @step n s s' s'' d r k hg ha ih =>
    have hd : d ∈ Clib.made h := by
      rw [← hg.made]
      refine (hg.reaches hs).mem_made fun hn => ?_
      simp [advance, hn] at ha
    have hlt : ∑ c ∈ Clib.made h, s''.left c < ∑ c ∈ Clib.made h, s'.left c := by
      refine Finset.sum_lt_sum (fun c _ => ?_) ⟨d, hd, (advances ha).left_lt⟩
      by_cases hcd : c = d
      · exact hcd ▸ (advances ha).left_lt.le
      · rw [State.left, (advances ha).calls_of_ne hcd, State.left]
    have := ih hs
    omega

/-- A schedule without new calls. -/
theorem Goes.follow {cs : List ι} {s'' : State ι σ (Reply P D)} {h' : List (Event ι Call (Reply P D))}
    (hg : Goes host n s s' k) (hl : Clib.follow host (cs.map fun c => (c, none)) (s', h ++ k) = some (s'', h')) :
    ∃ k', h' = h ++ k' ∧ Goes host (n + cs.length) s s'' k' := by
  induction cs generalizing n s' k with
  | nil =>
    obtain ⟨rfl, rfl⟩ := Prod.mk.inj (Option.some.inj hl)
    exact ⟨k, rfl, hg⟩
  | cons c cs ih =>
    obtain ⟨⟨s₁, r⟩, ha, hl⟩ := Option.bind_eq_some_iff.1 hl
    obtain ⟨k', hk, hg'⟩ := ih (hg.step ha) (by rwa [← List.append_assoc])
    rw [List.length_cons, Nat.add_comm cs.length, ← Nat.add_assoc]
    exact ⟨k', hk, hg'⟩

/-- While no call is made, the calls there are take at most nine steps each, and where they can take no
more, all of them have returned. -/
theorem calls_return (hs : Reaches host s h) (hg : Goes host n s s' k) :
    n ≤ 9 * (made h).card ∧
      ((∀ c, advance host s' c = none) → ∀ c, s.calls c ≠ none → ∃ r, s'.calls c = some (.returned r)) := by
  have hs' := hg.reaches hs
  constructor
  · have hle := hg.left_le hs
    have hbound : ∑ c ∈ made h, s.left c ≤ (made h).card * 9 :=
      Finset.sum_le_card_nsmul _ _ _ fun c _ => left_le_nine c
    omega
  · intro hstuck c hc
    have hc' : s'.calls c ≠ none := hg.calls_ne_none hc
    obtain ⟨pc, hpc⟩ := Option.ne_none_iff_exists'.1 hc'
    by_contra hnr
    obtain ⟨d, hd⟩ := exists_canStep host hs'.guarded hpc fun r hr => hnr ⟨r, hr ▸ hpc⟩
    simp [CanStep, hstuck d] at hd

/-- A load, two parses with its parser, and a free, which waits for the second to look it up. -/
def waiting : List (ℕ × Option Call) :=
  (1, some (.load "")) :: List.replicate 9 (1, none) ++ (2, some (.parse 1 "1+1")) ::
    List.replicate 4 (2, none) ++ (4, some (.parse 1 "2")) :: (4, none) :: (3, some (.free 1)) :: [(3, none)]

/-- The parses go on, and then the free. -/
def goingOn : List ℕ := List.replicate 4 2 ++ List.replicate 7 4 ++ List.replicate 4 3

theorem follow_waiting : ((follow counting waiting (.init _ _ _, [])).bind fun x =>
    (follow counting (goingOn.map fun c => (c, none)) x).map fun y =>
      (x.1.calls 3, [1, 2, 3, 4].map y.1.calls, y.2)) =
      some (some (.drain (.delete 1)),
        [some (.returned (.handle 1)), some (.returned (.acceptDoc ("1+1", 0))), some (.returned .freed),
          some (.returned (.acceptDoc ("2", 1)))],
        [.call 1 (.load ""), .ret 1 (.handle 1), .call 2 (.parse 1 "1+1"), .call 4 (.parse 1 "2"),
          .call 3 (.free 1), .ret 2 (.acceptDoc ("1+1", 0)), .ret 4 (.acceptDoc ("2", 1)), .ret 3 .freed]) :=
  rfl

/-- The calls that wait there return, after fifteen steps. -/
theorem calls_return_waiting : ∃ s s' h k, Reaches counting s h ∧ s.calls 3 = some (.drain (.delete 1)) ∧
    Goes counting 15 s s' k ∧ 15 ≤ 9 * (made h).card ∧
      ∀ c, s.calls c ≠ none → ∃ r, s'.calls c = some (.returned r) := by
  obtain ⟨⟨s, h⟩, hs, hrest⟩ := Option.bind_eq_some_iff.1 follow_waiting
  obtain ⟨⟨s', h'⟩, hs', hy⟩ := Option.map_eq_some_iff.1 hrest
  obtain ⟨hc, hy⟩ := Prod.mk.inj hy
  obtain ⟨hcalls, rfl⟩ := Prod.mk.inj hy
  have hreach := Reaches.init.follow hs
  obtain ⟨k, -, hg⟩ := (Goes.refl s).follow (by rwa [← List.append_nil h] at hs')
  have hdone : ∀ c, advance counting s' c = none := by
    intro c
    by_cases hn : s'.calls c = none
    · simp [advance, hn]
    · have hmade : c = 1 ∨ c = 2 ∨ c = 4 ∨ c = 3 := by
        simpa [mem_made, exists_or] using (hreach.follow hs').mem_made hn
      simp only [List.map_cons, List.map_nil, List.cons.injEq, and_true] at hcalls
      rcases hmade with rfl | rfl | rfl | rfl <;> simp [advance, hcalls]
  obtain ⟨hle, hret⟩ := calls_return hreach hg
  exact ⟨s, s', h, k, hreach, hc, hg, hle, hret hdone⟩

end Steps

end TabnasExpr.Clib
