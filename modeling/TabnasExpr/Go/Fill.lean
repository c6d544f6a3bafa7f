import TabnasExpr.Go.Box
import TabnasExpr.Lib.Headed
import TabnasExpr.Ts.Prattify

/-!
# Where `fillNextSlot` puts an operand

In the boxes of a stored tree `fillNextSlot` finds the one slot the tree has open, at the end of the
right edge, and finds none in a complete tree.
-/

namespace TabnasExpr.Go

open OpTree OpTree.Tree

variable {α : Type*} {s u : Heap α} {t x y : Tree (ℕ × Op) (Val α)} {p : ℕ × Op}
  {l? : Option (Tree (ℕ × Op) (Val α))} {v : Slot α} {fuel : ℕ}

section Boxes

theorem slots_of_complete (hx : Complete x) : layout.slots x = [.val (handle x)] := by
  cases x with
  | hole => exact hx.elim
  | leaf | pre | suf | inf | grp => rfl

theorem cell_root (h : Stores layout s t) (hr : rootOp t = some p) :
    ∃ vs, s.cell p.1 = some ⟨some p.2, vs⟩ := by
  cases t <;> cases hr <;> exact ⟨_, h.1⟩

theorem opOf_root (h : Stores layout s t) (hr : rootOp t = some p) : opOf s p.1 = some p.2 := by
  obtain ⟨vs, hc⟩ := cell_root h hr
  simp [opOf, hc]

/-- The operator to go down to from an operand is the one at the root of its tree. -/
theorem opAt_handle (h : Stores layout s t) (hl : Leaves IsAtom (erase t)) :
    opAt s (handle t) = rootOp t := by
  cases t with
  | hole => rfl
  | leaf v =>
    obtain ⟨a, rfl⟩ := hl
    rfl
  | pre q | suf q | inf q | grp q => simp [handle, opAt, rootOp, opOf_root h rfl]

/-- Every slot of a complete operand is filled. -/
theorem isUnfilled_slots (hx : Complete x) : (layout.slots x).any Slot.isUnfilled = false := by
  rw [slots_of_complete hx]
  rfl

theorem isUnfilled_front (hl : FrontComplete l?) :
    (layout.front l?).any Slot.isUnfilled = false := by
  cases l? with
  | none => rfl
  | some l => exact isUnfilled_slots (hl l rfl)

theorem fillFirst_append {vs : List (Slot α)} (h : vs.any Slot.isUnfilled = false)
    (ws : List (Slot α)) : fillFirst v (vs ++ ws) = vs ++ fillFirst v ws := by
  induction vs with
  | nil => rfl
  | cons w vs ih =>
    cases w with
    | unfilled => cases h
    | val w => exact congrArg (Slot.val w :: ·) (ih h)

theorem hole_of_open (hx : Open x) (hr : rootId x = none) : x = hole := by
  cases x with
  | hole => rfl
  | pre | inf => cases hr
  | leaf | suf | grp => exact hx.elim

/-- The elements of the box of a node of the right edge are its terms, and no more. -/
theorem take_spine (hl : FrontComplete l?) (hk : Kinded (erase (spine p l? x)))
    (hx : (layout.slots x).length = 1) :
    (layout.front l? ++ layout.slots x).take p.2.terms = layout.front l? ++ layout.slots x := by
  rw [terms_spine layout hl hk.slotted]
  exact List.take_of_length_le (by simp [hx])

end Boxes

/-! ## The walk -/

section Walk

variable {fill : List ℕ → ℕ → Option (List ℕ ⊕ Heap α)} {seen : List ℕ}

/-- Only an operator's node is walked into. -/
theorem fillSubs_slots (hl : Leaves IsAtom (erase x)) :
    fillSubs fill (layout.slots x) seen = (rootId x).elim (some (.inl seen)) (fill seen) := by
  cases x with
  | hole => rfl
  | leaf v =>
    obtain ⟨a, rfl⟩ := hl
    rfl
  | pre q | suf q | inf q | grp q =>
    simp only [Layout.slots, layout_ref, fillSubs, rootId, Option.elim_some]
    cases fill seen q.1 with
    | none => rfl
    | some r => cases r <;> rfl

theorem fillSubs_append {vs ws : List (Slot α)} {seen' : List ℕ}
    (h : fillSubs fill vs seen = some (.inl seen')) :
    fillSubs fill (vs ++ ws) seen = fillSubs fill ws seen' := by
  induction vs generalizing seen with
  | nil =>
    cases h
    rfl
  | cons w vs ih =>
    match w with
    | .unfilled | .val .undefined | .val (.atom _) => exact ih h
    | .val (.node j) =>
      simp only [List.cons_append, fillSubs] at h ⊢
      cases hf : fill seen j with
      | none => simp [hf] at h
      | some r =>
        cases r with
        | inl seen₁ =>
          rw [hf] at h
          exact ih h
        | inr s' => simp [hf] at h

/-- The outcome of a walk that found no slot: it saw nothing but the boxes of the tree. -/
def Passed (seen : List ℕ) (t : Tree (ℕ × Op) (Val α)) (r : Option (List ℕ ⊕ Heap α)) : Prop :=
  ∃ seen', r = some (.inl seen') ∧ ∀ i ∈ seen', i ∈ seen ∨ i ∈ ids t

/-- The walk of the elements of a complete operand. -/
theorem passed_slots (hl : Leaves IsAtom (erase x))
    (h : ∀ i, rootId x = some i → Passed seen x (fill seen i)) :
    Passed seen x (fillSubs fill (layout.slots x) seen) := by
  rw [fillSubs_slots hl]
  cases hi : rootId x with
  | none => exact ⟨seen, rfl, fun i hi => Or.inl hi⟩
  | some i => exact h i hi

/-- A walk of a box whose slots are all filled ends as the walk of its elements does. -/
theorem passed_box {o : Op} {vs : List (Slot α)} {i : ℕ} (hc : s.cell i = some ⟨some o, vs⟩)
    (ht : vs.take o.terms = vs) (hu : vs.any Slot.isUnfilled = false) (hi : i ∈ ids t)
    (h : ∀ seen', Passed seen' t (fillSubs (fillNextSlotSeen v fuel s) vs seen')) :
    Passed seen t (fillNextSlotSeen v (fuel + 1) s seen i) := by
  by_cases hmem : i ∈ seen
  · exact ⟨seen, by simp [fillNextSlotSeen, hc, hmem], fun j hj => Or.inl hj⟩
  · obtain ⟨seen', hr, hs⟩ := h (i :: seen)
    refine ⟨seen', by simp [fillNextSlotSeen, hc, hmem, ht, hu, hr], fun j hj => ?_⟩
    obtain hj | hj := hs j hj
    · obtain rfl | hj := List.mem_cons.1 hj
      · exact Or.inr hi
      · exact Or.inl hj
    · exact Or.inr hj

theorem Passed.mono {r : Option (List ℕ ⊕ Heap α)} (h : Passed seen x r)
    (hsub : ∀ i ∈ ids x, i ∈ ids t) : Passed seen t r := by
  obtain ⟨seen', hr, hs⟩ := h
  exact ⟨seen', hr, fun i hi => (hs i hi).imp_right (hsub i)⟩

/-- The walk of a complete tree finds no slot. -/
theorem passed_complete (h : Stores layout s t) (hc : Complete t) (hk : Kinded (erase t))
    (hl : Leaves IsAtom (erase t)) (hfuel : (ids t).length ≤ fuel) :
    ∀ i, rootId t = some i → Passed seen t (fillNextSlotSeen v fuel s seen i) := by
  induction t generalizing fuel seen with
  | hole | leaf => rintro i ⟨⟩
  | pre q x ih | suf q x ih | grp q x ih =>
    rintro _ ⟨⟩
    obtain ⟨fuel, rfl⟩ := Nat.exists_eq_succ_of_ne_zero (Nat.ne_zero_of_lt hfuel)
    refine passed_box h.1 ?_ (isUnfilled_slots (x := x) hc) List.mem_cons_self fun seen' => ?_
    · exact List.take_of_length_le (by simp [length_slots layout (x := x) hc, Op.terms, hk.1])
    · refine Passed.mono (passed_slots hl ?_) fun i hi => List.mem_cons_of_mem _ hi
      exact ih h.2 hc (by first | exact hk.2 | exact hk.2.2) hl (by simpa [ids] using hfuel)
  | inf q l r ihl ihr =>
    rintro _ ⟨⟩
    obtain ⟨fuel, rfl⟩ := Nat.exists_eq_succ_of_ne_zero (Nat.ne_zero_of_lt hfuel)
    simp only [ids, List.length_cons, List.length_append] at hfuel
    refine passed_box h.1 ?_ ?_ List.mem_cons_self fun seen' => ?_
    · exact List.take_of_length_le
        (by simp [length_slots layout hc.1, length_slots layout hc.2, Op.terms, hk.1])
    · simp [isUnfilled_slots hc.1, isUnfilled_slots hc.2]
    · have hl' : ∀ i, rootId l = some i → Passed seen' l (fillNextSlotSeen v fuel s seen' i) :=
        ihl h.2.1 hc.1 hk.2.1 hl.1 (by omega)
      obtain ⟨seen₁, hr₁, hs₁⟩ := passed_slots hl.1 hl'
      rw [fillSubs_append hr₁]
      have hr' : ∀ i, rootId r = some i → Passed seen₁ r (fillNextSlotSeen v fuel s seen₁ i) :=
        ihr h.2.2 hc.2 hk.2.2 hl.2 (by omega)
      obtain ⟨seen₂, hr₂, hs₂⟩ := passed_slots hl.2 hr'
      refine ⟨seen₂, hr₂, fun i hi => ?_⟩
      simp only [ids, List.mem_cons, List.mem_append]
      obtain hi | hi := hs₂ i hi
      · exact (hs₁ i hi).imp_right fun hi => Or.inr (Or.inl hi)
      · exact Or.inr (Or.inr (Or.inr hi))

/-- The walk of a tree with one operand due fills the slot of the node that waits for it. -/
theorem fillNextSlotSeen_open (h : Held layout s t) (ho : Open t) (hk : Kinded (erase t))
    (hl : Leaves IsAtom (erase t)) (hseen : ∀ i ∈ seen, i ∉ ids t)
    (hfuel : (ids t).length ≤ fuel) {i : ℕ} (hi : rootId t = some i) :
    ∃ d j, DueAt d j t ∧ fillNextSlotSeen v fuel s seen i =
      some (.inr (s.modify j fun b => { b with slots := fillFirst v b.slots })) := by
  -- The walk of the last operand of a node whose elements before it were passed.
  have last : ∀ {q : ℕ × Op} {l? : Option (Tree (ℕ × Op) (Val α))} {x : Tree (ℕ × Op) (Val α)}
      {fuel : ℕ} {seen : List ℕ}, Held layout s (spine q l? x) → FrontComplete l? → Open x →
      Kinded (erase (spine q l? x)) → Leaves IsAtom (erase x) → q.1 ∉ seen →
      Passed (q.1 :: seen) (spine q l? hole)
        (fillSubs (fillNextSlotSeen v fuel s) (layout.front l?) (q.1 :: seen)) →
      (∀ seen', (∀ i ∈ seen', i ∈ q.1 :: seen ∨ i ∈ ids (spine q l? (hole : Tree _ (Val α)))) →
        ∀ i, rootId x = some i → ∃ d j, DueAt d j x ∧ fillNextSlotSeen v fuel s seen' i =
          some (.inr (s.modify j fun b => { b with slots := fillFirst v b.slots }))) →
      ∃ d j, DueAt d j (spine q l? x) ∧ fillNextSlotSeen v (fuel + 1) s seen q.1 =
        some (.inr (s.modify j fun b => { b with slots := fillFirst v b.slots })) := by
    intro q l? x fuel seen h hf hx hk hlx hq hpass ih
    obtain ⟨hcell, -, -⟩ := stores_spine.1 h.stores
    obtain ⟨seen₁, hr₁, hs₁⟩ := hpass
    have htake := take_spine hf hk (by cases x <;> rfl)
    simp only [fillNextSlotSeen, hcell, layout_cell, if_neg hq, htake, fillSubs_append hr₁,
      fillSubs_slots hlx]
    cases hix : rootId x with
    | none =>
      obtain rfl := hole_of_open hx hix
      exact ⟨0, q.1, ⟨q, l?, rfl, hf, edgeKind_of_kinded hk, rfl⟩, by simp [Slot.isUnfilled]⟩
    | some i =>
      obtain ⟨d, j, ⟨q', l', hj, hf', hk', he⟩, hr⟩ := ih seen₁ hs₁ i hix
      refine ⟨d + 1, j, ⟨q', l', hj, hf', hk', (edgeAt_spine d).trans he⟩, ?_⟩
      simp [hr]
  induction t generalizing fuel seen i with
  | hole => cases hi
  | leaf | suf | grp => exact ho.elim
  | pre q x ih =>
    cases hi
    obtain ⟨fuel, rfl⟩ := Nat.exists_eq_succ_of_ne_zero (Nat.ne_zero_of_lt hfuel)
    have hx : Held layout s (spine q none x) := h
    have hq : q.1 ∉ seen := fun hq => hseen q.1 hq List.mem_cons_self
    refine last hx (by simp [FrontComplete]) ho hk hl hq ⟨_, rfl, fun i hi => Or.inl hi⟩
      fun seen' hs' i hi => ih hx.last ho hk.2 hl (fun j hj => ?_) (by simpa [ids] using hfuel) hi
    have hn := List.nodup_cons.1 h.nodup
    obtain hj | hj := hs' j hj
    · obtain rfl | hj := List.mem_cons.1 hj
      · exact hn.1
      · exact fun hjx => hseen j hj (List.mem_cons_of_mem _ hjx)
    · obtain rfl : j = q.1 := by simpa [spine, ids] using hj
      exact hn.1
  | inf q l r _ ih =>
    cases hi
    obtain ⟨fuel, rfl⟩ := Nat.exists_eq_succ_of_ne_zero (Nat.ne_zero_of_lt hfuel)
    simp only [ids, List.length_cons, List.length_append] at hfuel
    have hr : Held layout s (spine q (some l) r) := h
    have hq : q.1 ∉ seen := fun hq => hseen q.1 hq List.mem_cons_self
    have hn := h.nodup
    simp only [ids, List.nodup_cons, List.nodup_append, List.mem_append, not_or] at hn
    refine last hr (by simpa [FrontComplete] using ho.1) ho.2 hk hl.2 hq ?_
      fun seen' hs' i hi => ih hr.last ho.2 hk.2.2 hl.2 (fun j hj => ?_) (by omega) hi
    · refine Passed.mono (passed_slots hl.1 ?_) fun j hj => ?_
      · exact passed_complete h.stores.2.1 ho.1 hk.2.1 hl.1 (by omega)
      · simpa [spine, ids] using Or.inr hj
    · obtain hj | hj := hs' j hj
      · obtain rfl | hj := List.mem_cons.1 hj
        · exact hn.1.2
        · exact fun hjr => hseen j hj (by simp [ids, hjr])
      · have hj' : j = q.1 ∨ j ∈ ids l := by simpa [spine, ids] using hj
        obtain rfl | hjl := hj'
        · exact hn.1.2
        · exact fun hjr => hn.2.2.2 j hjl j hjr rfl

/-- The walk of complete operands side by side finds no slot. -/
theorem fillSubs_trees {ts : List (Tree (ℕ × Op) (Val α))} (hl : ∀ t ∈ ts, Leaves IsAtom (erase t))
    (h : ∀ t ∈ ts, ∀ seen i, rootId t = some i → Passed seen t (fill seen i)) :
    ∃ seen', fillSubs fill (ts.flatMap layout.slots) seen = some (.inl seen') := by
  induction ts generalizing seen with
  | nil => exact ⟨seen, rfl⟩
  | cons t ts ih =>
    obtain ⟨seen₁, hr₁, -⟩ := passed_slots (hl t List.mem_cons_self)
      (h t List.mem_cons_self seen)
    rw [List.flatMap_cons, fillSubs_append hr₁]
    apply ih
    · exact fun u hu => hl u (List.mem_cons_of_mem _ hu)
    · exact fun u hu => h u (List.mem_cons_of_mem _ hu)

theorem fillSubs_unfilled (n : ℕ) :
    fillSubs fill (List.replicate n Slot.unfilled) seen = some (.inl seen) := by
  induction n with
  | zero => rfl
  | succ n ih => exact ih

end Walk

/-- Filling the next slot of a tree with one operand due, in a heap that has new boxes for the operand
only, fills the tree. -/
theorem fillNextSlot_open (h : Held layout s t) (ext : ∀ i, s.cell i ≠ none → u.cell i = s.cell i)
    (ho : Open t) (hk : Kinded (erase t)) (hl : Leaves IsAtom (erase t))
    (hy : Held layout u y) (hv : layout.slots y = [v]) (hids : ∀ i ∈ ids y, s.cell i = none)
    {i : ℕ} (hi : rootId t = some i) :
    ∃ s', fillNextSlot u (.node i) v = some (s', true) ∧
      Rewrites layout s s' [] t (fill y t) := by
  have h' : Held layout u t := ⟨h.stores.congr fun i hi => ext i (h.cell_ne_none hi), h.nodup⟩
  have hseen : ∀ j ∈ ([] : List ℕ), j ∉ ids t := fun _ hj => absurd hj List.not_mem_nil
  obtain ⟨d, j, ⟨p, l?, rfl, hf, -, he⟩, hr⟩ := fillNextSlotSeen_open (v := v) h' ho hk hl hseen
    (Nat.le_succ_of_le h'.length_ids_le) hi
  have he' : Held layout s (spine p l? hole) := he ▸ h.edgeAt
  refine ⟨u.modify p.1 fun b => { b with slots := fillFirst v b.slots },
    by simp [fillNextSlot, hr], ?_⟩
  rw [fill_eq_onEdge he]
  refine Rewrites.onEdge h (onEdge_of_edgeAt he spine_ne_hole) (he ▸ ?_) (by simp)
  refine Rewrites.put he' ext hy (fun i hi => Or.inr (Or.inr (hids i hi))) (by simp) ?_
  simp [hv, fillFirst_append (isUnfilled_front hf), fillFirst]

/-- A box over complete operands takes the next one into its first unfilled slot. -/
theorem fillNextSlot_headed {ts : List (Tree (ℕ × Op) (Val α))} {o : Op} {i n : ℕ}
    (h : Headed layout s i o ts (List.replicate (n + 1) .unfilled)) (hc : ∀ t ∈ ts, Complete t)
    (hk : ∀ t ∈ ts, Kinded (erase t)) (hl : ∀ t ∈ ts, Leaves IsAtom (erase t))
    (hn : o.terms = ts.length + (n + 1)) (hx : Held layout s x) (hxc : Complete x)
    (hix : i ∉ ids x) :
    ∃ s', fillNextSlot s (.node i) (.val (handle x)) = some (s', true) ∧
      Headed layout s' i o (ts ++ [x]) (List.replicate n .unfilled) := by
  have hlen : (ts.flatMap layout.slots).length = ts.length := by
    rw [List.length_flatMap, List.map_congr_left fun t ht => length_slots layout (hc t ht)]
    simp
  have htake : (ts.flatMap layout.slots ++ List.replicate (n + 1) Slot.unfilled).take o.terms =
      ts.flatMap layout.slots ++ List.replicate (n + 1) .unfilled :=
    List.take_of_length_le (by simp [hlen, hn])
  have hfilled : (ts.flatMap layout.slots).any Slot.isUnfilled = false := by
    rw [List.any_flatMap, List.any_eq_false]
    intro t ht
    simp [isUnfilled_slots (hc t ht)]
  have hpassed : ∀ t ∈ ts, ∀ seen j, rootId t = some j →
      Passed seen t (fillNextSlotSeen (.val (handle x)) (s.last + 1) s seen j) :=
    fun t ht seen j hj => passed_complete (h.held t ht).stores (hc t ht) (hk t ht) (hl t ht)
      (h.held t ht).length_ids_le j hj
  obtain ⟨seen, hseen⟩ : ∃ seen', fillSubs (fillNextSlotSeen (.val (handle x)) (s.last + 1) s)
      (ts.flatMap layout.slots) [i] = some (.inl seen') := fillSubs_trees hl hpassed
  have hwalk : fillNextSlotSeen (.val (handle x)) (s.last + 1 + 1) s [] i = some (.inr
      (s.modify i fun b => { b with slots := fillFirst (.val (handle x)) b.slots })) := by
    rw [fillNextSlotSeen]
    simp only [h.cell, layout_cell, List.not_mem_nil, if_false, htake, fillSubs_append hseen,
      fillSubs_unfilled]
    simp [List.replicate_succ, Slot.isUnfilled]
  refine ⟨s.modify i fun b => { b with slots := fillFirst (.val (handle x)) b.slots },
    by simp [fillNextSlot, hwalk], h.put hx hix ?_⟩
  simp [fillFirst_append hfilled, List.replicate_succ, fillFirst, slots_of_complete hxc]

end TabnasExpr.Go
