import TabnasExpr.Render.RoundTrip

/-!
# One text for one meaning

The text the render writes tells two trees apart exactly when they differ in more than in how the
operators that lead their lists are described (`exprRender_eq_iff`).  So a tree that is read back, and
written again, is written as it was (`exprRender_norm`).
-/

namespace TabnasExpr.Render

universe u

variable {ν : Type u}

namespace Json

theorem normAll_eq_map (xs : List (Json ν)) : normAll xs = xs.map norm := by
  induction xs with
  | nil => rfl
  | cons x xs ih => rw [normAll, ih, List.map_cons]

theorem normMembers_eq_map (ms : List (String × Json ν)) :
    normMembers ms = ms.map fun m => (m.1, m.2.norm) := by
  induction ms with
  | nil => rfl
  | cons m ms ih => rw [normMembers, ih, List.map_cons]

/-- A tree is known by its value. -/
theorem value_injective {t t' : Json ν} (h : t.value = t'.value) : t = t' := by
  induction t using Json.induction generalizing t' with
  | scalar v =>
    cases t' with
    | scalar v' => simpa [value] using h
    | list | obj => simp [value] at h
  | list xs ih =>
    cases t' with
    | list xs' =>
      congr 1
      simp only [value, Value.list.injEq] at h
      induction xs generalizing xs' with
      | nil =>
        cases xs' with
        | nil => rfl
        | cons x' xs' => cases h
      | cons x xs ihxs =>
        cases xs' with
        | nil => cases h
        | cons x' xs' =>
          rw [List.forall_mem_cons] at ih
          obtain ⟨hx, hxs⟩ := List.cons.inj h
          rw [ih.1 hx, ihxs ih.2 xs' hxs]
    | scalar | obj => simp [value] at h
  | obj ms ih =>
    cases t' with
    | obj ms' =>
      congr 1
      simp only [value, Value.map.injEq] at h
      induction ms generalizing ms' with
      | nil =>
        cases ms' with
        | nil => rfl
        | cons m' ms' => cases h
      | cons m ms ihms =>
        cases ms' with
        | nil => cases h
        | cons m' ms' =>
          obtain ⟨k, x⟩ := m
          obtain ⟨k', x'⟩ := m'
          rw [List.forall_mem_cons] at ih
          obtain ⟨hm, hms⟩ := List.cons.inj h
          obtain ⟨rfl, hx⟩ := Prod.mk.inj hm
          have heq : x = x' := ih.1 hx
          rw [heq, ihms ih.2 ms' hms]
    | scalar | list => simp [value] at h

variable [Zero ν] [DecidableEq ν]

theorem parts_normMembers {ms : List (String × Json ν)} (h : ∀ m ∈ ms, m.2.norm.item = m.2.item) :
    parts (normMembers ms) = parts ms := by
  induction ms with
  | nil => rfl
  | cons m ms ih =>
    rw [List.forall_mem_cons] at h
    rw [normMembers, parts, parts, h.1, ih h.2]

/-- A tree is written as what it is read back as. -/
theorem item_norm {t : Json ν} (ht : t.Proper) (hr : ¬ t.Refused) : t.norm.item = t.item := by
  induction t using Json.induction with
  | scalar v => rfl
  | list xs ih =>
    cases xs with
    | nil => rfl
    | cons x xs =>
      rw [Refused, refusedAll_iff, not_or] at hr
      have hproper := properAll_iff.1 ht
      have hitem : ∀ y ∈ x :: xs, y.norm.item = y.item := fun y hy =>
        ih y hy (hproper y hy) fun hyr => hr.2 ⟨y, hy, hyr⟩
      rw [List.forall_mem_cons] at hitem
      have htail : items (normAll xs) = items xs := by
        rw [normAll_eq_map, items_eq_map, items_eq_map, List.map_map]
        exact List.map_congr_left hitem.2
      -- The head is written as its operator's source text, or as it is.
      have hhead : exprLead [] x.normHead.item = exprLead [] x.item := by
        obtain ⟨v, hv⟩ := exists_restored .rust x (hproper x List.mem_cons_self) fun hxr =>
          hr.2 ⟨x, List.mem_cons_self, hxr⟩
        cases ho : x.item.head with
        | none =>
          have hplain := hv.plain (fun hf => hr.1 ⟨x, rfl, hf⟩) ho
          rw [hplain.2, hitem.1]
        | some o =>
          have hop : exprOp (.str o.text : Scalar ν) = some o := Source.ofText_eq_some_iff.2 rfl
          rw [hv.op o ho]
          simp [exprLead, ho, item, exprScalarItem, Item.atom, hop]
      rw [norm, normList_cons, item, item, items, items, leadItems, leadItems, hhead, htail]
  | obj ms ih =>
    rw [Refused, refusedMembers_iff] at hr
    rw [norm, item, item, parts_normMembers fun m hm =>
      ih m hm (properMembers_iff.1 ht.2 m hm) fun hmr => hr ⟨m, hm, hmr⟩]

/-- What a tree is read back as is written too. -/
theorem not_refused_norm {t : Json ν} (ht : t.Proper) (hr : ¬ t.Refused) : ¬ t.norm.Refused := by
  induction t using Json.induction with
  | scalar v => exact hr
  | list xs ih =>
    cases xs with
    | nil => exact hr
    | cons x xs =>
      rw [Refused, refusedAll_iff, not_or] at hr
      have hproper := properAll_iff.1 ht
      have hnorm : ∀ y ∈ x :: xs, ¬ y.norm.Refused := fun y hy =>
        ih y hy (hproper y hy) fun hyr => hr.2 ⟨y, hy, hyr⟩
      rw [List.forall_mem_cons] at hnorm
      have hhead : ¬ x.normHead.Foreign ∧ ¬ x.normHead.Refused := by
        unfold normHead
        cases describes x with
        | some o => exact ⟨id, id⟩
        | none =>
          refine ⟨?_, hnorm.1⟩
          cases x with
          | scalar v | list ys => exact id
          | obj ms =>
            have hmr := fun hxr => hr.2 ⟨_, List.mem_cons_self, hxr⟩
            rw [Refused, refusedMembers_iff] at hmr
            have hparts : parts (normMembers ms) = parts ms := parts_normMembers fun m hm =>
              item_norm (properMembers_iff.1 (hproper _ List.mem_cons_self).2 m hm) fun h => hmr ⟨m, hm, h⟩
            rw [norm, Foreign, hparts]
            exact fun hf => hr.1 ⟨_, rfl, hf⟩
      rw [norm, normList_cons, Refused, refusedAll_iff, normAll_eq_map]
      rintro (⟨y, hy, hf⟩ | ⟨y, hy, hyr⟩)
      · cases hy
        exact hhead.1 hf
      · rcases List.mem_cons.1 hy with rfl | hy
        · exact hhead.2 hyr
        · obtain ⟨z, hz, rfl⟩ := List.mem_map.1 hy
          exact hnorm.2 z hz hyr
  | obj ms ih =>
    rw [Refused, refusedMembers_iff] at hr
    rw [norm, Refused, refusedMembers_iff, normMembers_eq_map]
    rintro ⟨_, hmem, hmr⟩
    obtain ⟨m, hm, rfl⟩ := List.mem_map.1 hmem
    exact ih m hm (properMembers_iff.1 ht.2 m hm) (fun h => hr ⟨m, hm, h⟩) hmr

end Json

variable [Zero ν] [DecidableEq ν] {t t' : Json ν}

/-- What a tree is read back as is written as the tree is. -/
theorem exprRender_norm (ht : t.Proper) (hr : ¬ t.Refused) :
    exprRender t.norm.events = exprRender t.events := by
  rw [exprRender_events (Json.not_refused_norm ht hr), exprRender_events hr, Json.item_norm ht hr]

/-- Two trees are written alike exactly when they are the same but for how the operators that lead
their lists are described. -/
theorem exprRender_eq_iff (ht : t.Proper) (hr : ¬ t.Refused) (ht' : t'.Proper) (hr' : ¬ t'.Refused) :
    exprRender t.events = exprRender t'.events ↔ t.norm = t'.norm := by
  constructor
  · intro h
    rw [exprRender_events hr, exprRender_events hr'] at h
    have htext := Except.ok.inj h
    obtain ⟨v, hv⟩ := exists_restored .rust t ht hr
    obtain ⟨v', hv'⟩ := exists_restored .rust t' ht' hr'
    have hread := hv.hasValue.readsValue.read
    rw [htext, hv'.hasValue.readsValue.read] at hread
    obtain rfl := Option.some.inj hread
    exact Json.value_injective (hv.simplify.symm.trans hv'.simplify)
  · intro h
    rw [← exprRender_norm ht hr, h, exprRender_norm ht' hr']

/-- A sum whose operator is described by an object, and the same sum with the operator's text. -/
theorem exprRender_eq_iff_described :
    let t : Json ℕ := .list [.obj [("src", .scalar (.str "+"))], .scalar (.num (.finite false 1)),
      .scalar (.num (.finite false 2))]
    let t' : Json ℕ := .list [.scalar (.str "+"), .scalar (.num (.finite false 1)),
      .scalar (.num (.finite false 2))]
    t ≠ t' ∧ (exprRender t.events = exprRender t'.events ↔ t.norm = t'.norm) := by
  refine ⟨by simp, exprRender_eq_iff ?_ ?_ ?_ ?_⟩
  · simp [Json.Proper, Json.ProperAll, Json.ProperMembers]
  · rintro (⟨x, hx, hf⟩ | hf)
    · cases hx
      obtain ⟨src, hf⟩ := hf
      cases hf
    · simp [Json.RefusedAll, Json.Refused, Json.RefusedMembers] at hf
  · simp [Json.Proper, Json.ProperAll]
  · simp [Json.Refused, Json.Foreign, Json.RefusedAll]

end TabnasExpr.Render
