import Mathlib.Data.List.Nodup

/-!
# Maps that keep the order of their keys

A map in the order of insertion is a list of keys with their values.  A key that is there keeps its
place when a value is set under it, and a new one comes last.
-/

namespace Assoc

variable {κ β : Type*} [DecidableEq κ]

/-- A value under a key, in the place of the one that is there. -/
def set (m : List (κ × β)) (k : κ) (v : β) : List (κ × β) :=
  if k ∈ m.map Prod.fst then m.map fun e => if e.1 = k then (k, v) else e else m ++ [(k, v)]

/-- A key with its value is taken out. -/
def remove (m : List (κ × β)) (k : κ) : List (κ × β) := m.filter fun e => e.1 ≠ k

/-- Values set under keys one after another. -/
def setAll (m : List (κ × β)) (es : List (κ × β)) : List (κ × β) := es.foldl (fun m e => set m e.1 e.2) m

/-- The last value under a key. -/
def last (es : List (κ × β)) (k : κ) : Option β := (es.reverse.find? fun e => e.1 = k).map Prod.snd

variable {m es : List (κ × β)} {k k' : κ} {v : β} {e : κ × β}

theorem set_of_not_mem (h : k ∉ m.map Prod.fst) : set m k v = m ++ [(k, v)] := if_neg h

theorem keys_set : (set m k v).map Prod.fst =
    if k ∈ m.map Prod.fst then m.map Prod.fst else m.map Prod.fst ++ [k] := by
  unfold set
  split_ifs with hk
  · rw [List.map_map]
    refine List.map_congr_left fun e _ => ?_
    by_cases he : e.1 = k <;> simp [he]
  · simp

theorem mem_keys_set : k' ∈ (set m k v).map Prod.fst ↔ k' ∈ m.map Prod.fst ∨ k' = k := by
  rw [keys_set]
  split_ifs with hk
  · exact ⟨.inl, fun h => h.elim id fun h => h ▸ hk⟩
  · simp

theorem nodup_keys_set (h : (m.map Prod.fst).Nodup) : ((set m k v).map Prod.fst).Nodup := by
  rw [keys_set]
  split_ifs with hk
  · exact h
  · exact List.nodup_append.2 ⟨h, List.nodup_singleton k, fun x hx y hy => fun hxy =>
      hk (List.mem_singleton.1 hy ▸ hxy ▸ hx)⟩

theorem nodup_keys_setAll (h : (m.map Prod.fst).Nodup) : ((setAll m es).map Prod.fst).Nodup := by
  induction es generalizing m with
  | nil => exact h
  | cons e es ih => exact ih (nodup_keys_set h)

theorem mem_set (he : e ∈ set m k v) : e ∈ m ∨ e = (k, v) := by
  unfold set at he
  split_ifs at he with hk
  · obtain ⟨x, hx, rfl⟩ := List.mem_map.1 he
    by_cases hxk : x.1 = k
    · exact .inr (if_pos hxk)
    · exact .inl (by rwa [if_neg hxk])
  · simpa using he

/-! ## Removal -/

/-- A key that is taken out and set again comes last. -/
theorem set_remove : set (remove m k) k v = remove m k ++ [(k, v)] :=
  set_of_not_mem fun h => by
    obtain ⟨e, he, rfl⟩ := List.mem_map.1 h
    simp [remove] at he

/-- Keys taken out and set again, one after another, come last in their order. -/
theorem foldl_set_remove (h : (es.map Prod.fst).Nodup) :
    es.foldl (fun m e => set (remove m e.1) e.1 e.2) m =
      (m.filter fun e => e.1 ∉ es.map Prod.fst) ++ es := by
  induction es generalizing m with
  | nil => simp
  | cons e es ih =>
    obtain ⟨he, hes⟩ := List.nodup_cons.1 h
    rw [List.foldl_cons, ih hes, set_remove, List.filter_append, remove, List.filter_filter]
    have hkept : [(e.1, e.2)].filter (fun x => x.1 ∉ es.map Prod.fst) = [e] :=
      List.filter_cons_of_pos (by simpa using he)
    rw [hkept, List.append_assoc, List.singleton_append]
    congr 1
    refine List.filter_congr fun x _ => ?_
    simp only [List.map_cons, List.mem_cons, not_or]
    by_cases hx : x.1 = e.1 <;> simp [hx]

/-! ## Lookup -/

@[simp] theorem last_nil : last ([] : List (κ × β)) k = none := rfl

theorem last_append (es es' : List (κ × β)) : last (es ++ es') k = (last es' k).or (last es k) := by
  unfold last
  rw [List.reverse_append, List.find?_append]
  cases es'.reverse.find? fun e => e.1 = k <;> rfl

theorem last_singleton : last [e] k = if e.1 = k then some e.2 else none := by
  by_cases h : e.1 = k <;> simp [last, h]

theorem last_cons : last (e :: es) k = (last es k).or (if e.1 = k then some e.2 else none) := by
  rw [← List.singleton_append, last_append, last_singleton]

theorem mem_of_last (h : last es k = some v) : (k, v) ∈ es := by
  obtain ⟨e, he, rfl⟩ := Option.map_eq_some_iff.1 h
  have hk := List.find?_some he
  rw [← of_decide_eq_true hk]
  exact List.mem_reverse.1 (List.mem_of_find?_eq_some he)

theorem last_eq_none : last es k = none ↔ k ∉ es.map Prod.fst := by
  rw [last, Option.map_eq_none_iff, List.find?_eq_none]
  simp only [List.mem_reverse, decide_eq_true_eq, List.mem_map, not_exists, not_and]

theorem last_of_nodup (h : (es.map Prod.fst).Nodup) (hm : (k, v) ∈ es) : last es k = some v := by
  cases hl : last es k with
  | none => exact absurd (List.mem_map_of_mem hm) (last_eq_none.1 hl)
  | some w => exact congrArg (fun e => some e.2) (List.inj_on_of_nodup_map h (mem_of_last hl) hm rfl)

theorem last_replace : last (m.map fun e => if e.1 = k then (k, v) else e) k' =
    if k' = k then (last m k').map fun _ => v else last m k' := by
  induction m with
  | nil => simp
  | cons e m ih =>
    rw [List.map_cons, last_cons, ih, last_cons]
    by_cases hk : e.1 = k
    · rw [if_pos hk]
      by_cases hk' : k' = k
      · rw [if_pos hk', if_pos hk', hk, if_pos hk'.symm]
        cases last m k' <;> simp [hk']
      · rw [if_neg hk', if_neg hk', hk, if_neg (Ne.symm hk'), if_neg (Ne.symm hk')]
    · rw [if_neg hk]
      by_cases hk' : k' = k
      · rw [if_pos hk', if_pos hk', if_neg fun h => hk (h.trans hk')]
        simp
      · rw [if_neg hk', if_neg hk']

/-- What is set under a key is found there, and nothing else changes. -/
theorem last_set : last (set m k v) k' = if k' = k then some v else last m k' := by
  unfold set
  split_ifs with hmem hk hk
  · subst hk
    rw [last_replace, if_pos rfl]
    cases hl : last m k' with
    | none => exact absurd hmem (last_eq_none.1 hl)
    | some w => rfl
  · rw [last_replace, if_neg hk]
  · rw [last_append, last_singleton, if_pos hk.symm]
    rfl
  · rw [last_append, last_singleton, if_neg fun h => hk h.symm]
    rfl

/-- The last value set under a key is found there. -/
theorem last_setAll : last (setAll m es) k = (last es k).or (last m k) := by
  induction es generalizing m with
  | nil => rfl
  | cons e es ih =>
    rw [setAll, List.foldl_cons, ← setAll, ih, last_set, last_cons]
    by_cases hk : k = e.1
    · rw [if_pos hk, if_pos hk.symm]
      cases last es k <;> rfl
    · rw [if_neg hk, if_neg fun h => hk h.symm]
      cases last es k <;> rfl

theorem last_setAll_nil : last (setAll [] es) k = last es k := by
  rw [last_setAll, last_nil, Option.or_none]

theorem mem_setAll_nil : (k, v) ∈ setAll [] es ↔ last es k = some v := by
  have hnodup : ((setAll [] es).map Prod.fst).Nodup := nodup_keys_setAll List.nodup_nil
  rw [← last_setAll_nil]
  exact ⟨last_of_nodup hnodup, mem_of_last⟩

theorem set_cons_of_ne (h : e.1 ≠ k) : set (e :: m) k v = e :: set m k v := by
  have hkeys : k ∈ (e :: m).map Prod.fst ↔ k ∈ m.map Prod.fst :=
    List.mem_cons.trans (or_iff_right (Ne.symm h))
  unfold set
  by_cases hk : k ∈ m.map Prod.fst
  · rw [if_pos hk, if_pos (hkeys.2 hk), List.map_cons, if_neg h]
  · rw [if_neg hk, if_neg fun hc => hk (hkeys.1 hc), List.cons_append]

/-- What stands first keeps its place, where nothing is set under its key. -/
theorem setAll_cons (h : e.1 ∉ es.map Prod.fst) : setAll (e :: m) es = e :: setAll m es := by
  induction es generalizing m with
  | nil => rfl
  | cons x es ih =>
    rw [List.map_cons, List.mem_cons, not_or] at h
    obtain ⟨hx, hes⟩ := h
    rw [setAll, List.foldl_cons, set_cons_of_ne hx, ← setAll, ih hes]
    rfl

end Assoc
