import TabnasExpr.Lib.Stored

/-!
# A cell over several stored trees

An operator of many operands is filled one operand at a time, each an expression built on its own.
`Headed L s i o ts ds` says that the cell `i` is an operator's, that its first operands are the trees
`ts`, and that `ds` stands for the operands still to come.
-/

namespace OpTree

open OpTree.Tree

variable {ω α V C : Type*}

/-- The cell of an operator over trees that do not use it. -/
structure Headed (L : Layout ω α V C) (s : Store C) (i : ℕ) (o : ω)
    (ts : List (Tree (ℕ × ω) α)) (ds : List V) : Prop where
  cell : s.cell i = some (L.cell o (ts.flatMap L.slots ++ ds))
  held : ∀ t ∈ ts, Held L s t
  out : ∀ t ∈ ts, i ∉ ids t

section Headed

variable {L : Layout ω α V C} {s s' : Store C} {i : ℕ} {o : ω} {t u : Tree (ℕ × ω) α}
  {ts : List (Tree (ℕ × ω) α)} {ds ds' : List V} {c : C} {f : C → C}

/-- A node rewritten into an operator over its copy. -/
theorem Headed.wrap (h : Held L s t) (hi : rootId t = some i) (hc : s.cell i = some c)
    (hf : f c = L.cell o (L.ref (s.last + 1) :: ds)) :
    Headed L ((s.alloc c).1.modify i f) i o [moveRoot (s.last + 1) t] ds := by
  obtain ⟨hm, hni, -⟩ := h.moveRoot (f := f) hi hc
  refine ⟨?_, by simpa using hm, by simpa using hni⟩
  rw [Store.cell_modify_self, Store.cell_alloc_of_some hc, Option.map_some, hf]
  simp [slots_moveRoot hi]

/-- A new cell over a tree. -/
theorem Headed.alloc (h : Held L s t) :
    Headed L (s.alloc (L.cell o (L.slots t ++ ds))).1 (s.last + 1) o [t] ds := by
  refine ⟨by simp, ?_, ?_⟩
  · intro u hu
    obtain rfl := List.mem_singleton.1 hu
    refine ⟨h.stores.congr fun j hj => ?_, h.nodup⟩
    exact Store.cell_alloc_of_ne_none (h.cell_ne_none hj)
  · intro u hu hmem
    obtain rfl := List.mem_singleton.1 hu
    exact h.cell_ne_none hmem s.cell_next

/-- Cells made elsewhere change nothing. -/
theorem Headed.mono (h : Headed L s i o ts ds)
    (hs : ∀ j, s.cell j ≠ none → s'.cell j = s.cell j) : Headed L s' i o ts ds := by
  refine ⟨?_, fun t ht => ?_, h.out⟩
  · rw [hs i (by simp [h.cell]), h.cell]
  · exact ⟨(h.held t ht).stores.congr fun j hj => hs j ((h.held t ht).cell_ne_none hj),
      (h.held t ht).nodup⟩

/-- The next operand. -/
theorem Headed.put (h : Headed L s i o ts ds) (hu : Held L s u) (hiu : i ∉ ids u)
    (hf : f (L.cell o (ts.flatMap L.slots ++ ds)) =
      L.cell o (ts.flatMap L.slots ++ (L.slots u ++ ds'))) :
    Headed L (s.modify i f) i o (ts ++ [u]) ds' := by
  have keep : ∀ t, Held L s t → i ∉ ids t → Held L (s.modify i f) t := fun t ht hit =>
    ⟨ht.stores.congr fun j hj => Store.cell_modify_of_ne f (ne_of_mem_of_not_mem hj hit), ht.nodup⟩
  refine ⟨?_, fun t ht => ?_, fun t ht => ?_⟩
  · rw [Store.cell_modify_self, h.cell, Option.map_some, hf]
    simp
  · rcases List.mem_append.1 ht with ht | ht
    · exact keep t (h.held t ht) (h.out t ht)
    · obtain rfl := List.mem_singleton.1 ht
      exact keep t hu hiu
  · rcases List.mem_append.1 ht with ht | ht
    · exact h.out t ht
    · obtain rfl := List.mem_singleton.1 ht
      exact hiu

end Headed

end OpTree
