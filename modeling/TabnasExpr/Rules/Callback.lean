import TabnasExpr.Rules.Machine
import TabnasExpr.Ts.Prattify

/-!
# What a callback leaves alone

A callback may make nodes, keep them, rewrite them and return them, and it may do so with the operands
of a call; the nodes of the rules it leaves alone (`Sparing`).  From one world to another that its calls
lead to, every node stays as it was that neither the callback nor `EVALUATED` has (`Grows`), so that a
tree on the nodes of the rules stands as it did (`Stands.grows`).
-/

namespace TabnasExpr.Rules

open OpTree OpTree.Tree Ts

universe u v

variable {σ : Type v} {α : Type u}

/-! ## Callbacks -/

/-- The callback returns a scalar and leaves all nodes alone. -/
def ScalarValued (evaluate : Evaluator σ α) : Prop :=
  ∀ op terms heap env, ∃ env' a, evaluate op terms heap env = (heap, env', .atom a)

/-- After a call the callback has the nodes it had, those among the operands, and those it made. -/
def Has (owns : σ → ℕ → Prop) (terms : List (Val α)) (heap : Heap α) (env : σ) (heap' : Heap α)
    (i : ℕ) : Prop :=
  owns env i ∨ .node i ∈ terms ∨ heap.cell i = none ∧ heap'.cell i ≠ none

/-- The callback rewrites and returns no nodes but its own and the operands, and drops none; `owns` is
about the nodes that are its own. -/
structure Sparing (evaluate : Evaluator σ α) (owns : σ → ℕ → Prop) : Prop where
  same : ∀ op terms heap env i, heap.cell i ≠ none → ¬ owns env i → .node i ∉ terms →
    (evaluate op terms heap env).1.cell i = heap.cell i
  keep : ∀ op terms heap env i, heap.cell i ≠ none → (evaluate op terms heap env).1.cell i ≠ none
  owned : ∀ op terms heap env i, owns (evaluate op terms heap env).2.1 i →
    Has owns terms heap env (evaluate op terms heap env).1 i
  result : ∀ op terms heap env i, (evaluate op terms heap env).2.2 = .node i →
    Has owns terms heap env (evaluate op terms heap env).1 i

theorem ScalarValued.sparing {evaluate : Evaluator σ α} (h : ScalarValued evaluate) :
    Sparing evaluate fun _ _ => False := by
  have hheap : ∀ op terms heap env, (evaluate op terms heap env).1 = heap := fun op terms heap env => by
    obtain ⟨env', a, he⟩ := h op terms heap env
    rw [he]
  refine ⟨fun op terms heap env i _ _ _ => by rw [hheap], fun op terms heap env i hi => by rwa [hheap],
    fun _ _ _ _ _ hi => hi.elim, fun op terms heap env i hi => ?_⟩
  obtain ⟨env', a, he⟩ := h op terms heap env
  rw [he] at hi
  cases hi

/-! ## Worlds -/

/-- A node that an evaluation has returned, or that the callback has. -/
def World.Given (w : World σ α) (owns : σ → ℕ → Prop) (i : ℕ) : Prop :=
  i ∈ w.evaluated ∨ owns w.env i

/-- What is returned, and what the callback has, is there. -/
def World.Marked (w : World σ α) (owns : σ → ℕ → Prop) : Prop :=
  ∀ i, w.Given owns i → w.heap.cell i ≠ none

/-- From one world to another no node changes but those that the callback or `EVALUATED` has, and these
have new nodes only. -/
structure Grows (owns : σ → ℕ → Prop) (w w' : World σ α) : Prop where
  marked : w'.Marked owns
  same : ∀ i, w.heap.cell i ≠ none → ¬ w.Given owns i → w'.heap.cell i = w.heap.cell i
  keep : ∀ i, w.heap.cell i ≠ none → w'.heap.cell i ≠ none
  given : ∀ i, w'.Given owns i → w.Given owns i ∨ w.heap.cell i = none
  evaluated : ∀ i ∈ w.evaluated, i ∈ w'.evaluated

/-- A value that is no node of the rules.  Where the callback is `scalar` it is a scalar. -/
def Fit (scalar : Prop) (w : World σ α) (v : Val α) : Prop :=
  (∀ i, v = .node i → i ∈ w.evaluated) ∧ (scalar → IsAtom v)

section Worlds

variable {owns : σ → ℕ → Prop} {scalar : Prop} {w w' w'' : World σ α} {v : Val α}
  {terms : List (Val α)} {E : Evaluator σ α}

theorem World.Marked.alloc (h : w.Marked owns) (c : Node α) :
    { w with heap := (w.heap.alloc c).1 }.Marked owns := fun i hi => by
  have hcell : (w.heap.alloc c).1.cell i = w.heap.cell i := Store.cell_alloc_of_ne_none (h i hi)
  exact hcell.symm ▸ h i hi

theorem fit_atom (a : α) : Fit scalar w (.atom a) :=
  ⟨fun _ hi => (by cases hi), fun _ => ⟨a, rfl⟩⟩

theorem Grows.refl (hm : w.Marked owns) : Grows owns w w :=
  ⟨hm, fun _ _ _ => rfl, fun _ => id, fun _ => Or.inl, fun _ => id⟩

theorem Grows.trans (h : Grows owns w w') (h' : Grows owns w' w'') : Grows owns w w'' := by
  have hgiven : ∀ i, w.heap.cell i ≠ none → ¬ w.Given owns i → ¬ w'.Given owns i :=
    fun i hi hn hg => (h.given i hg).elim hn hi
  refine ⟨h'.marked, fun i hi hn => ?_, fun i hi => h'.keep i (h.keep i hi), fun i hg => ?_,
    fun i hi => h'.evaluated i (h.evaluated i hi)⟩
  · rw [h'.same i (h.keep i hi) (hgiven i hi hn), h.same i hi hn]
  · rcases h'.given i hg with hg | hi
    · exact h.given i hg
    · exact Or.inr (not_not.1 fun hne => h.keep i hne hi)

theorem Fit.grows (h : Fit scalar w v) (hg : Grows owns w w') : Fit scalar w' v :=
  ⟨fun i hi => hg.evaluated i (h.1 i hi), h.2⟩

/-- What has been evaluated is fit for an operand, and no operand of a call is a node of the rules. -/
theorem Fit.given {i : ℕ} (ht : ∀ v ∈ terms, Fit scalar w v) (hi : .node i ∈ terms) :
    w.Given owns i :=
  Or.inl ((ht _ hi).1 i rfl)

/-- A node that is returned is in `EVALUATED` then. -/
theorem finish_eq (w : World σ α) (v : Val α) :
    ∃ l, (w.finish v).1 = { w with evaluated := l } ∧ ∀ i, i ∈ l ↔ i ∈ w.evaluated ∨ v = .node i := by
  cases v with
  | node i => exact ⟨i :: w.evaluated, rfl, by simp [eq_comm, or_comm]⟩
  | undefined | atom => exact ⟨w.evaluated, rfl, by simp⟩

/-- A call of the callback, whose value is remembered. -/
theorem grows_call (op : Op) (hE : Sparing E owns) (hs : scalar → ScalarValued E)
    (hm : w.Marked owns) (ht : ∀ v ∈ terms, Fit scalar w v) :
    Grows owns w ((w.call E op terms).1.finish (w.call E op terms).2).1 ∧
      Fit scalar ((w.call E op terms).1.finish (w.call E op terms).2).1 (w.call E op terms).2 := by
  have hsame := hE.same op terms w.heap w.env
  have hkeep := hE.keep op terms w.heap w.env
  have howned := hE.owned op terms w.heap w.env
  have hresult := hE.result op terms w.heap w.env
  have hscalar := fun h => hs h op terms w.heap w.env
  simp only [World.call]
  generalize E op terms w.heap w.env = r at hsame hkeep howned hresult hscalar ⊢
  obtain ⟨heap, env, v⟩ := r
  obtain ⟨l, hl, hmem⟩ := finish_eq
    { w with heap := heap, env := env, calls := w.calls ++ [⟨op, terms⟩] } v
  rw [hl]
  -- What the callback has after the call was given before, or is new.
  have hhas : ∀ i, Has owns terms w.heap w.env heap i → (w.Given owns i ∨ w.heap.cell i = none) ∧
      heap.cell i ≠ none := by
    rintro i (hi | hi | ⟨hi, hi'⟩)
    · exact ⟨Or.inl (Or.inr hi), hkeep i (hm i (Or.inr hi))⟩
    · have hg : w.Given owns i := Fit.given ht hi
      exact ⟨Or.inl hg, hkeep i (hm i hg)⟩
    · exact ⟨Or.inr hi, hi'⟩
  have hgiven : ∀ i, i ∈ l ∨ owns env i → (w.Given owns i ∨ w.heap.cell i = none) ∧
      heap.cell i ≠ none := by
    rintro i (hi | hi)
    · rcases (hmem i).1 hi with hi | hi
      · exact ⟨Or.inl (Or.inl hi), hkeep i (hm i (Or.inl hi))⟩
      · exact hhas i (hresult i hi)
    · exact hhas i (howned i hi)
  refine ⟨⟨fun i hi => (hgiven i hi).2, fun i hi hn => ?_, hkeep, fun i hi => (hgiven i hi).1,
    fun i hi => (hmem i).2 (Or.inl hi)⟩, fun i hi => (hmem i).2 (Or.inr hi), fun h => ?_⟩
  · exact hsame i hi (fun ho => hn (Or.inr ho)) fun hit => hn (Fit.given ht hit)
  · obtain ⟨env', a, he⟩ := hscalar h
    simp only [Prod.mk.injEq] at he
    exact ⟨a, he.2.2⟩

end Worlds

/-! ## Trees on the nodes of the rules -/

/-- A tree on nodes of the rules, over values that are no such nodes. -/
structure Stands (scalar : Prop) (owns : σ → ℕ → Prop) (w : World σ α)
    (t : Tree (ℕ × Op) (Val α)) : Prop where
  held : Held layout w.heap t
  clear : ∀ i ∈ ids t, ¬ w.Given owns i
  leaves : Leaves (Fit scalar w) (erase t)

/-- From one world to another no node changes but new ones and those of the callback, and all nodes of
the tree are new. -/
structure Since (owns : σ → ℕ → Prop) (w w' : World σ α) (t : Tree (ℕ × Op) (Val α)) : Prop
    extends Grows owns w w' where
  new : ∀ i ∈ ids t, w.heap.cell i = none

section Trees

variable {owns : σ → ℕ → Prop} {scalar : Prop} {w₀ w w' : World σ α} {heap : Heap α}
  {t t' y : Tree (ℕ × Op) (Val α)} {G : List ℕ} {d : ℕ}

theorem stands_leaf {v : Val α} (hv : Fit scalar w v) : Stands scalar owns w (leaf v) :=
  ⟨held_leaf v, fun _ hi => absurd hi List.not_mem_nil, hv⟩

theorem stands_hole : Stands scalar owns w (hole : Tree (ℕ × Op) (Val α)) :=
  ⟨held_hole, fun _ hi => absurd hi List.not_mem_nil, trivial⟩

theorem Stands.edgeAt (h : Stands scalar owns w t) : Stands scalar owns w (edgeAt d t) :=
  ⟨h.held.edgeAt, fun i hi => h.clear i (mem_ids_of_edgeAt hi), by
    rw [erase_edgeAt]
    exact leaves_edgeAt h.leaves⟩

/-- The callback leaves the tree as it is. -/
theorem Stands.grows (h : Stands scalar owns w t) (hg : Grows owns w w') : Stands scalar owns w' t := by
  refine ⟨⟨h.held.stores.congr fun i hi => ?_, h.held.nodup⟩, fun i hi hn => ?_, ?_⟩
  · exact hg.same i (h.held.cell_ne_none hi) (h.clear i hi)
  · exact (hg.given i hn).elim (h.clear i hi) (h.held.cell_ne_none hi)
  · exact h.leaves.mono fun v hv => hv.grows hg

/-- The tree is rewritten in place. -/
theorem Stands.rewrites (h : Stands scalar owns w t) (hm : w.Marked owns)
    (hrw : Rewrites layout w.heap heap G t t') (hG : ∀ i ∈ G, ¬ w.Given owns i)
    (hl : Leaves (Fit scalar w) (erase t')) : Stands scalar owns { w with heap := heap } t' := by
  refine ⟨hrw.held, fun i hi hn => ?_, hl⟩
  rcases hrw.new i hi with hi | hi | hi
  · exact h.clear i hi hn
  · exact hG i hi hn
  · exact hm i hn hi

/-- A new node takes the tree. -/
theorem Stands.alloc (h : Stands scalar owns w t) (hm : w.Marked owns) {c : Node α}
    (ht : Held layout (w.heap.alloc c).1 t') (hids : ∀ i ∈ ids t', i ∈ ids t ∨ i = w.heap.last + 1)
    (hl : Leaves (Fit scalar w) (erase t')) :
    Stands scalar owns { w with heap := (w.heap.alloc c).1 } t' := by
  refine ⟨ht, fun i hi hn => ?_, hl⟩
  rcases hids i hi with hi | rfl
  · exact h.clear i hi hn
  · exact hm _ hn w.heap.cell_next

theorem since_refl (hm : w.Marked owns) (ht : ids t = []) : Since owns w w t :=
  ⟨.refl hm, fun i hi => by simp [ht] at hi⟩

theorem Since.subset (h : Since owns w₀ w t) (hids : ∀ i ∈ ids t', i ∈ ids t) : Since owns w₀ w t' :=
  ⟨h.toGrows, fun i hi => h.new i (hids i hi)⟩

theorem Since.grows (h : Since owns w₀ w t) (hg : Grows owns w w') : Since owns w₀ w' t :=
  ⟨h.toGrows.trans hg, h.new⟩

theorem Since.alloc (h : Since owns w₀ w t) (c : Node α)
    (hids : ∀ i ∈ ids t', i ∈ ids t ∨ i = w.heap.last + 1) :
    Since owns w₀ { w with heap := (w.heap.alloc c).1 } t' := by
  have hcell : ∀ i, w.heap.cell i ≠ none → (w.heap.alloc c).1.cell i = w.heap.cell i :=
    fun i hi => Store.cell_alloc_of_ne_none hi
  refine ⟨⟨h.marked.alloc c, fun i hi hn => ?_, fun i hi => ?_, h.given, h.evaluated⟩, fun i hi => ?_⟩
  · exact (hcell i (h.keep i hi)).trans (h.same i hi hn)
  · exact (hcell i (h.keep i hi)).symm ▸ h.keep i hi
  · rcases hids i hi with hi | rfl
    · exact h.new i hi
    · by_contra hne
      exact h.keep _ hne w.heap.cell_next

theorem Since.rewrites (h : Since owns w₀ w t) (hrw : Rewrites layout w.heap heap [] t t') :
    Since owns w₀ { w with heap := heap } t' := by
  refine ⟨⟨fun i hi => hrw.keep i (h.marked i hi), fun i hi hn => ?_, fun i hi => hrw.keep i (h.keep i hi),
    h.given, h.evaluated⟩, fun i hi => ?_⟩
  · have hit : i ∉ ids t := fun hit => hi (h.new i hit)
    rw [hrw.frame i hit List.not_mem_nil (h.keep i hi), h.same i hi hn]
  · rcases hrw.new i hi with hi | hi | hi
    · exact h.new i hi
    · cases hi
    · by_contra hne
      exact h.keep i hne hi

/-- A tree built after goes into a tree built before. -/
theorem Since.takes (h : Since owns w₀ w t) (h' : Since owns w w' y)
    (hrw : Rewrites layout w'.heap heap (ids y) t t') : Since owns w₀ { w' with heap := heap } t' := by
  have hg := h.toGrows.trans h'.toGrows
  have hout : ∀ i, w.heap.cell i = none → w₀.heap.cell i = none := fun i hi => by
    by_contra hne
    exact h.keep i hne hi
  refine ⟨⟨fun i hi => hrw.keep i (hg.marked i hi), fun i hi hn => ?_,
    fun i hi => hrw.keep i (hg.keep i hi), hg.given, hg.evaluated⟩, fun i hi => ?_⟩
  · have hit : i ∉ ids t := fun hit => hi (h.new i hit)
    have hiy : i ∉ ids y := fun hiy => h.keep i hi (h'.new i hiy)
    rw [hrw.frame i hit hiy (hg.keep i hi), hg.same i hi hn]
  · rcases hrw.new i hi with hi | hi | hi
    · exact h.new i hi
    · exact hout i (h'.new i hi)
    · by_contra hne
      exact hg.keep i hne hi

end Trees

end TabnasExpr.Rules
