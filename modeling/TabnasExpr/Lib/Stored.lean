import Mathlib.Data.List.Range
import Mathlib.Data.List.Perm.Subperm
import Mathlib.Data.List.Nodup
import TabnasExpr.Lib.OpTree
import TabnasExpr.Lib.Store

/-!
# Operator trees stored in numbered cells

A parser that rewrites its nodes in place keeps a tree in the cells of a `Store`, one node a cell.
`Held L s t` says that the store `s` holds the tree `t`, whose operators carry the numbers of their
cells, in the layout `L`; no cell is used twice.  `Rewrites L s s' G t t'` says that going from `s`
to `s'` turned `t` into `t'` in place: the handle of the tree is the one it had, its new cells are
fresh or among the cells `G` handed in, and every other cell is as it was.
-/

namespace OpTree

open OpTree.Tree

variable {ω α V C : Type*}

/-- How trees are laid out: a reference to a cell, an operand, what stands where an operand is due,
and the cell of an operator with its operands. -/
structure Layout (ω α V C : Type*) where
  ref : ℕ → V
  atom : α → V
  due : List V
  cell : ω → List V → C

namespace Tree

/-- The tree without the numbers of its cells. -/
def erase : Tree (ℕ × ω) α → Tree ω α
  | hole => hole
  | leaf a => leaf a
  | pre p x => pre p.2 (erase x)
  | suf p x => suf p.2 (erase x)
  | inf p l r => inf p.2 (erase l) (erase r)
  | grp p x => grp p.2 (erase x)

/-- The cells of a tree. -/
def ids : Tree (ℕ × ω) α → List ℕ
  | hole => []
  | leaf _ => []
  | pre p x => p.1 :: ids x
  | suf p x => p.1 :: ids x
  | inf p l r => p.1 :: (ids l ++ ids r)
  | grp p x => p.1 :: ids x

/-- The cell of the root. -/
def rootId : Tree (ℕ × ω) α → Option ℕ
  | hole => none
  | leaf _ => none
  | pre p _ => some p.1
  | suf p _ => some p.1
  | inf p _ _ => some p.1
  | grp p _ => some p.1

/-- The same tree with its root in another cell. -/
def moveRoot (n : ℕ) : Tree (ℕ × ω) α → Tree (ℕ × ω) α
  | hole => hole
  | leaf a => leaf a
  | pre p x => pre (n, p.2) x
  | suf p x => suf (n, p.2) x
  | inf p l r => inf (n, p.2) l r
  | grp p x => grp (n, p.2) x

/-- A node of the right edge: an operator, the operand before it if it has one, and its last one. -/
def spine (p : ℕ × ω) : Option (Tree (ℕ × ω) α) → Tree (ℕ × ω) α → Tree (ℕ × ω) α
  | none, x => pre p x
  | some l, x => inf p l x

section Erase

variable {d : ℕ} {t : Tree (ℕ × ω) α}

@[simp] theorem complete_erase : Complete (erase t) ↔ Complete t := by
  induction t with
  | hole | leaf => rfl
  | pre p x ih | suf p x ih | grp p x ih => exact ih
  | inf p l r ihl ihr => exact and_congr ihl ihr

@[simp] theorem open_erase : Open (erase t) ↔ Open t := by
  induction t with
  | hole | leaf | suf | grp => rfl
  | pre p x ih => exact ih
  | inf p l r _ ih => exact and_congr complete_erase ih

theorem erase_fill (y : Tree (ℕ × ω) α) : erase (fill y t) = fill (erase y) (erase t) := by
  induction t with
  | hole | leaf | suf | grp => rfl
  | pre p x ih => exact congrArg (pre p.2) ih
  | inf p l r _ ih => exact congrArg (inf p.2 (erase l)) ih

@[simp] theorem onEdge_erase : OnEdge d (erase t) ↔ OnEdge d t := by
  induction d generalizing t with
  | zero => rfl
  | succ d ih =>
    cases t with
    | pre p x => exact ih
    | inf p l r => exact ih
    | hole | leaf | suf | grp => rfl

theorem erase_edgeAt : erase (edgeAt d t) = edgeAt d (erase t) := by
  induction d generalizing t with
  | zero => rfl
  | succ d ih =>
    cases t with
    | pre p x => exact ih
    | inf p l r => exact ih
    | hole | leaf | suf | grp => rfl

theorem erase_onEdge {f : Tree (ℕ × ω) α → Tree (ℕ × ω) α} {g : Tree ω α → Tree ω α}
    (h : erase (f (edgeAt d t)) = g (edgeAt d (erase t))) :
    erase (onEdge f d t) = onEdge g d (erase t) := by
  induction d generalizing t with
  | zero => exact h
  | succ d ih =>
    cases t with
    | pre p x => exact congrArg (pre p.2) (ih h)
    | inf p l r => exact congrArg (inf p.2 (erase l)) (ih h)
    | hole | leaf | suf | grp => rfl

@[simp] theorem erase_moveRoot (n : ℕ) : erase (moveRoot n t) = erase t := by
  cases t <;> rfl

end Erase

end Tree

section Held

variable (L : Layout ω α V C)

/-- What a tree contributes to the node it is an operand of. -/
def Layout.slots : Tree (ℕ × ω) α → List V
  | hole => L.due
  | leaf a => [L.atom a]
  | pre p _ => [L.ref p.1]
  | suf p _ => [L.ref p.1]
  | inf p _ _ => [L.ref p.1]
  | grp p _ => [L.ref p.1]

/-- Every operator of the tree stands in its cell, with its operands. -/
def Stores (s : Store C) : Tree (ℕ × ω) α → Prop
  | hole => True
  | leaf _ => True
  | pre p x => s.cell p.1 = some (L.cell p.2 (L.slots x)) ∧ Stores s x
  | suf p x => s.cell p.1 = some (L.cell p.2 (L.slots x)) ∧ Stores s x
  | inf p l r => s.cell p.1 = some (L.cell p.2 (L.slots l ++ L.slots r)) ∧ Stores s l ∧ Stores s r
  | grp p x => s.cell p.1 = some (L.cell p.2 (L.slots x)) ∧ Stores s x

/-- The store holds the tree, no cell twice. -/
structure Held (s : Store C) (t : Tree (ℕ × ω) α) : Prop where
  stores : Stores L s t
  nodup : (ids t).Nodup

/-- Going from `s` to `s'` rewrote `t` into `t'` in place, taking in the cells `G`. -/
structure Rewrites (s s' : Store C) (G : List ℕ) (t t' : Tree (ℕ × ω) α) : Prop where
  held : Held L s' t'
  slots : L.slots t' = L.slots t
  root : rootId t' = rootId t
  new : ∀ i ∈ ids t', i ∈ ids t ∨ i ∈ G ∨ s.cell i = none
  frame : ∀ i, i ∉ ids t → i ∉ G → s.cell i ≠ none → s'.cell i = s.cell i
  keep : ∀ i, s.cell i ≠ none → s'.cell i ≠ none

variable {L} {s s' : Store C} {G : List ℕ} {t t' : Tree (ℕ × ω) α}

theorem Stores.cell_ne_none (h : Stores L s t) {i : ℕ} (hi : i ∈ ids t) : s.cell i ≠ none := by
  induction t with
  | hole | leaf => cases hi
  | pre p x ih | suf p x ih | grp p x ih =>
    obtain rfl | hi := List.mem_cons.1 hi
    · simp [h.1]
    · exact ih h.2 hi
  | inf p l r ihl ihr =>
    obtain rfl | hi := List.mem_cons.1 hi
    · simp [h.1]
    · obtain hi | hi := List.mem_append.1 hi
      · exact ihl h.2.1 hi
      · exact ihr h.2.2 hi

/-- Only the cells of a tree matter to it. -/
theorem Stores.congr (h : Stores L s t) (hs : ∀ i ∈ ids t, s'.cell i = s.cell i) :
    Stores L s' t := by
  induction t with
  | hole | leaf => trivial
  | pre p x ih | suf p x ih | grp p x ih =>
    refine ⟨(hs _ List.mem_cons_self).trans h.1, ih h.2 fun i hi => hs i ?_⟩
    exact List.mem_cons_of_mem _ hi
  | inf p l r ihl ihr =>
    refine ⟨(hs _ List.mem_cons_self).trans h.1, ihl h.2.1 fun i hi => hs i ?_,
      ihr h.2.2 fun i hi => hs i ?_⟩
    · exact List.mem_cons_of_mem _ (List.mem_append_left _ hi)
    · exact List.mem_cons_of_mem _ (List.mem_append_right _ hi)

theorem Held.cell_ne_none (h : Held L s t) {i : ℕ} (hi : i ∈ ids t) : s.cell i ≠ none :=
  h.stores.cell_ne_none hi

theorem Held.length_ids_le (h : Held L s t) : (ids t).length ≤ s.last + 1 := by
  have hsub : ids t ⊆ List.range (s.last + 1) := by
    intro i hi
    obtain ⟨c, hc⟩ := Option.ne_none_iff_exists'.1 (h.cell_ne_none hi)
    exact List.mem_range.2 (Nat.lt_succ_of_le (Store.le_last hc))
  simpa using (List.subperm_of_subset h.nodup hsub).length_le

@[simp] theorem held_hole : Held L s (hole : Tree (ℕ × ω) α) := ⟨trivial, List.nodup_nil⟩

@[simp] theorem held_leaf (a : α) : Held L s (leaf a : Tree (ℕ × ω) α) := ⟨trivial, List.nodup_nil⟩

theorem Rewrites.trans {s'' : Store C} {t'' : Tree (ℕ × ω) α} (h : Rewrites L s s' G t t')
    (h' : Rewrites L s' s'' G t' t'') : Rewrites L s s'' G t t'' := by
  refine ⟨h'.held, h'.slots.trans h.slots, h'.root.trans h.root, fun i hi => ?_, fun i hi hG hs => ?_,
    fun i hi => h'.keep i (h.keep i hi)⟩
  · obtain hi | hi | hi := h'.new i hi
    · exact h.new i hi
    · exact Or.inr (Or.inl hi)
    · exact Or.inr (Or.inr (not_not.1 fun hs => h.keep i hs hi))
  · have hit : i ∉ ids t' := fun hit => by
      obtain hi' | hi' | hi' := h.new i hit
      · exact hi hi'
      · exact hG hi'
      · exact hs hi'
    rw [h'.frame i hit hG (h.keep i hs), h.frame i hi hG hs]

/-! ### A node of the right edge -/

variable {p : ℕ × ω} {l? : Option (Tree (ℕ × ω) α)} {x y : Tree (ℕ × ω) α}

/-- What stands before the last operand of a node of the right edge. -/
def Layout.front (L : Layout ω α V C) : Option (Tree (ℕ × ω) α) → List V
  | none => []
  | some l => L.slots l

/-- The cells of the operand before the last one. -/
def frontIds : Option (Tree (ℕ × ω) α) → List ℕ
  | none => []
  | some l => ids l

/-- The operand before the last one is held, if there is one. -/
def FrontStores (L : Layout ω α V C) (s : Store C) : Option (Tree (ℕ × ω) α) → Prop
  | none => True
  | some l => Stores L s l

theorem ids_spine : ids (spine p l? x) = p.1 :: (frontIds l? ++ ids x) := by
  cases l? <;> rfl

theorem slots_spine : L.slots (spine p l? x) = [L.ref p.1] := by
  cases l? <;> rfl

theorem rootId_spine : rootId (spine p l? x) = some p.1 := by
  cases l? <;> rfl

theorem stores_spine : Stores L s (spine p l? x) ↔
    s.cell p.1 = some (L.cell p.2 (L.front l? ++ L.slots x)) ∧ FrontStores L s l? ∧ Stores L s x := by
  cases l? with
  | none => exact and_congr_right fun _ => (iff_of_eq (true_and _)).symm
  | some l => rfl

theorem FrontStores.congr (h : FrontStores L s l?) (hs : ∀ i ∈ frontIds l?, s'.cell i = s.cell i) :
    FrontStores L s' l? := by
  cases l? with
  | none => trivial
  | some l => exact Stores.congr h hs

theorem FrontStores.cell_ne_none (h : FrontStores L s l?) {i : ℕ} (hi : i ∈ frontIds l?) :
    s.cell i ≠ none := by
  cases l? with
  | none => cases hi
  | some l => exact Stores.cell_ne_none h hi

theorem Held.last (h : Held L s (spine p l? x)) : Held L s x := by
  obtain ⟨-, -, hx⟩ := stores_spine.1 h.stores
  have hn := h.nodup
  rw [ids_spine] at hn
  exact ⟨hx, (List.nodup_append.1 (List.nodup_cons.1 hn).2).2.1⟩

theorem mem_ids_of_rootId {i : ℕ} (h : rootId t = some i) : i ∈ ids t := by
  cases t <;> cases h <;> exact List.mem_cons_self

theorem mem_ids_of_edgeAt {d i : ℕ} (hi : i ∈ ids (edgeAt d t)) : i ∈ ids t := by
  induction d generalizing t with
  | zero => exact hi
  | succ d ih =>
    cases t with
    | pre p x => exact List.mem_cons_of_mem _ (ih hi)
    | inf p l r => exact List.mem_cons_of_mem _ (List.mem_append_right _ (ih hi))
    | hole | leaf | suf | grp => cases hi

/-- Only the root stands in the cell of the root. -/
theorem eq_zero_of_rootId_edgeAt {d i : ℕ} (hn : (ids t).Nodup) (hi : rootId t = some i)
    (hd : rootId (edgeAt d t) = some i) : d = 0 := by
  by_contra h0
  obtain ⟨d, rfl⟩ := Nat.exists_eq_succ_of_ne_zero h0
  cases t with
  | pre p x =>
    cases hi
    exact (List.nodup_cons.1 hn).1 (mem_ids_of_edgeAt (mem_ids_of_rootId hd))
  | inf p l r =>
    cases hi
    exact (List.nodup_cons.1 hn).1 (List.mem_append_right _ (mem_ids_of_edgeAt (mem_ids_of_rootId hd)))
  | hole | leaf => cases hi
  | suf | grp => cases hd

theorem Held.edgeAt {d : ℕ} (h : Held L s t) : Held L s (edgeAt d t) := by
  induction d generalizing t with
  | zero => exact h
  | succ d ih =>
    cases t with
    | pre p x =>
      have hx : Held L s (spine p none x) := h
      exact ih hx.last
    | inf p l r =>
      have hr : Held L s (spine p (some l) r) := h
      exact ih hr.last
    | hole | leaf | suf | grp => exact held_hole

/-- Rewriting the last operand of a node in place rewrites the node in place. -/
theorem Rewrites.spine (h : Held L s (spine p l? x)) (hx : Rewrites L s s' G x y)
    (hG : ∀ i ∈ G, i ∉ ids (Tree.spine p l? x)) :
    Rewrites L s s' G (Tree.spine p l? x) (Tree.spine p l? y) := by
  obtain ⟨hp, hl, -⟩ := stores_spine.1 h.stores
  have hn := h.nodup
  simp only [ids_spine, List.nodup_cons, List.nodup_append, List.mem_append, not_or] at hn
  obtain ⟨⟨hpl, hpx⟩, hln, -, hlx⟩ := hn
  -- A cell of the node outside the operand is not one of the operand's new cells.
  have out : ∀ i ∈ p.1 :: frontIds l?, i ∉ ids x → i ∉ ids y := by
    intro i hi hix hiy
    obtain h' | h' | h' := hx.new i hiy
    · exact hix h'
    · refine hG i h' ?_
      rw [ids_spine]
      exact List.mem_append_left (ids x) hi
    · obtain rfl | hi := List.mem_cons.1 hi
      · simp [hp] at h'
      · exact hl.cell_ne_none hi h'
  have same : ∀ i ∈ p.1 :: frontIds l?, i ∉ ids x → s'.cell i = s.cell i := by
    intro i hi hix
    refine hx.frame i hix (fun hiG => hG i hiG ?_) ?_
    · rw [ids_spine]
      exact List.mem_append_left (ids x) hi
    · obtain rfl | hi := List.mem_cons.1 hi
      · simp [hp]
      · exact hl.cell_ne_none hi
  have hlout : ∀ i ∈ frontIds l?, i ∉ ids x := fun i hi hix => hlx i hi i hix rfl
  refine ⟨⟨stores_spine.2 ⟨?_, ?_, hx.held.stores⟩, ?_⟩, ?_, ?_, ?_, ?_, hx.keep⟩
  · rw [same p.1 List.mem_cons_self hpx, hp, hx.slots]
  · exact hl.congr fun i hi => same i (List.mem_cons_of_mem _ hi) (hlout i hi)
  · simp only [ids_spine, List.nodup_cons, List.nodup_append, List.mem_append, not_or]
    refine ⟨⟨hpl, out p.1 List.mem_cons_self hpx⟩, hln, hx.held.nodup, fun i hi j hj e => ?_⟩
    exact out i (List.mem_cons_of_mem _ hi) (hlout i hi) (e ▸ hj)
  · simp only [slots_spine]
  · simp only [rootId_spine]
  · intro i hi
    simp only [ids_spine, List.mem_cons, List.mem_append] at hi ⊢
    obtain hi | hi | hi := hi
    · exact Or.inl (Or.inl hi)
    · exact Or.inl (Or.inr (Or.inl hi))
    · obtain hi | hi | hi := hx.new i hi
      · exact Or.inl (Or.inr (Or.inr hi))
      · exact Or.inr (Or.inl hi)
      · exact Or.inr (Or.inr hi)
  · intro i hi hiG hs
    refine hx.frame i (fun hix => hi ?_) hiG hs
    rw [ids_spine]
    exact List.mem_cons_of_mem _ (List.mem_append_right _ hix)

/-- Rewriting a node of the right edge in place rewrites the tree in place. -/
theorem Rewrites.onEdge {d : ℕ} (h : Held L s t) (hd : OnEdge d t)
    (hx : Rewrites L s s' G (edgeAt d t) y) (hG : ∀ i ∈ G, i ∉ ids t) :
    Rewrites L s s' G t (Tree.onEdge (fun _ => y) d t) := by
  induction d generalizing t with
  | zero => exact hx
  | succ d ih =>
    cases t with
    | pre p x =>
      have hx' : Held L s (Tree.spine p none x) := h
      refine Rewrites.spine hx' (ih hx'.last hd hx fun i hi hix => hG i hi ?_) hG
      exact List.mem_cons_of_mem _ hix
    | inf p l r =>
      have hr : Held L s (Tree.spine p (some l) r) := h
      refine Rewrites.spine hr (ih hr.last hd hx fun i hi hir => hG i hi ?_) hG
      exact List.mem_cons_of_mem _ (List.mem_append_right _ hir)
    | hole | leaf | suf | grp => exact hd.elim

/-! ### The two rewrites of a node -/

variable {s₁ : Store C} {f : C → C}

/-- Give a node of the right edge another last operand: one made of the old one and new cells, or one
that was held already. -/
theorem Rewrites.put (h : Held L s (Tree.spine p l? x))
    (ext : ∀ i, s.cell i ≠ none → s₁.cell i = s.cell i) (hy : Held L s₁ y)
    (hids : ∀ i ∈ ids y, i ∈ ids x ∨ i ∈ G ∨ s.cell i = none)
    (hG : ∀ i ∈ G, i ∉ ids (Tree.spine p l? x))
    (hf : f (L.cell p.2 (L.front l? ++ L.slots x)) = L.cell p.2 (L.front l? ++ L.slots y)) :
    Rewrites L s (s₁.modify p.1 f) G (Tree.spine p l? x) (Tree.spine p l? y) := by
  obtain ⟨hp, hl, -⟩ := stores_spine.1 h.stores
  have hn := h.nodup
  simp only [ids_spine, List.nodup_cons, List.nodup_append, List.mem_append, not_or] at hn
  obtain ⟨⟨hpl, hpx⟩, hln, -, hlx⟩ := hn
  have hp₁ : s₁.cell p.1 = some (L.cell p.2 (L.front l? ++ L.slots x)) := by
    rw [ext p.1 (by simp [hp]), hp]
  -- Neither the node nor what stands before its last operand is in the new operand.
  have out : ∀ i ∈ p.1 :: frontIds l?, i ∉ ids x → i ∉ ids y := by
    intro i hi hix hiy
    obtain h' | h' | h' := hids i hiy
    · exact hix h'
    · refine hG i h' ?_
      rw [ids_spine]
      exact List.mem_append_left (ids x) hi
    · obtain rfl | hi := List.mem_cons.1 hi
      · simp [hp] at h'
      · exact hl.cell_ne_none hi h'
  have hpy := out p.1 List.mem_cons_self hpx
  have hly : ∀ i ∈ frontIds l?, i ∉ ids y := fun i hi =>
    out i (List.mem_cons_of_mem _ hi) fun hix => hlx i hi i hix rfl
  refine ⟨⟨stores_spine.2 ⟨?_, ?_, ?_⟩, ?_⟩, ?_, ?_, ?_, ?_, ?_⟩
  · rw [Store.cell_modify_self, hp₁, Option.map_some, hf]
  · refine hl.congr fun i hi => ?_
    rw [Store.cell_modify_of_ne _ (ne_of_mem_of_not_mem hi hpl), ext i (hl.cell_ne_none hi)]
  · exact hy.stores.congr fun i hi => Store.cell_modify_of_ne _ (ne_of_mem_of_not_mem hi hpy)
  · simp only [ids_spine, List.nodup_cons, List.nodup_append, List.mem_append, not_or]
    exact ⟨⟨hpl, hpy⟩, hln, hy.nodup, fun i hi j hj e => hly i hi (e ▸ hj)⟩
  · simp only [slots_spine]
  · simp only [rootId_spine]
  · intro i hi
    simp only [ids_spine, List.mem_cons, List.mem_append] at hi ⊢
    obtain hi | hi | hi := hi
    · exact Or.inl (Or.inl hi)
    · exact Or.inl (Or.inr (Or.inl hi))
    · obtain hi | hi := hids i hi
      · exact Or.inl (Or.inr (Or.inr hi))
      · exact Or.inr hi
  · intro i hi _ hs
    have hip : i ≠ p.1 := by
      rintro rfl
      exact hi (by simp [ids_spine])
    rw [Store.cell_modify_of_ne _ hip, ext i hs]
  · intro i hs
    by_cases hip : i = p.1
    · subst hip
      simp [hp₁]
    · rwa [Store.cell_modify_of_ne _ hip, ext i hs]

theorem slots_moveRoot {i : ℕ} (hi : rootId t = some i) (n : ℕ) :
    L.slots (moveRoot n t) = [L.ref n] := by
  cases t <;> first | rfl | cases hi

theorem slots_of_rootId {i : ℕ} (hi : rootId t = some i) : L.slots t = [L.ref i] := by
  cases t <;> cases hi <;> rfl

theorem ids_moveRoot {i : ℕ} (hi : rootId t = some i) (n : ℕ) :
    ids t = i :: (ids t).tail ∧ ids (moveRoot n t) = n :: (ids t).tail := by
  cases t <;> cases hi <;> exact ⟨rfl, rfl⟩

theorem Stores.moveRoot {i n : ℕ} (h : Stores L s t) (hi : rootId t = some i)
    (hn : s'.cell n = s.cell i) (hs : ∀ j ∈ (ids t).tail, s'.cell j = s.cell j) :
    Stores L s' (Tree.moveRoot n t) := by
  cases t with
  | hole | leaf => trivial
  | pre p x | suf p x | grp p x =>
    cases hi
    exact ⟨hn.trans h.1, h.2.congr hs⟩
  | inf p l r =>
    cases hi
    exact ⟨hn.trans h.1, h.2.1.congr fun j hj => hs j (List.mem_append_left _ hj),
      h.2.2.congr fun j hj => hs j (List.mem_append_right _ hj)⟩

/-- Copy the root of a tree into a new cell and rewrite the old one in place: the copy holds the tree,
and every other cell is as it was. -/
theorem Held.moveRoot {i : ℕ} {c : C} (h : Held L s t) (hi : rootId t = some i)
    (hc : s.cell i = some c) :
    Held L ((s.alloc c).1.modify i f) (Tree.moveRoot (s.last + 1) t) ∧
      i ∉ ids (Tree.moveRoot (s.last + 1) t) ∧
      ∀ j, j ≠ i → s.cell j ≠ none → ((s.alloc c).1.modify i f).cell j = s.cell j := by
  have hne : s.last + 1 ≠ i := by
    have := Store.le_last hc
    omega
  obtain ⟨e, e'⟩ := ids_moveRoot hi (s.last + 1)
  have hn := h.nodup
  rw [e, List.nodup_cons] at hn
  have same : ∀ j, j ≠ i → s.cell j ≠ none → ((s.alloc c).1.modify i f).cell j = s.cell j := by
    intro j hj hs
    rw [Store.cell_modify_of_ne _ hj, Store.cell_alloc_of_ne_none hs]
  have tail : ∀ j ∈ (ids t).tail, j ≠ i ∧ s.cell j ≠ none := fun j hj =>
    ⟨ne_of_mem_of_not_mem hj hn.1, h.cell_ne_none (List.mem_of_mem_tail hj)⟩
  refine ⟨⟨h.stores.moveRoot hi ?_ fun j hj => same j (tail j hj).1 (tail j hj).2, ?_⟩, ?_, same⟩
  · rw [Store.cell_modify_of_ne _ hne, Store.cell_alloc_self, hc]
  · rw [e', List.nodup_cons]
    exact ⟨fun hmem => (tail _ hmem).2 s.cell_next, hn.2⟩
  · rw [e', List.mem_cons, not_or]
    exact ⟨hne.symm, hn.1⟩

theorem Rewrites.wrap {i : ℕ} {c : C} {o : ω} {ds : List V} (h : Held L s t) (hi : rootId t = some i)
    (hc : s.cell i = some c) (hf : f c = L.cell o (L.ref (s.last + 1) :: ds))
    (ht : ids t' = i :: ids (Tree.moveRoot (s.last + 1) t)) (hr : rootId t' = some i)
    (hst : ∀ {s' : Store C}, s'.cell i = some (L.cell o (L.ref (s.last + 1) :: ds)) →
      Stores L s' (Tree.moveRoot (s.last + 1) t) → Stores L s' t') :
    Rewrites L s ((s.alloc c).1.modify i f) [] t t' := by
  obtain ⟨hm, hni, same⟩ : Held L ((s.alloc c).1.modify i f) _ ∧ _ := h.moveRoot hi hc
  obtain ⟨e, e'⟩ := ids_moveRoot hi (s.last + 1)
  have hself : ((s.alloc c).1.modify i f).cell i =
      some (L.cell o (L.ref (s.last + 1) :: ds)) := by
    rw [Store.cell_modify_self, Store.cell_alloc_of_some hc, Option.map_some, hf]
  refine ⟨⟨hst hself hm.stores, ?_⟩, ?_, hr.trans hi.symm, ?_, ?_, ?_⟩
  · rw [ht, List.nodup_cons]
    exact ⟨hni, hm.nodup⟩
  · rw [slots_of_rootId hi, slots_of_rootId hr]
  · intro j hj
    rw [ht, e', List.mem_cons, List.mem_cons] at hj
    rw [e, List.mem_cons]
    obtain hj | rfl | hj := hj
    · exact Or.inl (Or.inl hj)
    · exact Or.inr (Or.inr s.cell_next)
    · exact Or.inl (Or.inr hj)
  · intro j hj _ hs
    refine same j (fun hji => hj ?_) hs
    rw [e, hji]
    exact List.mem_cons_self
  · intro j hs
    by_cases hj : j = i
    · rw [hj, hself]
      exact Option.some_ne_none _
    · rwa [same j hj hs]

/-- An infix operator takes a whole tree as its first operand, in place. -/
theorem Rewrites.wrap_inf {i : ℕ} {c : C} {o : ω} (h : Held L s t) (hi : rootId t = some i)
    (hc : s.cell i = some c) (hf : f c = L.cell o (L.ref (s.last + 1) :: L.due)) :
    Rewrites L s ((s.alloc c).1.modify i f) [] t
      (inf (i, o) (Tree.moveRoot (s.last + 1) t) hole) := by
  refine Rewrites.wrap h hi hc hf (by simp [ids]) rfl fun hs hm => ⟨?_, hm, trivial⟩
  rw [hs, slots_moveRoot hi]
  rfl

/-- A suffix operator takes a whole tree as its operand, in place. -/
theorem Rewrites.wrap_suf {i : ℕ} {c : C} {o : ω} (h : Held L s t) (hi : rootId t = some i)
    (hc : s.cell i = some c) (hf : f c = L.cell o [L.ref (s.last + 1)]) :
    Rewrites L s ((s.alloc c).1.modify i f) [] t
      (suf (i, o) (Tree.moveRoot (s.last + 1) t)) := by
  refine Rewrites.wrap h hi hc hf rfl rfl fun hs hm => ⟨?_, hm⟩
  rw [hs, slots_moveRoot hi]

/-- What was built since the store was `s₀`: the cells of `s₀` are as they were, and the tree uses none
of them. -/
structure Apart (s₀ s : Store C) (t : Tree (ℕ × ω) α) : Prop where
  same : ∀ i, s₀.cell i ≠ none → s.cell i = s₀.cell i
  new : ∀ i ∈ ids t, s₀.cell i = none

theorem Apart.start (ht : ids t = []) : Apart s s t :=
  ⟨fun _ _ => rfl, fun i hi => by simp [ht] at hi⟩

theorem Apart.alloc {s₀ : Store C} (h : Apart s₀ s t) (c : C)
    (hids : ∀ i ∈ ids t', i ∈ ids t ∨ i = s.last + 1) : Apart s₀ (s.alloc c).1 t' := by
  refine ⟨fun i hi => ?_, fun i hi => ?_⟩
  · rw [Store.cell_alloc_of_ne_none (by rwa [h.same i hi]), h.same i hi]
  · rcases hids i hi with hi | rfl
    · exact h.new i hi
    · by_contra hs
      exact hs ((h.same _ hs).symm.trans s.cell_next)

theorem Apart.rewrites {s₀ : Store C} (h : Apart s₀ s t) (hrw : Rewrites L s s' [] t t') :
    Apart s₀ s' t' := by
  refine ⟨fun i hi => ?_, fun i hi => ?_⟩
  · have hit : i ∉ ids t := fun hit => hi (h.new i hit)
    rw [hrw.frame i hit List.not_mem_nil (by rwa [h.same i hi]), h.same i hi]
  · rcases hrw.new i hi with hi | hi | hi
    · exact h.new i hi
    · cases hi
    · by_contra hs
      exact hs ((h.same i hs).symm.trans hi)

/-- A tree built after goes into a tree built before. -/
theorem Apart.takes {s₀ s₁ : Store C} {u : Tree (ℕ × ω) α} (h : Apart s₀ s t) (h' : Apart s s₁ u)
    (hrw : Rewrites L s₁ s' (ids u) t t') : Apart s₀ s' t' := by
  have hout : ∀ i, s.cell i = none → s₀.cell i = none := fun i hi => by
    by_contra hne
    exact hne ((h.same i hne).symm.trans hi)
  refine ⟨fun i hi => ?_, fun i hi => ?_⟩
  · have hs : s.cell i ≠ none := by rwa [h.same i hi]
    have hs₁ : s₁.cell i ≠ none := by rwa [h'.same i hs]
    rw [hrw.frame i (fun hit => hi (h.new i hit)) (fun hiu => hs (h'.new i hiu)) hs₁, h'.same i hs,
      h.same i hi]
  · rcases hrw.new i hi with hi | hi | hi
    · exact h.new i hi
    · exact hout i (h'.new i hi)
    · refine hout i ?_
      by_contra hne
      exact hne ((h'.same i hne).symm.trans hi)

/-- A tree held before is held still. -/
theorem Apart.held {s₀ : Store C} {u : Tree (ℕ × ω) α} (h : Apart s₀ s t) (hu : Held L s₀ u) :
    Held L s u :=
  ⟨hu.stores.congr fun i hi => h.same i (hu.cell_ne_none hi), hu.nodup⟩

/-- A tree no cell of which is touched stays held. -/
theorem Rewrites.other (h : Rewrites L s s' G t t') (hy : Held L s y)
    (hty : ∀ i ∈ ids y, i ∉ ids t ∧ i ∉ G) :
    Held L s' y ∧ ∀ i ∈ ids y, i ∉ ids t' := by
  refine ⟨⟨hy.stores.congr fun i hi => ?_, hy.nodup⟩, fun i hi hit => ?_⟩
  · exact h.frame i (hty i hi).1 (hty i hi).2 (hy.cell_ne_none hi)
  · obtain h' | h' | h' := h.new i hit
    · exact (hty i hi).1 h'
    · exact (hty i hi).2 h'
    · exact hy.cell_ne_none hi h'

end Held

end OpTree
