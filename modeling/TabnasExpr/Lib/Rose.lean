import Mathlib.Data.List.Nodup
import Mathlib.Data.List.Perm.Subperm
import Mathlib.Data.List.Range
import TabnasExpr.Lib.Store

/-!
# Trees of any width stored in numbered cells

A tree whose nodes have any number of operands lies in the cells of a `Store`, one node a cell, and the
nodes carry the numbers of their cells.  `Held L s t` says that the store holds the tree, no cell twice;
`Rewrites L s s' G t t'` says that going from `s` to `s'` turned `t` into `t'` in place, taking in the
cells `G`.  A node rewritten in place (`Rewrites.update`) rewrites every tree it is in (`Rewrites.arg`).
-/

/-- A tree of labelled nodes over leaves. -/
inductive Rose (ω β : Type*) where
  | leaf (b : β)
  | node (o : ω) (ts : List (Rose ω β))

namespace Rose

variable {ω β V C : Type*}

@[induction_eliminator]
theorem induction {motive : Rose ω β → Prop} (leaf : ∀ b, motive (leaf b))
    (node : ∀ o ts, (∀ t ∈ ts, motive t) → motive (node o ts)) (t : Rose ω β) : motive t :=
  match t with
  | .leaf b => leaf b
  | .node o ts => node o ts (all ts)
where
  all : ∀ ts : List (Rose ω β), ∀ t ∈ ts, motive t
  | [] => by simp
  | t :: ts => by
    rintro u (_ | ⟨_, hu⟩)
    · exact induction leaf node t
    · exact all ts u hu

mutual

/-- The tree without the numbers of its cells. -/
def erase : Rose (ℕ × ω) β → Rose ω β
  | leaf b => leaf b
  | node p ts => node p.2 (eraseAll ts)

def eraseAll : List (Rose (ℕ × ω) β) → List (Rose ω β)
  | [] => []
  | t :: ts => erase t :: eraseAll ts

end

mutual

/-- The cells of a tree. -/
def ids : Rose (ℕ × ω) β → List ℕ
  | leaf _ => []
  | node p ts => p.1 :: idsAll ts

def idsAll : List (Rose (ℕ × ω) β) → List ℕ
  | [] => []
  | t :: ts => ids t ++ idsAll ts

end

mutual

/-- How many nodes a tree has. -/
def count : Rose ω β → ℕ
  | leaf _ => 0
  | node _ ts => countAll ts + 1

def countAll : List (Rose ω β) → ℕ
  | [] => 0
  | t :: ts => count t + countAll ts

end

section Count

variable {t : Rose ω β} {ts us : List (Rose ω β)} {o : ω}

@[simp] theorem count_leaf (b : β) : count (leaf b : Rose ω β) = 0 := by rw [count]

@[simp] theorem count_node : count (node o ts) = countAll ts + 1 := by rw [count]

@[simp] theorem countAll_nil : countAll ([] : List (Rose ω β)) = 0 := rfl

@[simp] theorem countAll_cons : countAll (t :: ts) = count t + countAll ts := rfl

@[simp] theorem countAll_append : countAll (ts ++ us) = countAll ts + countAll us := by
  induction ts with
  | nil => rw [List.nil_append, countAll_nil, Nat.zero_add]
  | cons t ts ih => rw [List.cons_append, countAll_cons, ih, countAll_cons, Nat.add_assoc]

/-- No node is an operand of its own. -/
theorem ne_node_of_mem (h : t ∈ ts) : t ≠ node o ts := by
  have hle : count t ≤ countAll ts := by
    obtain ⟨l, r, rfl⟩ := List.append_of_mem h
    simp only [countAll_append, countAll_cons]
    omega
  rintro rfl
  rw [count_node] at hle
  omega

end Count

section Trees

variable {t u : Rose (ℕ × ω) β} {ts us : List (Rose (ℕ × ω) β)} {p : ℕ × ω} {i : ℕ}

@[simp] theorem erase_leaf (b : β) : erase (leaf b : Rose (ℕ × ω) β) = leaf b := by rw [erase]

theorem eraseAll_eq : eraseAll ts = ts.map erase := by
  induction ts with
  | nil => rfl
  | cons t ts ih => rw [eraseAll, ih, List.map_cons]

@[simp] theorem erase_node : erase (node p ts) = node p.2 (ts.map erase) := by
  rw [erase, eraseAll_eq]

@[simp] theorem ids_leaf (b : β) : ids (leaf b : Rose (ℕ × ω) β) = [] := by rw [ids]

@[simp] theorem ids_node : ids (node p ts) = p.1 :: idsAll ts := by rw [ids]

@[simp] theorem idsAll_nil : idsAll ([] : List (Rose (ℕ × ω) β)) = [] := rfl

@[simp] theorem idsAll_cons : idsAll (t :: ts) = ids t ++ idsAll ts := rfl

@[simp] theorem idsAll_append : idsAll (ts ++ us) = idsAll ts ++ idsAll us := by
  induction ts with
  | nil => rfl
  | cons t ts ih => rw [List.cons_append, idsAll_cons, ih, idsAll_cons, List.append_assoc]

theorem mem_idsAll : i ∈ idsAll ts ↔ ∃ t ∈ ts, i ∈ ids t := by
  induction ts with
  | nil => simp
  | cons t ts ih => simp [ih]

theorem mem_ids_of_mem (h : t ∈ ts) (hi : i ∈ ids t) : i ∈ ids (node p ts) := by
  rw [ids_node]
  exact List.mem_cons_of_mem _ (mem_idsAll.2 ⟨t, h, hi⟩)

theorem idsAll_replicate (n : ℕ) (b : β) :
    idsAll (List.replicate n (leaf b : Rose (ℕ × ω) β)) = [] := by
  induction n with
  | zero => rfl
  | succ n ih => rw [List.replicate_succ, idsAll_cons, ih, ids_leaf, List.append_nil]

end Trees

/-- How trees are laid out: a reference to a node, a leaf, and the cell of a node with its operands. -/
structure Layout (ω β V C : Type*) where
  ref : ℕ → ω → V
  leaf : β → V
  cell : ω → List V → C

variable (L : Layout ω β V C)

/-- What stands for a tree in the node it is an operand of. -/
def Layout.slot : Rose (ℕ × ω) β → V
  | .leaf b => L.leaf b
  | .node p _ => L.ref p.1 p.2

/-- Every node of the tree stands in its cell, with its operands. -/
inductive Stores (s : Store C) : Rose (ℕ × ω) β → Prop
  | leaf (b : β) : Stores s (leaf b)
  | node (p : ℕ × ω) (ts : List (Rose (ℕ × ω) β))
    (hcell : s.cell p.1 = some (L.cell p.2 (ts.map L.slot))) (hargs : ∀ t ∈ ts, Stores s t) :
    Stores s (node p ts)

/-- The store holds the tree, no cell twice. -/
structure Held (s : Store C) (t : Rose (ℕ × ω) β) : Prop where
  stores : Stores L s t
  nodup : (ids t).Nodup

/-- Going from `s` to `s'` rewrote `t` into `t'` in place, taking in the cells `G`. -/
structure Rewrites (s s' : Store C) (G : List ℕ) (t t' : Rose (ℕ × ω) β) : Prop where
  held : Held L s' t'
  slot : L.slot t' = L.slot t
  new : ∀ i ∈ ids t', i ∈ ids t ∨ i ∈ G ∨ s.cell i = none
  frame : ∀ i, i ∉ ids t → i ∉ G → s.cell i ≠ none → s'.cell i = s.cell i
  keep : ∀ i, s.cell i ≠ none → s'.cell i ≠ none

/-- `u'` is `u` with `t'` in the place of `t`, one operand of it at any depth. -/
inductive Placed (t t' : Rose ω β) : Rose ω β → Rose ω β → Prop
  | here : Placed t t' t t'
  | arg {u u' : Rose ω β} (p : ω) (l r : List (Rose ω β)) (h : Placed t t' u u') :
    Placed t t' (node p (l ++ u :: r)) (node p (l ++ u' :: r))

section Held

variable {L} {s s₁ s' : Store C} {G : List ℕ} {t t' u u' x y : Rose (ℕ × ω) β}
  {ts us l r : List (Rose (ℕ × ω) β)} {p : ℕ × ω} {o : ω} {i : ℕ} {f : C → C}

theorem Stores.cell (h : Stores L s (.node p ts)) :
    s.cell p.1 = some (L.cell p.2 (ts.map L.slot)) := by
  cases h with
  | node _ _ hcell _ => exact hcell

theorem Stores.args (h : Stores L s (.node p ts)) : ∀ t ∈ ts, Stores L s t := by
  cases h with
  | node _ _ _ hargs => exact hargs

theorem Stores.cell_ne_none (h : Stores L s t) (hi : i ∈ ids t) : s.cell i ≠ none := by
  induction t with
  | leaf b => simp at hi
  | node p ts ih =>
    rw [ids_node, List.mem_cons] at hi
    obtain rfl | hi := hi
    · simp [h.cell]
    · obtain ⟨t, ht, hi⟩ := mem_idsAll.1 hi
      exact ih t ht (h.args t ht) hi

/-- Only the cells of a tree matter to it. -/
theorem Stores.congr (h : Stores L s t) (hs : ∀ i ∈ ids t, s'.cell i = s.cell i) : Stores L s' t := by
  induction t with
  | leaf b => exact .leaf b
  | node p ts ih =>
    refine .node p ts ((hs p.1 (by simp)).trans h.cell) fun t ht => ih t ht (h.args t ht) fun i hi => ?_
    exact hs i (mem_ids_of_mem ht hi)

/-- A store holds one tree at most under a reference. -/
theorem Stores.unique (hcell : ∀ o o' vs vs', L.cell o vs = L.cell o' vs' → o = o' ∧ vs = vs')
    (hleaf : ∀ b b', L.leaf b = L.leaf b' → b = b') (href : ∀ i o b, L.ref i o ≠ L.leaf b)
    (hid : ∀ i o i' o', L.ref i o = L.ref i' o' → i = i') (h : Stores L s t) (h' : Stores L s t')
    (hs : L.slot t = L.slot t') : t = t' := by
  induction t generalizing t' with
  | leaf b =>
    cases t' with
    | leaf b' => rw [hleaf b b' hs]
    | node p' ts' => exact absurd hs.symm (href _ _ b)
  | node p ts ih =>
    cases t' with
    | leaf b' => exact absurd hs (href _ _ b')
    | node p' ts' =>
      obtain ⟨i, o⟩ := p
      obtain ⟨i', o'⟩ := p'
      obtain rfl : i = i' := hid i o i' o' hs
      obtain ⟨rfl, hslots⟩ := hcell _ _ _ _ (Option.some.inj (h.cell.symm.trans h'.cell))
      congr 1
      have hall : ∀ us us' : List (Rose (ℕ × ω) β), (∀ u ∈ us, u ∈ ts) → (∀ u ∈ us', u ∈ ts') →
          us.map L.slot = us'.map L.slot → us = us' := by
        intro us
        induction us with
        | nil => exact fun us' _ _ e => (List.map_eq_nil_iff.1 e.symm).symm
        | cons u us ihu =>
          intro us' hu hu' e
          cases us' with
          | nil => cases e
          | cons u' us' =>
            simp only [List.map_cons, List.cons.injEq] at e
            simp only [List.forall_mem_cons] at hu hu'
            rw [ih u hu.1 (h.args u hu.1) (h'.args u' hu'.1) e.1, ihu us' hu.2 hu'.2 e.2]
      exact hall ts ts' (fun _ hu => hu) (fun _ hu => hu) hslots

theorem Held.cell_ne_none (h : Held L s t) (hi : i ∈ ids t) : s.cell i ≠ none :=
  h.stores.cell_ne_none hi

theorem Held.length_ids_le (h : Held L s t) : (ids t).length ≤ s.last + 1 := by
  have hsub : ids t ⊆ List.range (s.last + 1) := by
    intro i hi
    obtain ⟨c, hc⟩ := Option.ne_none_iff_exists'.1 (h.cell_ne_none hi)
    exact List.mem_range.2 (Nat.lt_succ_of_le (Store.le_last hc))
  simpa using (List.subperm_of_subset h.nodup hsub).length_le

theorem Held.congr (h : Held L s t) (hs : ∀ i ∈ ids t, s'.cell i = s.cell i) : Held L s' t :=
  ⟨h.stores.congr hs, h.nodup⟩

/-- An operand of a held node is held, its cells apart from those of the node and of the others. -/
theorem Held.arg (h : Held L s (.node p (l ++ x :: r))) : Held L s x ∧
    ∀ i ∈ ids x, i ≠ p.1 ∧ i ∉ idsAll l ∧ i ∉ idsAll r := by
  have hn := h.nodup
  simp only [ids_node, idsAll_append, idsAll_cons, List.nodup_cons, List.nodup_append, List.mem_append,
    not_or] at hn
  obtain ⟨⟨hpl, hpx, hpr⟩, hl, ⟨hx, hr, hxr⟩, hlx⟩ := hn
  refine ⟨⟨h.stores.args x (by simp), hx⟩, fun i hi => ⟨?_, fun hil => ?_, fun hir => ?_⟩⟩
  · rintro rfl
    exact hpx hi
  · exact hlx i hil i (Or.inl hi) rfl
  · exact hxr i hi i hir rfl

theorem Rewrites.trans {s'' : Store C} {G' : List ℕ} {t'' : Rose (ℕ × ω) β} (h : Rewrites L s s' G t t')
    (h' : Rewrites L s' s'' G' t' t'') : Rewrites L s s'' (G ++ G') t t'' := by
  refine ⟨h'.held, h'.slot.trans h.slot, fun i hi => ?_, fun i hi hiG hs => ?_,
    fun i hi => h'.keep i (h.keep i hi)⟩
  · rw [List.mem_append]
    obtain hi | hi | hi := h'.new i hi
    · obtain hi | hi | hi := h.new i hi
      · exact .inl hi
      · exact .inr (.inl (.inl hi))
      · exact .inr (.inr hi)
    · exact .inr (.inl (.inr hi))
    · exact .inr (.inr (by_contra fun hs => h.keep i hs hi))
  · rw [List.mem_append, not_or] at hiG
    have hit' : i ∉ ids t' := fun hin => by
      obtain hin | hin | hin := h.new i hin
      · exact hi hin
      · exact hiG.1 hin
      · exact hs hin
    rw [h'.frame i hit' hiG.2 (h.keep i hs), h.frame i hi hiG.1 hs]

/-- A store in which all that was there is as it was holds the same trees. -/
theorem Rewrites.same (h : Held L s t) (hext : s.Extends s') :
    Rewrites L s s' G t t :=
  ⟨h.congr fun i hi => hext i (h.cell_ne_none hi), rfl, fun _ hi => .inl hi, fun i _ _ hs => hext i hs,
    fun i hi => by rwa [hext i hi]⟩

theorem Rewrites.refl (h : Held L s t) : Rewrites L s s G t t :=
  Rewrites.same h fun _ _ => rfl

/-- Cells taken in that were not there are new ones. -/
theorem Rewrites.fresh (h : Rewrites L s s' G t t') (hG : ∀ i ∈ G, s.cell i = none) :
    Rewrites L s s' [] t t' := by
  refine ⟨h.held, h.slot, fun i hi => ?_, fun i hi _ hs => h.frame i hi (fun hiG => hs (hG i hiG)) hs,
    h.keep⟩
  obtain hi | hi | hi := h.new i hi
  · exact .inl hi
  · exact .inr (.inr (hG i hi))
  · exact .inr (.inr hi)

/-- A tree no cell of which is touched stays held. -/
theorem Rewrites.other (h : Rewrites L s s' G t t') (hu : Held L s u)
    (hapart : ∀ i ∈ ids u, i ∉ ids t ∧ i ∉ G) : Held L s' u ∧ ∀ i ∈ ids u, i ∉ ids t' := by
  refine ⟨hu.congr fun i hi => h.frame i (hapart i hi).1 (hapart i hi).2 (hu.cell_ne_none hi),
    fun i hi hit => ?_⟩
  obtain h' | h' | h' := h.new i hit
  · exact (hapart i hi).1 h'
  · exact (hapart i hi).2 h'
  · exact hu.cell_ne_none hi h'

/-- Rewriting an operand of a node in place rewrites the node in place. -/
theorem Rewrites.arg (h : Held L s (.node p (l ++ x :: r))) (hx : Rewrites L s s' G x y)
    (hG : ∀ i ∈ G, i ∉ ids (.node p (l ++ x :: r))) :
    Rewrites L s s' G (.node p (l ++ x :: r)) (.node p (l ++ y :: r)) := by
  obtain ⟨-, hxout⟩ := h.arg
  have hlive : ∀ i ∈ p.1 :: (idsAll l ++ idsAll r), s.cell i ≠ none := fun i hi => by
    refine h.cell_ne_none ?_
    simp only [List.mem_cons, List.mem_append] at hi
    simp only [ids_node, idsAll_append, idsAll_cons, List.mem_cons, List.mem_append]
    tauto
  have hnotx : ∀ i ∈ p.1 :: (idsAll l ++ idsAll r), i ∉ ids x := fun i hi hix => by
    obtain ⟨hp, hl, hr⟩ := hxout i hix
    simp [hp, hl, hr] at hi
  have hnotG : ∀ i ∈ p.1 :: (idsAll l ++ idsAll r), i ∉ G := fun i hi hiG => by
    refine hG i hiG ?_
    simp only [List.mem_cons, List.mem_append] at hi
    simp only [ids_node, idsAll_append, idsAll_cons, List.mem_cons, List.mem_append]
    tauto
  -- The cells of the node outside the operand are as they were, and none of them is in the new one.
  have same : ∀ i ∈ p.1 :: (idsAll l ++ idsAll r), s'.cell i = s.cell i := fun i hi =>
    hx.frame i (hnotx i hi) (hnotG i hi) (hlive i hi)
  have out : ∀ i ∈ p.1 :: (idsAll l ++ idsAll r), i ∉ ids y := fun i hi hiy => by
    obtain h' | h' | h' := hx.new i hiy
    · exact hnotx i hi h'
    · exact hnotG i hi h'
    · exact hlive i hi h'
  have hn := h.nodup
  simp only [ids_node, idsAll_append, idsAll_cons, List.nodup_cons, List.nodup_append, List.mem_append,
    not_or] at hn
  obtain ⟨⟨hpl, -, hpr⟩, hl, ⟨-, hr, -⟩, hlr⟩ := hn
  refine ⟨⟨.node p _ ?_ fun t ht => ?_, ?_⟩, rfl, ?_, ?_, hx.keep⟩
  · rw [same p.1 List.mem_cons_self, h.stores.cell]
    simp [hx.slot]
  · simp only [List.mem_append, List.mem_cons] at ht
    obtain ht | rfl | ht := ht
    · refine (h.stores.args t (by simp [ht])).congr fun i hi => same i ?_
      exact List.mem_cons_of_mem _ (List.mem_append_left _ (mem_idsAll.2 ⟨t, ht, hi⟩))
    · exact hx.held.stores
    · refine (h.stores.args t (by simp [ht])).congr fun i hi => same i ?_
      exact List.mem_cons_of_mem _ (List.mem_append_right _ (mem_idsAll.2 ⟨t, ht, hi⟩))
  · simp only [ids_node, idsAll_append, idsAll_cons, List.nodup_cons, List.nodup_append,
      List.mem_append,
      not_or]
    refine ⟨⟨hpl, out p.1 List.mem_cons_self, hpr⟩, hl, ⟨hx.held.nodup, hr, ?_⟩, ?_⟩
    · rintro i hi j hj rfl
      exact out i (List.mem_cons_of_mem _ (List.mem_append_right _ hj)) hi
    · rintro i hi j (hj | hj) rfl
      · exact out i (List.mem_cons_of_mem _ (List.mem_append_left _ hi)) hj
      · exact hlr i hi i (Or.inr hj) rfl
  · intro i hi
    simp only [ids_node, idsAll_append, idsAll_cons, List.mem_cons, List.mem_append] at hi ⊢
    obtain hi | hi | hi | hi := hi
    · exact .inl (.inl hi)
    · exact .inl (.inr (.inl hi))
    · obtain hi | hi := hx.new i hi
      · exact .inl (.inr (.inr (.inl hi)))
      · exact .inr hi
    · exact .inl (.inr (.inr (.inr hi)))
  · intro i hi hiG hs
    refine hx.frame i (fun hix => hi ?_) hiG hs
    simp [hix]

/-- Rewriting a tree in place rewrites every tree it is in. -/
theorem Rewrites.placed (h : Rewrites L s s' G t t') (hp : Placed t t' u u') (hu : Held L s u)
    (hG : ∀ i ∈ G, i ∉ ids u) : Rewrites L s s' G u u' := by
  induction hp with
  | here => exact h
  | arg p l r _ ih =>
    have hx := ih hu.arg.1 fun i hi hin => hG i hi (mem_ids_of_mem (by simp) hin)
    exact Rewrites.arg hu hx hG

/-- A node rewritten in place, its operands made of the old ones, the cells taken in and new ones. -/
theorem Rewrites.update (h : Held L s (.node p ts)) (hext : s.Extends s₁)
    (hus : ∀ u ∈ us, Stores L s₁ u) (hn : (p.1 :: idsAll us).Nodup)
    (hnew : ∀ i ∈ idsAll us, i ∈ idsAll ts ∨ i ∈ G ∨ s.cell i = none)
    (href : L.ref p.1 o = L.ref p.1 p.2)
    (hf : f (L.cell p.2 (ts.map L.slot)) = L.cell o (us.map L.slot)) :
    Rewrites L s (s₁.modify p.1 f) G (.node p ts) (.node (p.1, o) us) := by
  obtain ⟨hpn, hun⟩ := List.nodup_cons.1 hn
  have hp : s.cell p.1 = some (L.cell p.2 (ts.map L.slot)) := h.stores.cell
  have hp₁ : s₁.cell p.1 = some (L.cell p.2 (ts.map L.slot)) := by
    rw [hext p.1 (by simp [hp]), hp]
  refine ⟨⟨.node _ _ ?_ fun u hu => ?_, by simpa using ⟨hpn, hun⟩⟩, href, ?_, ?_, ?_⟩
  · rw [Store.cell_modify_self, hp₁, Option.map_some, hf]
  · refine (hus u hu).congr fun i hi => Store.cell_modify_of_ne _ ?_
    rintro rfl
    exact hpn (mem_idsAll.2 ⟨u, hu, hi⟩)
  · intro i hi
    simp only [ids_node, List.mem_cons] at hi ⊢
    obtain hi | hi := hi
    · exact .inl (.inl hi)
    · exact (hnew i hi).imp_left .inr
  · intro i hi _ hs
    rw [Store.cell_modify_of_ne _ (by rintro rfl; simp at hi), hext i hs]
  · intro i hs
    by_cases hip : i = p.1
    · rw [hip, Store.cell_modify_self, hp₁]
      simp
    · rwa [Store.cell_modify_of_ne _ hip, hext i hs]

/-- One operand of a node is put in the place of another, whose cells it may take. -/
theorem Rewrites.put (h : Held L s (.node p ts)) (hts : idsAll ts = idsAll l ++ (ids x ++ idsAll r))
    (hlr : ∀ u ∈ l ++ r, Stores L s u) (hext : s.Extends s₁)
    (hy : Held L s₁ y) (hnew : ∀ i ∈ ids y, i ∈ ids x ∨ i ∈ G ∨ s.cell i = none)
    (hG : ∀ i ∈ G, i ∉ ids (.node p ts))
    (hf : f (L.cell p.2 (ts.map L.slot)) = L.cell p.2 ((l ++ y :: r).map L.slot)) :
    Rewrites L s (s₁.modify p.1 f) G (.node p ts) (.node p (l ++ y :: r)) := by
  have hlive : ∀ i ∈ ids (.node p ts), s.cell i ≠ none := fun i hi => h.cell_ne_none hi
  have hn := h.nodup
  simp only [ids_node, hts, List.mem_cons, List.mem_append] at hlive hG
  simp only [ids_node, hts, List.nodup_cons, List.nodup_append, List.mem_append, not_or] at hn
  obtain ⟨⟨hpl, hpx, hpr⟩, hl, ⟨-, hr, hxr⟩, hlx⟩ := hn
  -- The cells of the other operand are none of those that stay.
  have hout : ∀ i ∈ ids y, i ≠ p.1 ∧ i ∉ idsAll l ∧ i ∉ idsAll r := fun i hi => by
    obtain hi | hi | hi := hnew i hi
    · refine ⟨fun e => hpx (e ▸ hi), fun hil => ?_, fun hir => hxr i hi i hir rfl⟩
      exact hlx i hil i (Or.inl hi) rfl
    · have := hG i hi
      tauto
    · refine ⟨fun e => hlive i (Or.inl e) hi, fun hil => ?_, fun hir => ?_⟩
      · exact hlive i (Or.inr (Or.inl hil)) hi
      · exact hlive i (Or.inr (Or.inr (Or.inr hir))) hi
  refine Rewrites.update h hext (fun u hu => ?_) ?_ (fun i hi => ?_) rfl hf
  · simp only [List.mem_append, List.mem_cons] at hu hlr
    obtain hu | rfl | hu := hu
    · exact (hlr u (Or.inl hu)).congr fun i hi => hext i ((hlr u (Or.inl hu)).cell_ne_none hi)
    · exact hy.stores
    · exact (hlr u (Or.inr hu)).congr fun i hi => hext i ((hlr u (Or.inr hu)).cell_ne_none hi)
  · simp only [idsAll_append, idsAll_cons, List.nodup_cons, List.nodup_append, List.mem_append, not_or]
    refine ⟨⟨hpl, fun hy => (hout p.1 hy).1 rfl, hpr⟩, hl, ⟨hy.nodup, hr, ?_⟩, ?_⟩
    · rintro i hi j hj rfl
      exact (hout i hi).2.2 hj
    · rintro i hi j (hj | hj) rfl
      · exact (hout i hj).2.1 hi
      · exact hlx i hi i (Or.inr hj) rfl
  · simp only [idsAll_append, idsAll_cons, List.mem_append] at hi
    rw [hts]
    simp only [List.mem_append]
    obtain hi | hi | hi := hi
    · exact .inl (.inl hi)
    · exact (hnew i hi).imp_left fun hi => .inr (.inl hi)
    · exact .inl (.inr (.inr hi))

end Held

end Rose
