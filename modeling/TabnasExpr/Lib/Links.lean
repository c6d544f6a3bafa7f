import Mathlib.Algebra.BigOperators.Group.List.Basic
import Mathlib.Algebra.GroupWithZero.Nat
import Mathlib.Algebra.Order.BigOperators.Group.List
import Mathlib.Algebra.Order.Group.Nat
import Mathlib.Data.List.MinMax
import Mathlib.Logic.Relation
import Mathlib.Order.Nat

/-!
# Trees unfolded from links

Nodes linked to lists of nodes unfold to a tree at each node, which need not be finite.  `count` and
`depth` measure its first levels; a rank that falls along every link bounds its depth.  Three changes
of the links are followed: a node put between another one and a run of its links (`Spliced`), a link
added at the end of a node's (`Attached`), and a new node that nothing links to (`Rooted`).
-/

namespace Links

variable {ι : Type*} {f g : ι → List ι} {e p c t i j : ι} {old new : List ι} {k m : ℕ}

/-- The nodes in the first `k` levels of the tree at a node. -/
def count (f : ι → List ι) : ℕ → ι → ℕ
  | 0, _ => 0
  | k + 1, i => 1 + ((f i).map (count f k)).sum

/-- The levels of the tree at a node, counted up to `k`. -/
def depth (f : ι → List ι) : ℕ → ι → ℕ
  | 0, _ => 0
  | k + 1, i => 1 + ((f i).map (depth f k)).foldr max 0

/-- A node stands in the tree at another one. -/
def Reaches (f : ι → List ι) : ι → ι → Prop := Relation.ReflTransGen fun i j => j ∈ f i

/-- A rank that falls along every link. -/
def Ranked (f : ι → List ι) (rank : ι → ℕ) : Prop := ∀ i, ∀ j ∈ f i, rank j < rank i

theorem count_succ (k : ℕ) (i : ι) : count f (k + 1) i = 1 + ((f i).map (count f k)).sum := rfl

theorem sum_map_le {h h' : ι → ℕ} {l : List ι} (hl : ∀ i ∈ l, h i ≤ h' i) :
    (l.map h).sum ≤ (l.map h').sum :=
  List.sum_le_sum hl

/-- One term of a sum that grows by `d` makes the sum grow by as much. -/
theorem sum_map_add_le {h h' : ι → ℕ} {l : List ι} {d : ℕ} (hl : ∀ i ∈ l, h i ≤ h' i) (hj : j ∈ l)
    (hd : h j + d ≤ h' j) : (l.map h).sum + d ≤ (l.map h').sum := by
  induction l with
  | nil => cases hj
  | cons x l ih =>
    have hx := hl x List.mem_cons_self
    have hrest := fun i hi => hl i (List.mem_cons_of_mem x hi)
    simp only [List.map_cons, List.sum_cons]
    rcases List.mem_cons.1 hj with rfl | hj
    · have := sum_map_le hrest
      omega
    · have := ih hrest hj
      omega

/-- Links that are paths of other links. -/
theorem Reaches.of_links (h : ∀ x, ∀ y ∈ f x, Reaches g x y) (hr : Reaches f i j) :
    Reaches g i j := by
  induction hr with
  | refl => exact Relation.ReflTransGen.refl
  | tail _ hy ih => exact ih.trans (h _ _ hy)

theorem count_le_succ (k : ℕ) (i : ι) : count f k i ≤ count f (k + 1) i := by
  induction k generalizing i with
  | zero => exact Nat.zero_le _
  | succ k ih =>
    rw [count_succ, count_succ (k + 1)]
    have := sum_map_le (l := f i) fun j _ => ih j
    omega

theorem count_mono (i : ι) (h : k ≤ m) : count f k i ≤ count f m i :=
  monotone_nat_of_le_succ (fun k => count_le_succ k i) h

/-- A bound that covers a node and the bounds of what it links to bounds the whole tree. -/
theorem count_le {bound : ι → ℕ} (h : ∀ i, 1 + ((f i).map bound).sum ≤ bound i) (k : ℕ) (i : ι) :
    count f k i ≤ bound i := by
  induction k generalizing i with
  | zero => exact Nat.zero_le _
  | succ k ih =>
    have := sum_map_le (l := f i) fun j _ => ih j
    have := h i
    rw [count_succ]
    omega

/-- Once a level adds nothing, no level below does. -/
theorem count_le_of_stable (h : ∀ i, count f (k + 1) i ≤ count f k i) (m : ℕ) (i : ι) :
    count f m i ≤ count f k i :=
  count_le h m i

theorem depth_le_of_ranked {rank : ι → ℕ} (h : Ranked f rank) (k : ℕ) (i : ι) :
    depth f k i ≤ rank i + 1 := by
  induction k generalizing i with
  | zero => exact Nat.zero_le (rank i + 1)
  | succ k ih =>
    have : ((f i).map (depth f k)).foldr max 0 ≤ rank i := by
      refine List.max_le_of_forall_le _ _ ?_
      intro d hd
      rcases List.mem_map.1 hd with ⟨j, hj, rfl⟩
      have := ih j
      have := h i j hj
      omega
    rw [depth]
    omega

/-! ## A node put between another one and its links -/

/-- The node `p` is put in the place of the run `old` of the links of `e`, and has the links `new`. -/
structure Spliced (f g : ι → List ι) (e p : ι) (old new : List ι) : Prop where
  fresh : ∀ i, p ∉ f i
  bare : f p = []
  ne : e ≠ p
  other : ∀ i, i ≠ e → i ≠ p → g i = f i
  place : ∃ l r, f e = l ++ old ++ r ∧ g e = l ++ p :: r
  under : g p = new

theorem Spliced.ne_of_mem (h : Spliced f g e p old new) (hj : j ∈ f i) : j ≠ p := by
  rintro rfl
  exact h.fresh i hj

/-- The tree at `e` gains the new node, when it takes what stood in its place. -/
theorem Spliced.count_site (h : Spliced f g e p old old)
    (ih : ∀ j ∈ f e, count f k j ≤ count g (2 * k) j) :
    count f (k + 1) e + 1 ≤ count g (2 * (k + 1)) e := by
  obtain ⟨l, r, hf, hg⟩ := h.place
  have hup : ∀ j ∈ f e, count f k j ≤ count g (2 * k + 1) j := fun j hj =>
    (ih j hj).trans (count_le_succ _ j)
  have hl := sum_map_le (l := l) fun j hj => hup j (by simp [hf, hj])
  have hm := sum_map_le (l := old) fun j hj => ih j (by simp [hf, hj])
  have hr := sum_map_le (l := r) fun j hj => hup j (by simp [hf, hj])
  have hp : count g (2 * k + 1) p = 1 + (old.map (count g (2 * k))).sum := by
    rw [count_succ, h.under]
  rw [show 2 * (k + 1) = 2 * k + 1 + 1 from rfl, count_succ, count_succ, hf, hg]
  simp only [List.map_append, List.map_cons, List.sum_append, List.sum_cons]
  omega

theorem Spliced.count_le (h : Spliced f g e p old old) (k : ℕ) (hi : i ≠ p) :
    count f k i ≤ count g (2 * k) i := by
  induction k generalizing i with
  | zero => exact Nat.zero_le _
  | succ k ih =>
    have hall : ∀ j ∈ f i, count f k j ≤ count g (2 * k) j := fun j hj => ih (h.ne_of_mem hj)
    by_cases he : i = e
    · subst he
      have := h.count_site hall
      omega
    · have := sum_map_le fun j hj => (hall j hj).trans (count_le_succ _ j)
      rw [show 2 * (k + 1) = 2 * k + 1 + 1 from rfl, count_succ, count_succ, h.other i he hi]
      omega

/-- Every tree that `e` stands in gains the new node. -/
theorem Spliced.count_lt (h : Spliced f g e p old old) (hr : Reaches f i e) (hi : i ≠ p) :
    ∃ K, ∀ k, K ≤ k → count f k i + 1 ≤ count g (2 * k) i := by
  induction hr using Relation.ReflTransGen.head_induction_on with
  | refl =>
    refine ⟨1, fun k hk => ?_⟩
    obtain ⟨k, rfl⟩ := Nat.exists_eq_add_of_le' hk
    exact h.count_site fun j hj => h.count_le k (h.ne_of_mem hj)
  | @head i j hj _ ih =>
    obtain ⟨K, hK⟩ := ih (h.ne_of_mem hj)
    refine ⟨K + 1, fun k hk => ?_⟩
    obtain ⟨k, rfl⟩ := Nat.exists_eq_add_of_le' (Nat.le_of_add_left_le hk)
    by_cases he : i = e
    · subst he
      exact h.count_site fun j hj => h.count_le k (h.ne_of_mem hj)
    · have hgain := sum_map_add_le
        (fun x hx => (h.count_le k (h.ne_of_mem hx)).trans (count_le_succ _ x)) hj
        ((hK k (by omega)).trans (count_le_succ _ j))
      rw [show 2 * (k + 1) = 2 * k + 1 + 1 from rfl, count_succ, count_succ, h.other i he hi]
      omega

theorem Spliced.reaches (h : Spliced f g e p old old) (hr : Reaches f i j) : Reaches g i j := by
  refine hr.of_links fun x y hy => ?_
  by_cases he : x = e
  · subst he
    obtain ⟨l, r, hf, hg⟩ := h.place
    rw [hf, List.mem_append, List.mem_append] at hy
    rcases hy with (hy | hy) | hy
    · exact Relation.ReflTransGen.single (by simp [hg, hy])
    · exact (Relation.ReflTransGen.single (by simp [hg] : p ∈ g x)).tail (by rwa [h.under])
    · exact Relation.ReflTransGen.single (by simp [hg, hy])
  · have hp : x ≠ p := by
      rintro rfl
      rw [h.bare] at hy
      cases hy
    exact Relation.ReflTransGen.single (by rwa [h.other x he hp])

theorem Spliced.mem_site (h : Spliced f g e p old new) : p ∈ g e := by
  obtain ⟨l, r, -, hg⟩ := h.place
  simp [hg]

/-- The ranks after a splice: the new node takes the rank of `e`, and of the nodes in `s` those from
that rank up move up by one. -/
def bump [DecidableEq ι] (rank : ι → ℕ) (s : ι → Prop) [DecidablePred s] (e p i : ι) : ℕ :=
  if i = p then rank e else if s i ∧ rank e ≤ rank i then rank i + 1 else rank i

variable [DecidableEq ι] {rank : ι → ℕ} {s : ι → Prop} [DecidablePred s]

theorem bump_of_lt (hi : i ≠ p) (h : rank i < rank e) : bump rank s e p i = rank i := by
  rw [bump, if_neg hi, if_neg fun hs => by omega]

theorem bump_site (he : s e) (hne : e ≠ p) : bump rank s e p e = rank e + 1 := by
  rw [bump, if_neg hne, if_pos ⟨he, le_rfl⟩]

theorem bump_le (rank : ι → ℕ) (s : ι → Prop) [DecidablePred s] (e : ι) (hi : i ≠ p) :
    bump rank s e p i ≤ rank i + 1 := by
  unfold bump
  rw [if_neg hi]
  split_ifs <;> omega

theorem bump_of_not (hi : i ≠ p) (hs : ¬ s i) : bump rank s e p i = rank i := by
  rw [bump, if_neg hi, if_neg fun h => hs h.1]

/-- The ranks after a splice fall along every link, when nothing outside `s` links into it. -/
theorem Spliced.ranked (h : Spliced f g e p old new) (hrank : Ranked f rank)
    (hnew : ∀ j ∈ new, j ∈ f e) (hs : s e) (hclosed : ∀ i, i ≠ p → ¬ s i → ∀ j ∈ f i, ¬ s j) :
    Ranked g (bump rank s e p) := by
  have hbelow : ∀ j ∈ f e, bump rank s e p j < rank e := fun j hj => by
    rw [bump_of_lt (h.ne_of_mem hj) (hrank e j hj)]
    exact hrank e j hj
  have hp : bump rank s e p p = rank e := if_pos rfl
  intro i j hj
  by_cases hip : i = p
  · subst hip
    rw [h.under] at hj
    rw [hp]
    exact hbelow j (hnew j hj)
  by_cases hie : i = e
  · subst hie
    obtain ⟨l, r, hf, hg⟩ := h.place
    rw [bump_site hs h.ne]
    rw [hg, List.mem_append, List.mem_cons] at hj
    rcases hj with hj | rfl | hj
    · have := hbelow j (by simp [hf, hj])
      omega
    · omega
    · have := hbelow j (by simp [hf, hj])
      omega
  rw [h.other i hie hip] at hj
  have hlt := hrank i j hj
  have hjp := h.ne_of_mem hj
  by_cases hsi : s i
  · by_cases hle : rank e ≤ rank i
    · rw [show bump rank s e p i = rank i + 1 by rw [bump, if_neg hip, if_pos ⟨hsi, hle⟩]]
      have := bump_le rank s e hjp
      omega
    · rw [bump_of_lt hip (by omega), bump_of_lt hjp (by omega)]
      exact hlt
  · rw [bump_of_not hip hsi, bump_of_not hjp (hclosed i hip hsi j hj)]
    exact hlt

/-! ## A link added, and a new node -/

/-- The node `c` has the link `t` in addition. -/
structure Attached (f g : ι → List ι) (c t : ι) : Prop where
  other : ∀ i, i ≠ c → g i = f i
  site : g c = f c ++ [t]

/-- The new node `p` has the links `new`, and nothing links to it. -/
structure Rooted (f g : ι → List ι) (p : ι) (new : List ι) : Prop where
  fresh : ∀ i, p ∉ f i
  bare : f p = []
  other : ∀ i, i ≠ p → g i = f i
  under : g p = new

omit [DecidableEq ι]

theorem Attached.mem (h : Attached f g c t) (hj : j ∈ f i) : j ∈ g i := by
  by_cases hi : i = c
  · subst hi
    rw [h.site]
    exact List.mem_append_left _ hj
  · rwa [h.other i hi]

theorem Attached.reaches (h : Attached f g c t) (hr : Reaches f i j) : Reaches g i j :=
  hr.of_links fun _ _ hy => Relation.ReflTransGen.single (h.mem hy)

/-- The sum over the links of a node, against the sum over its links after. -/
theorem Attached.sum_le (h : Attached f g c t) {u v : ι → ℕ} (huv : ∀ j ∈ f i, u j ≤ v j) :
    ((f i).map u).sum ≤ ((g i).map v).sum := by
  have hle := sum_map_le huv
  by_cases hi : i = c
  · subst hi
    rw [h.site, List.map_append, List.sum_append]
    omega
  · rwa [h.other i hi]

theorem Attached.count_le (h : Attached f g c t) (k : ℕ) (i : ι) : count f k i ≤ count g k i := by
  induction k generalizing i with
  | zero => exact Nat.zero_le _
  | succ k ih =>
    have := h.sum_le (i := i) fun j _ => ih j
    rw [count_succ, count_succ]
    omega

/-- Every tree that `c` stands in gains the tree at `t`. -/
theorem Attached.count_add (h : Attached f g c t) (hr : Reaches f i c) (m : ℕ) :
    ∃ K, ∀ k, K ≤ k → count f k i + count f m t ≤ count g k i := by
  induction hr using Relation.ReflTransGen.head_induction_on with
  | refl =>
    refine ⟨m + 1, fun k hk => ?_⟩
    obtain ⟨k, rfl⟩ := Nat.exists_eq_add_of_le' (Nat.le_of_add_left_le hk)
    have hsum := sum_map_le (l := f c) fun j _ => h.count_le k j
    have ht : count f m t ≤ count g k t := (h.count_le m t).trans (count_mono t (by omega))
    rw [count_succ, count_succ, h.site, List.map_append, List.sum_append]
    simp only [List.map_cons, List.map_nil, List.sum_cons, List.sum_nil]
    omega
  | @head i j hj _ ih =>
    obtain ⟨K, hK⟩ := ih
    refine ⟨K + 1, fun k hk => ?_⟩
    obtain ⟨k, rfl⟩ := Nat.exists_eq_add_of_le' (Nat.le_of_add_left_le hk)
    have hgain := sum_map_add_le (fun x _ => h.count_le k x) hj (hK k (by omega))
    have hmem : ((f i).map (count g k)).sum ≤ ((g i).map (count g k)).sum :=
      h.sum_le fun _ _ => le_rfl
    rw [count_succ, count_succ]
    omega

theorem Rooted.ne_of_mem (h : Rooted f g p new) (hj : j ∈ f i) : j ≠ p := by
  rintro rfl
  exact h.fresh i hj

theorem Rooted.mem (h : Rooted f g p new) (hj : j ∈ f i) : j ∈ g i := by
  have hp : i ≠ p := by
    rintro rfl
    rw [h.bare] at hj
    cases hj
  rwa [h.other i hp]

theorem Rooted.reaches (h : Rooted f g p new) (hr : Reaches f i j) : Reaches g i j :=
  hr.of_links fun _ _ hy => Relation.ReflTransGen.single (h.mem hy)

theorem Rooted.count_eq (h : Rooted f g p new) (k : ℕ) (hi : i ≠ p) : count g k i = count f k i := by
  induction k generalizing i with
  | zero => rfl
  | succ k ih =>
    rw [count_succ, count_succ, h.other i hi]
    congr 2
    exact List.map_congr_left fun j hj => ih (h.ne_of_mem hj)

theorem Rooted.count_root (h : Rooted f g p new) (hnew : p ∉ new) (k : ℕ) :
    count g (k + 1) p = 1 + (new.map (count f k)).sum := by
  rw [count_succ, h.under]
  congr 2
  refine List.map_congr_left fun j hj => h.count_eq k ?_
  rintro rfl
  exact hnew hj

theorem Rooted.ranked [DecidableEq ι] {rank : ι → ℕ} {r : ℕ} (h : Rooted f g p new)
    (hrank : Ranked f rank) (hnew : p ∉ new) (hr : ∀ j ∈ new, rank j < r) :
    Ranked g (Function.update rank p r) := by
  intro i j hj
  by_cases hi : i = p
  · subst hi
    rw [h.under] at hj
    have hji : j ≠ i := by
      rintro rfl
      exact hnew hj
    rw [Function.update_self, Function.update_of_ne hji]
    exact hr j hj
  · rw [h.other i hi] at hj
    rw [Function.update_of_ne hi, Function.update_of_ne (h.ne_of_mem hj)]
    exact hrank i j hj

end Links
