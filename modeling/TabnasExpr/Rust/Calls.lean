import TabnasExpr.Lib.Links
import TabnasExpr.Rust.Arena

/-!
# What the calls on expression nodes do

The rule actions build expressions by four calls: a new node, a new operator around a finished
expression, `prattify`, and a term pushed on.  Each is read here through three views of the arena:
the expression a node belongs to, the size recorded at it, and the nodes that stand in it as terms.
-/

namespace TabnasExpr.Rust

open OpTree

variable {α : Type*} {a a' : Arena α} {v t : Val α} {i j p R : ℕ}

/-- A value the arena has handed out: no handle of a node to come. -/
def Issued (a : Arena α) (v : Val α) : Prop := ∀ i ∈ nodeId v, i ≤ a.nodes.last

/-- The size recorded at a node. -/
def size (a : Arena α) (i : ℕ) : ℕ := ((a.nodes.cell i).map ExprNode.size).getD 0

/-- The nodes of the arena among some values. -/
def liveNodes (a : Arena α) (vs : List (Val α)) : List ℕ :=
  (vs.filterMap nodeId).filter fun i => (a.nodes.cell i).isSome

/-- The terms of a node. -/
def termsOf (a : Arena α) (i : ℕ) : List (Val α) := ((a.nodes.cell i).map ExprNode.terms).getD []

/-- The nodes that stand in a node as terms. -/
def links (a : Arena α) (i : ℕ) : List ℕ := liveNodes a (termsOf a i)

/-- The count a term adds to the expression `R` that takes it in. -/
def share (a : Arena α) (R : ℕ) (t : Val α) : ℕ :=
  if rootId a t = some R then 0 else expressionSize a t

/-- Terms hold issued handles only, every expression is headed by its own root, and the flag is set
exactly when a recorded size is past the limit. -/
structure Sane (a : Arena α) : Prop where
  issued : ∀ i n, a.nodes.cell i = some n → ∀ v ∈ n.terms, Issued a v
  rooted : ∀ i R, rootId a (.node i) = some R → rootId a (.node R) = some R
  flag : a.overLimit = true ↔ ∃ i, NODE_LIMIT < size a i

/-- An arena that has just been cleared. -/
def Cleared (a : Arena α) : Prop := (∀ i, a.nodes.cell i = none) ∧ a.overLimit = false

theorem Cleared.sane (h : Cleared a) : Sane a where
  issued := fun i n hi => by
    rw [h.1] at hi
    cases hi
  rooted := fun i R hi => by
    simp [rootId, nodeId, h.1] at hi
  flag := by
    simp [h.2, size, h.1]

/-- A thread that has parsed nothing. -/
def emptyArena : Arena α := ⟨Store.empty, false⟩

theorem cleared_emptyArena : Cleared (emptyArena : Arena α) := ⟨fun _ => rfl, rfl⟩

theorem rootId_node (i : ℕ) : rootId a (.node i) = (a.nodes.cell i).map ExprNode.root := rfl

theorem rootId_ne_none_of_opOf {op : Op} (h : opOf a v = some op) : rootId a v ≠ none := by
  obtain ⟨n, hn, -⟩ := Option.bind_eq_some_iff.1 h
  simp [rootId, hn]

theorem rootId_eq_none : rootId a (.node i) = none ↔ a.nodes.cell i = none := by
  rw [rootId_node, Option.map_eq_none_iff]

theorem mem_liveNodes {vs : List (Val α)} :
    i ∈ liveNodes a vs ↔ .node i ∈ vs ∧ rootId a (.node i) ≠ none := by
  simp only [liveNodes, List.mem_filter, List.mem_filterMap, ne_eq, rootId_eq_none,
    Option.isSome_iff_ne_none]
  refine and_congr_left' ⟨?_, fun h => ⟨_, h, rfl⟩⟩
  rintro ⟨v, hv, hi⟩
  cases v with
  | undefined | atom => cases hi
  | node j => cases hi; exact hv

theorem size_of_rootId_eq_none (h : rootId a (.node i) = none) : size a i = 0 := by
  rw [rootId_eq_none] at h
  simp [size, h]

theorem expressionSize_eq (h : rootId a t = some R) : expressionSize a t = size a R := by
  rw [expressionSize, h, Option.bind_some, size]
  cases a.nodes.cell R <;> rfl

theorem expressionSize_eq_zero (h : rootId a t = none) : expressionSize a t = 0 := by
  rw [expressionSize, h]
  rfl

theorem share_eq_zero (h : rootId a t = none ∨ rootId a t = some R) : share a R t = 0 := by
  rcases h with h | h
  · rw [share, if_neg (by simp [h]), expressionSize_eq_zero h]
  · rw [share, if_pos h]

theorem Sane.size_le (h : Sane a) (hover : a.overLimit = false) (i : ℕ) : size a i ≤ NODE_LIMIT := by
  by_contra hlt
  have := h.flag.2 ⟨i, not_le.1 hlt⟩
  rw [hover] at this
  cases this

/-! ## Counting -/

@[simp] theorem last_grow (n : ℕ) : (grow a v n).nodes.last = a.nodes.last := by
  unfold grow
  split
  · rfl
  · split <;> rfl

/-- What `grow` writes. -/
theorem cell_grow (n : ℕ) (i : ℕ) : (grow a v n).nodes.cell i =
    (a.nodes.cell i).map fun c =>
      { c with size := c.size + if rootId a v = some i then n else 0 } := by
  unfold grow
  split
  · next h => simp [h]
  · next R h =>
    split
    · next hR =>
      by_cases hi : R = i
      · subst hi
        simp [hR]
      · simp [h, hi]
    · next c hR =>
      by_cases hi : R = i
      · subst hi
        simp [h]
      · simp [h, hi, Store.cell_modify_of_ne _ (Ne.symm hi)]

@[simp] theorem rootId_grow (n : ℕ) : rootId (grow a v n) t = rootId a t := by
  cases t with
  | undefined | atom => rfl
  | node i =>
    rw [rootId_node, rootId_node, cell_grow, Option.map_map]
    rfl

theorem size_grow (h : Sane a) (n : ℕ) (i : ℕ) :
    size (grow a v n) i = size a i + if rootId a v = some i then n else 0 := by
  rw [size, size, cell_grow]
  cases hc : a.nodes.cell i with
  | some c => rfl
  | none =>
    have : rootId a v ≠ some i := by
      intro hv
      cases v with
      | undefined | atom => cases hv
      | node k =>
        have := h.rooted k i hv
        rw [rootId_eq_none.2 hc] at this
        cases this
    simp [this]

/-- The nodes among some values are those whose roots the arena knows. -/
theorem liveNodes_congr {vs : List (Val α)}
    (h : ∀ i, .node i ∈ vs → (rootId a (.node i) = none ↔ rootId a' (.node i) = none)) :
    liveNodes a vs = liveNodes a' vs := by
  unfold liveNodes
  refine List.filter_congr fun i hi => ?_
  rcases List.mem_filterMap.1 hi with ⟨v, hv, hvi⟩
  cases v with
  | undefined | atom => cases hvi
  | node k =>
    cases hvi
    rw [Bool.eq_iff_iff, Option.isSome_iff_ne_none, Option.isSome_iff_ne_none, ne_eq, ne_eq,
      ← rootId_eq_none, ← rootId_eq_none, h i hv]

@[simp] theorem termsOf_grow (n : ℕ) : termsOf (grow a v n) i = termsOf a i := by
  rw [termsOf, termsOf, cell_grow, Option.map_map]
  rfl

theorem Sane.grow (h : Sane a) (v : Val α) (n : ℕ) : Sane (grow a v n) where
  issued := fun i c hi w hw => by
    rw [cell_grow, Option.map_eq_some_iff] at hi
    obtain ⟨c, hc, rfl⟩ := hi
    exact fun j hj => (last_grow n).symm ▸ h.issued i c hc w hw j hj
  rooted := fun i R hi => by
    rw [rootId_grow] at hi ⊢
    exact h.rooted i R hi
  flag := by
    cases hr : rootId a v with
    | none =>
      rw [show Rust.grow a v n = a by rw [Rust.grow, hr]]
      exact h.flag
    | some R =>
      have hsize := size_grow (v := v) h n
      cases hc : a.nodes.cell R with
      | none =>
        rw [show Rust.grow a v n = a by simp [Rust.grow, hr, hc]]
        exact h.flag
      | some c =>
        have hover :
      (Rust.grow a v n).overLimit = (a.overLimit || decide (NODE_LIMIT < size a R + n)) := by
          simp [Rust.grow, hr, hc, size]
        rw [hover, Bool.or_eq_true, decide_eq_true_iff, h.flag]
        constructor
        · rintro (⟨i, hi⟩ | hR)
          · exact ⟨i, by rw [hsize]; omega⟩
          · exact ⟨R, by rwa [hsize, if_pos hr]⟩
        · rintro ⟨i, hi⟩
          rw [hsize] at hi
          by_cases hiR : rootId a v = some i
          · rw [hr] at hiR
            cases hiR
            rw [if_pos hr] at hi
            exact Or.inr hi
          · rw [if_neg hiR] at hi
            exact Or.inl ⟨i, hi⟩

/-! ## Taking terms in -/

/-- The four views of an arena in which one expression is counted larger. -/
structure Counts (a a' : Arena α) (v : Val α) (n : ℕ) : Prop where
  last : a'.nodes.last = a.nodes.last
  root : ∀ i, rootId a' (.node i) = rootId a (.node i)
  size : ∀ i, size a' i = size a i + if rootId a v = some i then n else 0
  terms : ∀ i, termsOf a' i = termsOf a i
  sane : Sane a'

theorem Counts.refl (h : Sane a) (v : Val α) : Counts a a v 0 where
  last := rfl
  root := fun _ => rfl
  size := fun i => by simp
  terms := fun _ => rfl
  sane := h

theorem Counts.grow (h : Sane a) (v : Val α) (n : ℕ) : Counts a (grow a v n) v n where
  last := last_grow n
  root := fun _ => rootId_grow n
  size := size_grow h n
  terms := fun _ => termsOf_grow n
  sane := h.grow v n

theorem Counts.rootId_eq {n : ℕ} (h : Counts a a' v n) (t : Val α) : rootId a' t = rootId a t := by
  cases t with
  | undefined | atom => rfl
  | node i => exact h.root i

theorem Counts.trans {a'' : Arena α} {m n : ℕ} (h : Counts a a' v m) (h' : Counts a' a'' v n) :
    Counts a a'' v (m + n) where
  last := h'.last.trans h.last
  root := fun i => (h'.root i).trans (h.root i)
  size := fun i => by
    rw [h'.size, h.size, h.rootId_eq]
    split_ifs <;> omega
  terms := fun i => (h'.terms i).trans (h.terms i)
  sane := h'.sane

/-- Counting against an expression leaves the shares of terms of others as they are. -/
theorem Counts.share {n : ℕ} (h : Counts a a' v n) (hv : rootId a v = some R) (t : Val α) :
    share a' R t = share a R t := by
  unfold Rust.share
  rw [h.rootId_eq]
  split_ifs with ht
  · rfl
  · cases hF : rootId a t with
    | none => rw [expressionSize_eq_zero hF, expressionSize_eq_zero (by rwa [h.rootId_eq])]
    | some F =>
      have hne : rootId a v ≠ some F := by
        rw [hv, ← hF]
        exact Ne.symm ht
      rw [expressionSize_eq hF, expressionSize_eq (by rwa [h.rootId_eq]), h.size, if_neg hne]
      rfl

theorem Counts.liveNodes {n : ℕ} (h : Counts a a' v n) (vs : List (Val α)) :
    Rust.liveNodes a' vs = Rust.liveNodes a vs :=
  liveNodes_congr fun i _ => by rw [h.root]

theorem Counts.links {n : ℕ} (h : Counts a a' v n) : links a' = links a := by
  funext i
  rw [Rust.links, Rust.links, h.terms, h.liveNodes]

theorem counts_adopt (h : Sane a) (hv : rootId a v = some R) (t : Val α) :
    Counts a (adopt a v t) v (share a R t) := by
  unfold adopt share
  rw [hv]
  cases ht : rootId a t with
  | none => simpa [expressionSize_eq_zero ht] using Counts.refl h v
  | some F =>
    by_cases hF : R = F
    · simpa [hF] using Counts.refl h v
    · simpa [hF, Ne.symm hF] using Counts.grow h v _

theorem counts_adoptAll (h : Sane a) (hv : rootId a v = some R) (terms : List (Val α)) :
    Counts a (adoptAll a v terms) v (terms.map (share a R)).sum := by
  induction terms generalizing a with
  | nil => exact Counts.refl h v
  | cons t terms ih =>
    have ht := counts_adopt h hv t
    have hrest := ih ht.sane (by rwa [ht.rootId_eq])
    rw [List.map_congr_left fun x _ => ht.share hv x] at hrest
    exact ht.trans hrest

/-! ## Rewriting a node -/

/-- The root of an expression is no node to come. -/
theorem Sane.root_ne_next (h : Sane a) {i : ℕ} (hi : rootId a (.node i) = some R) :
    R ≠ a.nodes.last + 1 := by
  rintro rfl
  have := h.rooted i _ hi
  rw [rootId_eq_none.2 a.nodes.cell_next] at this
  cases this

/-- What rewriting the operator and the terms of a node changes. -/
structure Rewrites (a a' : Arena α) (i : ℕ) (terms : List (Val α)) : Prop where
  last : a'.nodes.last = a.nodes.last
  root : ∀ j, rootId a' (.node j) = rootId a (.node j)
  size : ∀ j, size a' j = size a j
  other : ∀ j, j ≠ i → links a' j = links a j
  site : links a' i = liveNodes a terms
  sane : Sane a'

/-- A rewrite that keeps the bookkeeping of a node. -/
theorem rewrites_withNodeMut (write : ExprNode α → ExprNode α) {n : ExprNode α} (h : Sane a)
    (hn : a.nodes.cell i = some n) (hroot : (write n).root = n.root) (hsize : (write n).size = n.size)
    (hterms : ∀ v ∈ (write n).terms, Issued a v) :
    Rewrites a (withNodeMut a (.node i) write) i (write n).terms := by
  have hself : (withNodeMut a (.node i) write).nodes.cell i = some (write n) := by
    simp [withNodeMut, nodeId, hn]
  have hother : ∀ j, j ≠ i → (withNodeMut a (.node i) write).nodes.cell j = a.nodes.cell j :=
    fun j hj => Store.cell_modify_of_ne _ hj
  have hrootOf : ∀ j, rootId (withNodeMut a (.node i) write) (.node j) = rootId a (.node j) := by
    intro j
    by_cases hj : j = i
    · subst hj
      rw [rootId_node, rootId_node, hself, hn, Option.map_some, Option.map_some, hroot]
    · rw [rootId_node, rootId_node, hother j hj]
  have hsizeOf : ∀ j, size (withNodeMut a (.node i) write) j = size a j := by
    intro j
    by_cases hj : j = i
    · subst hj
      rw [size, size, hself, hn, Option.map_some, Option.map_some, hsize]
    · rw [size, size, hother j hj]
  have hlive : ∀ vs, liveNodes (withNodeMut a (.node i) write) vs = liveNodes a vs :=
    fun vs => liveNodes_congr fun j _ => by rw [hrootOf]
  refine ⟨rfl, hrootOf, hsizeOf, fun j hj => ?_, ?_, ⟨fun j c hc w hw => ?_, fun j R hj => ?_, ?_⟩⟩
  · rw [links, links, hlive, termsOf, termsOf, hother j hj]
  · rw [links, termsOf, hself, hlive]
    rfl
  · by_cases hj : j = i
    · subst hj
      rw [hself] at hc
      cases hc
      exact hterms w hw
    · rw [hother j hj] at hc
      exact h.issued j c hc w hw
  · rw [hrootOf] at hj ⊢
    exact h.rooted j R hj
  · simp only [hsizeOf]
    exact h.flag

/-! ## A new node -/

/-- The expression `R` has the new node `p` and is counted `n` larger. -/
structure Gains (a a' : Arena α) (p R n : ℕ) : Prop where
  last : a'.nodes.last = p
  next : p = a.nodes.last + 1
  root : ∀ i, rootId a' (.node i) = if i = p then some R else rootId a (.node i)
  size : ∀ i, size a' i = (if i = p then 1 else size a i) + if i = R then n else 0
  sane : Sane a'

/-- The new node has these terms, and nothing links to it yet. -/
structure Allocates (a a' : Arena α) (p R n : ℕ) (terms : List (Val α)) : Prop
    extends Gains a a' p R n where
  held : ∀ i, i ≠ p → termsOf a' i = termsOf a i
  other : ∀ i, i ≠ p → links a' i = links a i
  site : links a' p = liveNodes a terms

/-- The arena with one more node. -/
def allocate (a : Arena α) (n : ExprNode α) : Arena α := { a with nodes := (a.nodes.alloc n).1 }

theorem liveNodes_allocate (n : ExprNode α) {vs : List (Val α)} (h : ∀ v ∈ vs, Issued a v) :
    liveNodes (allocate a n) vs = liveNodes a vs := by
  unfold liveNodes
  refine List.filter_congr fun i hi => ?_
  rcases List.mem_filterMap.1 hi with ⟨v, hv, hvi⟩
  have hle := h v hv i hvi
  rw [allocate, Store.cell_alloc, if_neg (by omega)]

theorem rootId_allocate (n : ExprNode α) (i : ℕ) : rootId (allocate a n) (.node i) =
    if i = a.nodes.last + 1 then some n.root else rootId a (.node i) := by
  rw [rootId_node, rootId_node, allocate, Store.cell_alloc]
  split_ifs <;> rfl

theorem size_allocate (n : ExprNode α) (i : ℕ) :
    size (allocate a n) i = if i = a.nodes.last + 1 then n.size else size a i := by
  rw [size, size, allocate, Store.cell_alloc]
  split_ifs <;> rfl

theorem rootId_next : rootId a (.node (a.nodes.last + 1)) = none :=
  rootId_eq_none.2 a.nodes.cell_next

theorem size_next : size a (a.nodes.last + 1) = 0 := size_of_rootId_eq_none rootId_next

theorem allocates_allocate (h : Sane a) (op : Option Op) {terms : List (Val α)}
    (hterms : ∀ v ∈ terms, Issued a v)
    (hR : R = a.nodes.last + 1 ∨ rootId a (.node R) = some R) :
    Allocates a (allocate a ⟨op, terms, R, 1⟩) (a.nodes.last + 1) R 0 terms where
  last := rfl
  next := rfl
  root := rootId_allocate _
  size := fun i => by simp [size_allocate]
  held := fun i hi => congrArg (fun c => (Option.map ExprNode.terms c).getD []) (if_neg hi)
  other := fun i hi => by
    have hcell : (allocate a ⟨op, terms, R, 1⟩).nodes.cell i = a.nodes.cell i := if_neg hi
    rw [links, links, termsOf, termsOf, hcell, liveNodes_allocate]
    intro v hv
    cases hc : a.nodes.cell i with
    | none => simp [hc] at hv
    | some n => exact h.issued i n hc v (by simpa [hc] using hv)
  site := by
    have hcell : (allocate a ⟨op, terms, R, 1⟩).nodes.cell (a.nodes.last + 1) =
        some ⟨op, terms, R, 1⟩ := Store.cell_alloc_self _ _
    rw [links, termsOf, hcell, liveNodes_allocate]
    · rfl
    · exact hterms
  sane := by
    refine ⟨fun i n hi w hw j hj => ?_, fun i S hi => ?_, ?_⟩
    · have hle : j ≤ a.nodes.last := by
        rw [allocate, Store.cell_alloc] at hi
        split_ifs at hi
        · cases hi
          exact hterms w hw j hj
        · exact h.issued i n hi w hw j hj
      exact Nat.le_succ_of_le hle
    · rw [rootId_allocate] at hi ⊢
      split_ifs at hi with hi'
      · cases hi
        rcases hR with hR | hR
        · rw [if_pos hR]
        · split_ifs
          · rfl
          · exact hR
      · have hS := h.rooted i S hi
        rw [if_neg, hS]
        rintro rfl
        rw [rootId_next] at hS
        cases hS
    · have hsize : ∀ i, NODE_LIMIT < size (allocate a ⟨op, terms, R, 1⟩) i ↔
          NODE_LIMIT < size a i := by
        intro i
        rw [size_allocate]
        split_ifs with hi
        · rw [hi, size_next]
          simp [NODE_LIMIT]
        · rfl
      simp only [hsize]
      exact h.flag

theorem Allocates.counts {a'' : Arena α} {m n : ℕ} {terms : List (Val α)}
    (h : Allocates a a' p R m terms) (h' : Counts a' a'' (.node p) n) :
    Allocates a a'' p R (m + n) terms where
  last := h'.last.trans h.last
  next := h.next
  root := fun i => (h'.root i).trans (h.root i)
  size := fun i => by
    have hp : rootId a' (.node p) = some R := by rw [h.root, if_pos rfl]
    rw [h'.size, h.size, hp]
    simp only [Option.some_inj, eq_comm (a := R)]
    split_ifs <;> omega
  held := fun i hi => (h'.terms i).trans (h.held i hi)
  other := fun i hi => by rw [h'.links, h.other i hi]
  site := by rw [h'.links, h.site]
  sane := h'.sane

theorem Allocates.rootId_eq {n : ℕ} {terms : List (Val α)} (h : Allocates a a' p R n terms)
    (ht : Issued a t) : rootId a' t = rootId a t := by
  cases t with
  | undefined | atom => rfl
  | node i =>
    have hle := ht i rfl
    rw [h.root, if_neg (by have := h.next; omega)]

theorem Allocates.liveNodes {n : ℕ} {terms vs : List (Val α)} (h : Allocates a a' p R n terms)
    (hvs : ∀ w ∈ vs, Issued a w) : Rust.liveNodes a' vs = Rust.liveNodes a vs :=
  liveNodes_congr fun i hi => by rw [h.rootId_eq (hvs _ hi)]

/-- A term counts the same after a node has been allocated. -/
theorem Allocates.share {terms : List (Val α)} (h : Allocates a a' p R 0 terms) (ha : Sane a)
    (ht : Issued a t) : share a' R t = share a R t := by
  unfold Rust.share
  rw [h.rootId_eq ht]
  split_ifs with hR
  · rfl
  · cases hF : rootId a t with
    | none => rw [expressionSize_eq_zero hF, expressionSize_eq_zero (by rwa [h.rootId_eq ht])]
    | some F =>
      have hne : F ≠ p := by
        rintro rfl
        cases t with
        | undefined | atom => cases hF
        | node i =>
          have := ha.rooted i F hF
          rw [h.next, rootId_next] at this
          cases this
      rw [expressionSize_eq hF, expressionSize_eq (by rwa [h.rootId_eq ht]), h.size, if_neg hne]
      split_ifs <;> rfl

/-- A new node, built in the expression of `under` if there is one. -/
theorem allocates_newNodeUnder (h : Sane a) (op : Option Op) {terms : List (Val α)}
    (hterms : ∀ w ∈ terms, Issued a w) (under : Option (Val α))
    (hR : (under.bind (rootId a)).getD (a.nodes.last + 1) = R) :
    Allocates a (newNodeUnder a op terms under).1 (a.nodes.last + 1) R
      ((if under.isSome then 1 else 0) + (terms.map (share a R)).sum) terms := by
  have hroot : R = a.nodes.last + 1 ∨ rootId a (.node R) = some R := by
    cases hu : under.bind (rootId a) with
    | none => exact Or.inl (by simpa [hu] using hR.symm)
    | some S =>
      obtain ⟨u, -, hS⟩ := Option.bind_eq_some_iff.1 hu
      rw [hu, Option.getD_some] at hR
      subst hR
      cases u with
      | undefined | atom => cases hS
      | node k => exact Or.inr (h.rooted k S hS)
  have h₁ := allocates_allocate h op hterms hroot
  have hp : rootId (allocate a ⟨op, terms, R, 1⟩) (.node (a.nodes.last + 1)) = some R := by
    rw [h₁.root, if_pos rfl]
  have h₂ : Counts (allocate a ⟨op, terms, R, 1⟩)
      (if under.isSome then grow (allocate a ⟨op, terms, R, 1⟩) (.node (a.nodes.last + 1)) 1
        else allocate a ⟨op, terms, R, 1⟩) (.node (a.nodes.last + 1))
      (if under.isSome then 1 else 0) := by
    split_ifs
    · exact Counts.grow h₁.sane _ 1
    · exact Counts.refl h₁.sane _
  have h₃ := counts_adoptAll h₂.sane (by rwa [h₂.rootId_eq]) terms
  rw [List.map_congr_left fun t ht => (h₂.share hp t).trans (h₁.share h (hterms t ht))] at h₃
  have := h₁.counts (h₂.trans h₃)
  rw [Nat.zero_add] at this
  simp only [newNodeUnder, hR]
  exact this

theorem not_mem_links_next (i : ℕ) : a.nodes.last + 1 ∉ links a i := fun h =>
  (mem_liveNodes.1 h).2 rootId_next

theorem links_next : links a (a.nodes.last + 1) = [] := by
  rw [links, termsOf, a.nodes.cell_next]
  rfl

theorem Allocates.rooted {n : ℕ} {terms : List (Val α)} (h : Allocates a a' p R n terms) :
    Links.Rooted (links a) (links a') p (Rust.liveNodes a terms) where
  fresh := h.next ▸ not_mem_links_next
  bare := h.next ▸ links_next
  other := h.other
  under := h.site

/-! ## The calls -/

theorem liveNodes_append (vs ws : List (Val α)) :
    liveNodes a (vs ++ ws) = liveNodes a vs ++ liveNodes a ws := by
  simp [liveNodes]

theorem liveNodes_cons (w : Val α) (vs : List (Val α)) :
    liveNodes a (w :: vs) = liveNodes a [w] ++ liveNodes a vs := liveNodes_append [w] vs

theorem liveNodes_undefined (k : ℕ) :
    liveNodes a (List.replicate k (Val.undefined : Val α)) = [] := by
  induction k with
  | zero => rfl
  | succ k ih => rw [List.replicate_succ, liveNodes_cons, ih]; rfl

theorem liveNodes_node (h : rootId a (.node i) ≠ none) : liveNodes a [(.node i : Val α)] = [i] := by
  rw [ne_eq, rootId_eq_none, ← ne_eq, ← Option.isSome_iff_ne_none] at h
  simp [liveNodes, nodeId, h]

theorem liveNodes_of_root_eq_none (h : rootId a t = none) : liveNodes a [t] = [] := by
  refine List.eq_nil_iff_forall_not_mem.2 fun i hi => ?_
  obtain ⟨hmem, hlive⟩ := mem_liveNodes.1 hi
  rw [List.mem_singleton.1 hmem] at hlive
  exact hlive h

/-- Assigning to an element puts the value in the place of what stands there. -/
theorem liveNodes_setAt (ts : List (Val α)) (m : ℕ) (w : Val α) :
    ∃ l r, liveNodes a ts = l ++ liveNodes a [ts.getD m .undefined] ++ r ∧
      liveNodes a (Ts.setAt ts m w) = l ++ liveNodes a [w] ++ r := by
  unfold Ts.setAt
  split_ifs with hm
  · refine ⟨liveNodes a (ts.take m), liveNodes a (ts.drop (m + 1)), ?_, ?_⟩
    · conv_lhs => rw [← List.take_append_drop m ts, List.drop_eq_getElem_cons hm]
      rw [liveNodes_append, liveNodes_cons, List.append_assoc]
      simp [hm]
    · rw [List.set_eq_take_append_cons_drop, if_pos hm, liveNodes_append, liveNodes_cons,
        List.append_assoc]
  · refine ⟨liveNodes a ts, [], ?_, ?_⟩
    · simp [List.getElem?_eq_none (not_lt.1 hm), liveNodes, nodeId]
    · rw [liveNodes_append, liveNodes_append, liveNodes_undefined]
      simp

theorem mem_setAt {ts : List (Val α)} {m : ℕ} {w x : Val α} (h : x ∈ Ts.setAt ts m w) :
    x = w ∨ x = .undefined ∨ x ∈ ts := by
  unfold Ts.setAt at h
  split_ifs at h with hm
  · rcases List.mem_or_eq_of_mem_set h with h | h
    · exact Or.inr (Or.inr h)
    · exact Or.inl h
  · simp only [List.mem_append, List.mem_singleton] at h
    rcases h with (h | h) | h
    · exact Or.inr (Or.inr h)
    · exact Or.inr (Or.inl (List.eq_of_mem_replicate h))
    · exact Or.inl h

theorem issued_getD {ts : List (Val α)} (h : ∀ w ∈ ts, Issued a w) (m : ℕ) :
    Issued a (ts.getD m .undefined) := by
  rcases lt_or_ge m ts.length with hm | hm
  · simpa [hm] using h _ (List.getElem_mem hm)
  · simp [List.getElem?_eq_none hm, Issued, nodeId]

/-- A finished expression is put under a new operator, and keeps its identity. -/
def wrap (a : Arena α) (node : Val α) (op : Op) : Arena α :=
  let (a, dup) := dupNode a node
  updateExprNode a node (some op) [dup]

/-- A new operator in the place of a term of a node. -/
def insertOp (a : Arena α) (node : Val α) (index : ℕ) (op : Op) (terms : List (Val α)) : Arena α :=
  let (a, out) := newNodeUnder a (some op) terms (some node)
  setTerm a node index out

/-- A new node in an expression, which then stands in one of its nodes. -/
theorem spliced_of_rewrites {a₁ a₂ : Arena α} {n k : ℕ} {terms ts : List (Val α)} {e : ℕ}
    {old : List ℕ} (h₁ : Allocates a a₁ p R n terms) (h₂ : Counts a₁ a₂ (.node e) k)
    (h₃ : Rewrites a₂ a' e ts) (he : rootId a (.node e) ≠ none)
    (hplace : ∃ l r, links a e = l ++ old ++ r ∧ liveNodes a₂ ts = l ++ p :: r) :
    Links.Spliced (links a) (links a') e p old (liveNodes a terms) := by
  have hne : e ≠ p := by
    rintro rfl
    rw [h₁.next, rootId_next] at he
    exact he rfl
  obtain ⟨hf, hb, ho, hu⟩ := h₁.rooted
  refine ⟨hf, hb, hne, fun i hie hip => ?_, ?_, ?_⟩
  · rw [h₃.other i hie, h₂.links, h₁.other i hip]
  · obtain ⟨l, r, hl, hr⟩ := hplace
    exact ⟨l, r, hl, by rw [h₃.site, hr]⟩
  · rw [h₃.other p (Ne.symm hne), h₂.links, h₁.site]

theorem Gains.rewrites {a₁ a₂ : Arena α} {n : ℕ} {w : Val α} {ts : List (Val α)} {e : ℕ}
    (h₁ : Gains a a₁ p R n) (h₂ : Counts a₁ a₂ w 0) (h₃ : Rewrites a₂ a' e ts) :
    Gains a a' p R n where
  last := h₃.last.trans (h₂.last.trans h₁.last)
  next := h₁.next
  root := fun i => (h₃.root i).trans ((h₂.root i).trans (h₁.root i))
  size := fun i => by
    rw [h₃.size, h₂.size, h₁.size]
    split_ifs <;> rfl
  sane := h₃.sane

theorem Issued.mono (h : Issued a t) (hle : a.nodes.last ≤ a'.nodes.last) : Issued a' t :=
  fun i hi => (h i hi).trans hle

/-- A node takes the new node of its own expression in, and is rewritten. -/
theorem effect_of_write {a₁ : Arena α} {n : ExprNode α} {e k : ℕ} {terms ts : List (Val α)}
    {old : List ℕ} (write : ExprNode α → ExprNode α) (hn : a.nodes.cell e = some n)
    (h₁ : Allocates a a₁ p n.root k terms)
    (hwrite : ∀ c, c.terms = n.terms →
      (write c).root = c.root ∧ (write c).size = c.size ∧ (write c).terms = ts)
    (hts : ∀ w ∈ ts, w = .node p ∨ Issued a w)
    (hplace : ∃ l r, links a e = l ++ old ++ r ∧ liveNodes a₁ ts = l ++ p :: r) :
    Gains a (withNodeMut (adopt a₁ (.node e) (.node p)) (.node e) write) p n.root k ∧
      Links.Spliced (links a) (links (withNodeMut (adopt a₁ (.node e) (.node p)) (.node e) write)) e p
        old (liveNodes a terms) := by
  have hroot : rootId a (.node e) = some n.root := by rw [rootId_node, hn]; rfl
  have hle : e ≤ a.nodes.last := Store.le_last hn
  have hep : e ≠ p := by have := h₁.next; omega
  have hroot₁ : rootId a₁ (.node e) = some n.root := by rw [h₁.root, if_neg hep, hroot]
  have h₂ := counts_adopt h₁.sane hroot₁ (.node p)
  rw [share_eq_zero (Or.inr (by rw [h₁.root, if_pos rfl]))] at h₂
  cases hc : (adopt a₁ (.node e) (.node p)).nodes.cell e with
  | none =>
    have := h₂.root e
    rw [rootId_eq_none.2 hc, hroot₁] at this
    cases this
  | some c =>
    have hterms : c.terms = n.terms := by
      have := (h₂.terms e).trans (h₁.held e hep)
      simpa [termsOf, hc, hn] using this
    obtain ⟨hr, hs, ht⟩ := hwrite c hterms
    have h₃ := rewrites_withNodeMut write h₂.sane hc hr hs (by
      rw [ht]
      intro w hw j hj
      rw [h₂.last, h₁.last]
      rcases hts w hw with rfl | hw
      · cases hj
        exact le_rfl
      · have := hw j hj
        have := h₁.next
        omega)
    rw [ht] at h₃
    refine ⟨h₁.toGains.rewrites h₂ h₃, spliced_of_rewrites h₁ h₂ h₃ (by simp [hroot]) ?_⟩
    rwa [h₂.liveNodes]

/-- Putting an expression under a new operator. -/
theorem wrap_effect {n : ExprNode α} {e : ℕ} (h : Sane a) (hn : a.nodes.cell e = some n) (op : Op) :
    Gains a (wrap a (.node e) op) (a.nodes.last + 1) n.root
        (1 + (n.terms.map (share a n.root)).sum) ∧
      Links.Spliced (links a) (links (wrap a (.node e) op)) e (a.nodes.last + 1) (links a e)
        (links a e) := by
  have hroot : rootId a (.node e) = some n.root := by rw [rootId_node, hn]; rfl
  have hlinks : links a e = liveNodes a n.terms := by rw [links, termsOf, hn]; rfl
  have h₁ := allocates_newNodeUnder h n.op (h.issued e n hn) (some (.node e)) (R := n.root)
    (by rw [Option.bind_some, hroot]; rfl)
  have hlive : rootId (newNodeUnder a n.op n.terms (some (.node e))).1
      (.node (a.nodes.last + 1)) ≠ none := by
    rw [h₁.root, if_pos rfl]
    simp
  have hplace : ∃ l r, links a e = l ++ links a e ++ r ∧
      liveNodes (newNodeUnder a n.op n.terms (some (.node e))).1
        [(.node (a.nodes.last + 1) : Val α)] = l ++ (a.nodes.last + 1) :: r :=
    ⟨[], [], by simp, by rw [liveNodes_node hlive]; rfl⟩
  have := effect_of_write
    (fun c => { c with op := some op, terms := [.node (a.nodes.last + 1)] })
    hn h₁ (fun _ _ => ⟨rfl, rfl, rfl⟩) (fun w hw => Or.inl (List.mem_singleton.1 hw)) hplace
  rw [← hlinks] at this
  have hw : wrap a (.node e) op = withNodeMut
      (adopt (newNodeUnder a n.op n.terms (some (.node e))).1 (.node e) (.node (a.nodes.last + 1)))
      (.node e) fun c => { c with op := some op, terms := [.node (a.nodes.last + 1)] } := by
    simp [wrap, dupNode, nodeId, hn, newNodeUnder_snd, updateExprNode, adoptAll]
  rw [hw]
  exact this

/-- Putting a new operator in the place of a term. -/
theorem insertOp_effect {n : ExprNode α} {e k : ℕ} {terms : List (Val α)} (h : Sane a)
    (hn : a.nodes.cell e = some n) (hterms : ∀ w ∈ terms, Issued a w) (op : Op) :
    Gains a (insertOp a (.node e) k op terms) (a.nodes.last + 1) n.root
        (1 + (terms.map (share a n.root)).sum) ∧
      Links.Spliced (links a) (links (insertOp a (.node e) k op terms)) e (a.nodes.last + 1)
        (liveNodes a [termAt a (.node e) k]) (liveNodes a terms) := by
  have hroot : rootId a (.node e) = some n.root := by rw [rootId_node, hn]; rfl
  have hlinks : links a e = liveNodes a n.terms := by rw [links, termsOf, hn]; rfl
  have hslot : termAt a (.node e) k = n.terms.getD (k - 1) .undefined := by
    simp [termAt, nodeId, hn]
  have h₁ := allocates_newNodeUnder h (some op) hterms (some (.node e)) (R := n.root)
    (by rw [Option.bind_some, hroot]; rfl)
  have hlive : rootId (newNodeUnder a (some op) terms (some (.node e))).1
      (.node (a.nodes.last + 1)) ≠ none := by
    rw [h₁.root, if_pos rfl]
    simp
  obtain ⟨l, r, hl, hr⟩ := liveNodes_setAt
    (a := (newNodeUnder a (some op) terms (some (.node e))).1) n.terms (k - 1) (.node (a.nodes.last + 1))
  have hissued := h.issued e n hn
  have hslotIssued : ∀ w ∈ [n.terms.getD (k - 1) .undefined], Issued a w := fun w hw => by
    rw [List.mem_singleton.1 hw]
    exact issued_getD hissued _
  rw [h₁.liveNodes hissued, h₁.liveNodes hslotIssued] at hl
  have hplace : ∃ l r, links a e = l ++ liveNodes a [termAt a (.node e) k] ++ r ∧
      liveNodes (newNodeUnder a (some op) terms (some (.node e))).1
        (Ts.setAt n.terms (k - 1) (.node (a.nodes.last + 1))) = l ++ (a.nodes.last + 1) :: r :=
    ⟨l, r, by rw [hlinks, hl, hslot], by rw [hr, liveNodes_node hlive, List.append_assoc]; rfl⟩
  have hts : ∀ w ∈ Ts.setAt n.terms (k - 1) (.node (a.nodes.last + 1)),
      w = .node (a.nodes.last + 1) ∨ Issued a w := by
    intro w hw
    rcases mem_setAt hw with rfl | rfl | hw
    · exact Or.inl rfl
    · exact Or.inr fun i hi => by cases hi
    · exact Or.inr (hissued w hw)
  exact effect_of_write
    (fun c => { c with terms := Ts.setAt c.terms (k - 1) (.node (a.nodes.last + 1)) })
    hn h₁ (fun c hc => ⟨rfl, rfl, by rw [← hc]⟩) hts hplace

/-- What pushing a term on a node does: its expression `R` is counted `n` larger. -/
structure Pushed (a a' : Arena α) (e R n : ℕ) (more : List ℕ) : Prop where
  last : a'.nodes.last = a.nodes.last
  root : ∀ i, rootId a' (.node i) = rootId a (.node i)
  size : ∀ i, size a' i = size a i + if i = R then n else 0
  other : ∀ i, i ≠ e → links a' i = links a i
  site : links a' e = links a e ++ more
  sane : Sane a'

theorem pushTerm_effect {n : ExprNode α} {e : ℕ} (h : Sane a) (hn : a.nodes.cell e = some n)
    (ht : Issued a t) :
    Pushed a (pushTerm a (.node e) t) e n.root (share a n.root t) (liveNodes a [t]) := by
  have hroot : rootId a (.node e) = some n.root := by rw [rootId_node, hn]; rfl
  have h₁ := counts_adopt h hroot t
  cases hc : (adopt a (.node e) t).nodes.cell e with
  | none =>
    have := h₁.root e
    rw [rootId_eq_none.2 hc, hroot] at this
    cases this
  | some c =>
    have hterms : c.terms = n.terms := by simpa [termsOf, hc, hn] using h₁.terms e
    have h₂ := rewrites_withNodeMut (fun c => { c with terms := c.terms ++ [t] }) h₁.sane hc
      rfl rfl (by
        rw [hterms]
        intro w hw
        have hle : a.nodes.last ≤ (adopt a (.node e) t).nodes.last := h₁.last.ge
        rcases List.mem_append.1 hw with hw | hw
        · exact (h.issued e n hn w hw).mono hle
        · rw [List.mem_singleton.1 hw]
          exact ht.mono hle)
    refine ⟨h₂.last.trans h₁.last, fun i => (h₂.root i).trans (h₁.root i), fun i => ?_,
      fun i hi => by rw [pushTerm, h₂.other i hi, h₁.links], ?_, h₂.sane⟩
    · rw [pushTerm, h₂.size, h₁.size, hroot]
      simp only [Option.some_inj, eq_comm]
    · rw [pushTerm, h₂.site, h₁.liveNodes, liveNodes_append, hterms, links, termsOf, hn]
      rfl

theorem withNodeMut_of_root_eq_none (h : rootId a v = none) (write : ExprNode α → ExprNode α) :
    withNodeMut a v write = a := by
  cases v with
  | undefined | atom => rfl
  | node i =>
    have hc := rootId_eq_none.1 h
    show ({ a with nodes := a.nodes.modify i write } : Arena α) = a
    rw [Store.modify_of_none hc]

theorem adopt_of_root_eq_none (h : rootId a v = none) (t : Val α) : adopt a v t = a := by
  simp [adopt, h]

/-- Pushing a term on what is no node of the arena. -/
theorem pushTerm_of_root_eq_none (h : rootId a v = none) (t : Val α) : pushTerm a v t = a := by
  rw [pushTerm, adopt_of_root_eq_none h, withNodeMut_of_root_eq_none h]

theorem wrap_of_root_eq_none (h : rootId a v = none) (op : Op) : wrap a v op = a := by
  have hd : dupNode a v = (a, v) := by
    cases v with
    | undefined | atom => rfl
    | node i => simp [dupNode, nodeId, rootId_eq_none.1 h]
  simp only [wrap, hd, updateExprNode, adoptAll, List.foldl_cons, List.foldl_nil,
    adopt_of_root_eq_none h, withNodeMut_of_root_eq_none h]

/-! ## `prattify` -/

/-- An operator goes around the whole expression `exprOp` heads. -/
def GoesAround (exprOp op : Op) : Prop :=
  op.kind = .infixOp ∧ (exprOp.kind = .suffixOp ∨ op.left ≤ exprOp.right) ∨
    op.kind = .suffixOp ∧ ¬ (exprOp.kind ≠ .suffixOp ∧ exprOp.right ≤ op.left)

instance (exprOp op : Op) : Decidable (GoesAround exprOp op) :=
  inferInstanceAs (Decidable (_ ∨ _))

/-- An operator goes down to the last term of a node. -/
def goesDown (a : Arena α) (last : Val α) (op : Op) : Bool :=
  match op.kind with
  | .infixOp => (opOf a last).any fun lastOp => lastOp.right < op.left
  | .suffixOp => (opOf a last).any fun lastOp => lastOp.kind = .prefixOp ∧ lastOp.right < op.left
  | _ => false

/-- The node `prattify` writes to. -/
def siteFrom : ℕ → Arena α → Val α → Op → Val α
  | 0, _, expr, _ => expr
  | fuel + 1, a, expr, op =>
    match opOf a expr with
    | none => expr
    | some exprOp =>
      if ¬ GoesAround exprOp op ∧ goesDown a (termAt a expr exprOp.terms) op = true then
        siteFrom fuel a (termAt a expr exprOp.terms) op
      else expr

def site (a : Arena α) (expr : Val α) (op : Op) : Val α := siteFrom (a.nodes.last + 1) a expr op

/-- A new operator at a node. -/
def embed (a : Arena α) (expr : Val α) (exprOp op : Op) : Arena α :=
  match op.kind with
  | .ternaryOp | .parenOp => a
  | _ =>
    if GoesAround exprOp op then wrap a expr op
    else insertOp a expr exprOp.terms op
      (if op.kind = .prefixOp then [] else [termAt a expr exprOp.terms])

/-- `prattify` goes down to a node and embeds the operator there. -/
theorem prattifyFrom_eq {fuel : ℕ} {op : Op} {r : Arena α × Val α}
    (h : prattifyFrom fuel a v op = some r) :
    r.1 = match opOf a (siteFrom fuel a v op) with
      | none => a
      | some exprOp => embed a (siteFrom fuel a v op) exprOp op := by
  induction fuel generalizing v r with
  | zero => cases h
  | succ fuel ih =>
    rw [prattifyFrom] at h
    rw [siteFrom]
    cases hq : opOf a v with
    | none =>
      rw [hq] at h
      cases h
      simp [hq]
    | some exprOp =>
      rw [hq] at h
      cases hk : op.kind with
      | ternaryOp | parenOp =>
        simp only [hk, Option.some.injEq] at h
        subst h
        simp [GoesAround, goesDown, hk, hq, embed]
      | prefixOp =>
        simp only [hk, Option.some.injEq] at h
        subst h
        simp [GoesAround, goesDown, hk, hq, embed, insertOp]
      | infixOp =>
        simp only [hk] at h
        have hdown : goesDown a (termAt a v exprOp.terms) op =
            (opOf a (termAt a v exprOp.terms)).any fun lastOp => lastOp.right < op.left := by
          rw [goesDown, hk]
        by_cases hw : exprOp.kind = .suffixOp ∨ op.left ≤ exprOp.right
        · have haround : GoesAround exprOp op := Or.inl ⟨hk, hw⟩
          rw [if_pos hw] at h
          cases h
          simp [haround, hq, embed, hk, wrap]
        · have haround : ¬ GoesAround exprOp op := by simp [GoesAround, hk, hw]
          rw [if_neg hw, ← hdown] at h
          by_cases hd : goesDown a (termAt a v exprOp.terms) op = true
          · rw [if_pos hd] at h
            simpa only [if_pos (And.intro haround hd)] using ih h
          · rw [if_neg hd] at h
            cases h
            simp [haround, hd, hq, embed, hk, insertOp]
      | suffixOp =>
        simp only [hk] at h
        have hdown : goesDown a (termAt a v exprOp.terms) op =
            (opOf a (termAt a v exprOp.terms)).any fun lastOp =>
              lastOp.kind = .prefixOp ∧ lastOp.right < op.left := by
          rw [goesDown, hk]
        by_cases hw : exprOp.kind ≠ .suffixOp ∧ exprOp.right ≤ op.left
        · have haround : ¬ GoesAround exprOp op := by simp [GoesAround, hk, hw]
          rw [if_pos hw, ← hdown] at h
          by_cases hd : goesDown a (termAt a v exprOp.terms) op = true
          · rw [if_pos hd, Option.map_eq_some_iff] at h
            rcases h with ⟨s, hs, rfl⟩
            simpa only [if_pos (And.intro haround hd)] using ih hs
          · rw [if_neg hd] at h
            cases h
            simp [haround, hd, hq, embed, hk, insertOp]
        · have haround : GoesAround exprOp op := Or.inr ⟨hk, hw⟩
          rw [if_neg hw] at h
          cases h
          simp [haround, hq, embed, hk, wrap]

/-- The terms a new operator takes at a node. -/
def taken (a : Arena α) (e : ℕ) (exprOp op : Op) : List (Val α) :=
  if GoesAround exprOp op then termsOf a e
  else if op.kind = .prefixOp then [] else [termAt a (.node e) exprOp.terms]

/-- The terms of a node whose place a new operator takes. -/
def replaced (a : Arena α) (e : ℕ) (exprOp op : Op) : List (Val α) :=
  if GoesAround exprOp op then termsOf a e else [termAt a (.node e) exprOp.terms]

theorem issued_termAt (h : Sane a) (v : Val α) (k : ℕ) : Issued a (termAt a v k) := by
  unfold termAt
  cases v with
  | undefined | atom => exact fun i hi => by cases hi
  | node e =>
    cases hc : a.nodes.cell e with
    | none => exact fun i hi => by simp [nodeId, hc] at hi
    | some n => simpa [nodeId, hc] using issued_getD (h.issued e n hc) (k - 1)

theorem mem_links_of_termAt {e k : ℕ} (h : termAt a (.node e) k = .node j)
    (hlive : rootId a (.node j) ≠ none) : j ∈ links a e := by
  refine mem_liveNodes.2 ⟨?_, hlive⟩
  cases hn : a.nodes.cell e with
  | none => simp [termAt, nodeId, hn] at h
  | some n =>
    rw [termsOf, hn, Option.map_some, Option.getD_some, ← h]
    rcases lt_or_ge (k - 1) n.terms.length with hlt | hge
    · simp [termAt, nodeId, hn, hlt]
    · simp [termAt, nodeId, hn, List.getElem?_eq_none hge] at h

/-- The nodes a new operator takes are links of the node it is embedded at. -/
theorem mem_links_of_mem_taken {e : ℕ} {exprOp op : Op}
    (hj : j ∈ liveNodes a (taken a e exprOp op)) : j ∈ links a e := by
  obtain ⟨hmem, hlive⟩ := mem_liveNodes.1 hj
  unfold taken at hmem
  split_ifs at hmem
  · exact mem_liveNodes.2 ⟨hmem, hlive⟩
  · cases hmem
  · exact mem_links_of_termAt (List.mem_singleton.1 hmem).symm hlive

/-- What embedding an operator at a node does. -/
theorem embed_effect (h : Sane a) {exprOp : Op} (hq : opOf a v = some exprOp) (op : Op) :
    embed a v exprOp op = a ∨ ∃ e n, v = .node e ∧ a.nodes.cell e = some n ∧
      Gains a (embed a v exprOp op) (a.nodes.last + 1) n.root
        (1 + ((taken a e exprOp op).map (share a n.root)).sum) ∧
      Links.Spliced (links a) (links (embed a v exprOp op)) e (a.nodes.last + 1)
        (liveNodes a (replaced a e exprOp op)) (liveNodes a (taken a e exprOp op)) := by
  cases v with
  | undefined | atom => cases hq
  | node e =>
    cases hn : a.nodes.cell e with
    | none => simp [opOf, nodeId, hn] at hq
    | some n =>
      have hterms : termsOf a e = n.terms := by rw [termsOf, hn]; rfl
      unfold embed
      split
      · exact Or.inl rfl
      · exact Or.inl rfl
      · refine Or.inr ⟨e, n, rfl, hn, ?_⟩
        unfold taken replaced
        split_ifs with ha hp
        · rw [hterms]
          have := wrap_effect h hn op
          rwa [links, hterms] at this
        · exact insertOp_effect h hn (fun w hw => by cases hw) op
        · refine insertOp_effect h hn (fun w hw => ?_) op
          rw [List.mem_singleton.1 hw]
          exact issued_termAt h _ _

/-! ## Runs of calls -/

/-- The calls on expression nodes that rule actions make. -/
inductive Call (α : Type*) where
  /-- `op.node(terms)`. -/
  | node (op : Op) (terms : List (Val α))
  /-- `dup_node(expr)`, and `update_expr_node(expr, op, [the copy])`. -/
  | wrap (expr : Val α) (op : Op)
  | prattify (expr : Val α) (op : Op)
  | pushTerm (expr value : Val α)
  deriving DecidableEq

/-- The arena after a call, if the call returns. -/
def Call.run (a : Arena α) : Call α → Option (Arena α)
  | .node op terms => some (newNode a (some op) terms).1
  | .wrap expr op => some (Rust.wrap a expr op)
  | .prattify expr op => (Rust.prattify a expr op).map Prod.fst
  | .pushTerm expr value => some (Rust.pushTerm a expr value)

/-- The values handed to a call are issued. -/
def Call.Issued (a : Arena α) : Call α → Prop
  | .node _ terms => ∀ v ∈ terms, Rust.Issued a v
  | .wrap expr _ => Rust.Issued a expr
  | .prattify expr _ => Rust.Issued a expr
  | .pushTerm expr value => Rust.Issued a expr ∧ Rust.Issued a value

/-- The calls of a run, each made with issued values where a condition holds. -/
inductive Run (Sound : Arena α → Call α → Prop) (a₀ : Arena α) : Arena α → Prop
  | start : Run Sound a₀ a₀
  | call {a a' : Arena α} {c : Call α} (h : Run Sound a₀ a) (hissued : c.Issued a)
      (hsound : Sound a c) (hrun : c.run a = some a') : Run Sound a₀ a'

instance (a : Arena α) (v : Val α) : Decidable (Issued a v) :=
  inferInstanceAs (Decidable (∀ i ∈ nodeId v, i ≤ a.nodes.last))

instance (a : Arena α) (c : Call α) : Decidable (c.Issued a) :=
  match c with
  | .node _ terms => inferInstanceAs (Decidable (∀ v ∈ terms, Rust.Issued a v))
  | .wrap expr _ => inferInstanceAs (Decidable (Rust.Issued a expr))
  | .prattify expr _ => inferInstanceAs (Decidable (Rust.Issued a expr))
  | .pushTerm expr value =>
    inferInstanceAs (Decidable (Rust.Issued a expr ∧ Rust.Issued a value))

/-- A list of calls, as long as each is made with issued values where the condition holds. -/
def runAll (Sound : Arena α → Call α → Prop) [∀ a c, Decidable (Sound a c)] (a : Arena α) :
    List (Call α) → Option (Arena α)
  | [] => some a
  | c :: cs =>
    if c.Issued a ∧ Sound a c then (c.run a).bind fun a => runAll Sound a cs else none

theorem Run.of_runAll {Sound : Arena α → Call α → Prop} [∀ a c, Decidable (Sound a c)]
    {a₀ : Arena α} {cs : List (Call α)} (h : Run Sound a₀ a) (hcs : runAll Sound a cs = some a') :
    Run Sound a₀ a' := by
  induction cs generalizing a with
  | nil =>
    cases hcs
    exact h
  | cons c cs ih =>
    rw [runAll] at hcs
    split_ifs at hcs with hc
    obtain ⟨b, hb, hcs⟩ := Option.bind_eq_some_iff.1 hcs
    exact ih (h.call hc.1 hc.2 hb) hcs

/-- A call changes nothing, adds a node that nothing links to, puts a new node in an expression
between one of its nodes and terms of that node, or pushes a term on a node. -/
inductive Effect (a a' : Arena α) : Call α → Prop
  | idle {c : Call α} (h : a' = a) : Effect a a' c
  | node {op : Op} {terms : List (Val α)}
      (hgains : Gains a a' (a.nodes.last + 1) (a.nodes.last + 1)
        ((terms.map (share a (a.nodes.last + 1))).sum))
      (hlinks : Links.Rooted (links a) (links a') (a.nodes.last + 1) (liveNodes a terms)) :
      Effect a a' (.node op terms)
  | wrap {e : ℕ} {n : ExprNode α} {op : Op} (hn : a.nodes.cell e = some n)
      (hgains : Gains a a' (a.nodes.last + 1) n.root (1 + (n.terms.map (share a n.root)).sum))
      (hlinks : Links.Spliced (links a) (links a') e (a.nodes.last + 1) (links a e) (links a e)) :
      Effect a a' (.wrap (.node e) op)
  | prattify {e : ℕ} {n : ExprNode α} {exprOp op : Op} {expr : Val α}
      (hsite : site a expr op = .node e) (hn : a.nodes.cell e = some n) (hop : n.op = some exprOp)
      (hgains : Gains a a' (a.nodes.last + 1) n.root
        (1 + ((taken a e exprOp op).map (share a n.root)).sum))
      (hlinks : Links.Spliced (links a) (links a') e (a.nodes.last + 1)
        (liveNodes a (replaced a e exprOp op)) (liveNodes a (taken a e exprOp op))) :
      Effect a a' (.prattify expr op)
  | pushTerm {e : ℕ} {n : ExprNode α} {t : Val α} (hn : a.nodes.cell e = some n)
      (h : Pushed a a' e n.root (share a n.root t) (liveNodes a [t])) :
      Effect a a' (.pushTerm (.node e) t)

/-- What a call does. -/
theorem Call.effect {c : Call α} (h : Sane a) (hissued : c.Issued a) (hrun : c.run a = some a') :
    Effect a a' c := by
  cases c with
  | node op terms =>
    cases hrun
    have := allocates_newNodeUnder h (some op) hissued none (R := a.nodes.last + 1) rfl
    have hgains := this.toGains
    rw [Option.isSome_none, if_neg Bool.false_ne_true, Nat.zero_add] at hgains
    exact .node hgains this.rooted
  | wrap expr op =>
    cases hrun
    cases hr : rootId a expr with
    | none => exact .idle (wrap_of_root_eq_none hr op)
    | some R =>
      cases expr with
      | undefined | atom => cases hr
      | node e =>
        obtain ⟨n, hn, -⟩ := Option.map_eq_some_iff.1 ((rootId_node e).symm.trans hr)
        obtain ⟨hgains, hlinks⟩ := wrap_effect h hn op
        exact .wrap hn hgains hlinks
  | prattify expr op =>
    obtain ⟨r, hr, rfl⟩ := Option.map_eq_some_iff.1 hrun
    have heq := prattifyFrom_eq hr
    rw [heq]
    cases hq : opOf a (siteFrom (a.nodes.last + 1) a expr op) with
    | none => exact .idle rfl
    | some exprOp =>
      rcases embed_effect h hq op with hidle | ⟨e, n, he, hn, hgains, hlinks⟩
      · exact .idle hidle
      · have hop : n.op = some exprOp := by
          rw [he] at hq
          simpa [opOf, nodeId, hn] using hq
        exact .prattify he hn hop hgains hlinks
  | pushTerm expr t =>
    cases hrun
    cases hr : rootId a expr with
    | none => exact .idle (pushTerm_of_root_eq_none hr t)
    | some R =>
      cases expr with
      | undefined | atom => cases hr
      | node e =>
        obtain ⟨n, hn, -⟩ := Option.map_eq_some_iff.1 ((rootId_node e).symm.trans hr)
        exact .pushTerm hn (pushTerm_effect h hn hissued.2)

theorem Effect.sane {c : Call α} (h : Sane a) (he : Effect a a' c) : Sane a' := by
  cases he with
  | idle h' => rwa [h']
  | node hgains _ => exact hgains.sane
  | wrap _ hgains _ => exact hgains.sane
  | prattify _ _ _ hgains _ => exact hgains.sane
  | pushTerm _ h' => exact h'.sane

theorem Run.sane {Sound : Arena α → Call α → Prop} {a₀ : Arena α} (h₀ : Sane a₀)
    (h : Run Sound a₀ a) : Sane a := by
  induction h with
  | start => exact h₀
  | call _ hissued _ hrun ih => exact (Call.effect ih hissued hrun).sane ih

end TabnasExpr.Rust
