import TabnasExpr.Rust.Calls

/-!
# The node budget and the size of an expression

The Rust port refuses a document when the size recorded at the root of an expression passes
`NODE_LIMIT`.  A node that is built inside an expression counts every term of another expression it is
given, also one that the expression has taken in before: an operator behind a paren that stands in a
paren counts the inner expression once more, and the recorded size doubles with every level.  In a run
where no node is counted again, and no counted node is overwritten, the recorded size is at most the
number of nodes of the tree.
-/

namespace TabnasExpr.Rust

open OpTree

variable {α : Type*} {a a' a₀ : Arena α} {v t : Val α} {R : ℕ}

/-- A value takes the nodes of no other expression along, in the expression of a node. -/
def Within (a : Arena α) (expr t : Val α) : Prop := ∀ R ∈ rootId a t, rootId a expr = some R

/-- A value is no part of an expression, but a whole one if it is a node. -/
def Whole (a : Arena α) (t : Val α) : Prop := ∀ R ∈ rootId a t, nodeId t = some R

/-- A call that counts every node once: what is taken into another expression is a whole expression, a
node that is built inside an expression is given terms of that expression only, and a prefix operator
is put where no node stands. -/
def Once (a : Arena α) : Call α → Prop
  | .node _ terms => ∀ t ∈ terms, Whole a t
  | .wrap expr _ => ∀ e ∈ nodeId expr, ∀ t ∈ termsOf a e, Within a expr t
  | .prattify expr op =>
    ∀ e ∈ nodeId (site a expr op), ∀ exprOp ∈ opOf a (.node e),
      (∀ t ∈ taken a e exprOp op, Within a (.node e) t) ∧
        (op.kind = .prefixOp → rootId a (termAt a (.node e) exprOp.terms) = none)
  | .pushTerm expr value => Within a expr value ∨ Whole a value

instance (a : Arena α) (v t : Val α) : Decidable (Within a v t) :=
  inferInstanceAs (Decidable (∀ R ∈ rootId a t, rootId a v = some R))

instance (a : Arena α) (t : Val α) : Decidable (Whole a t) :=
  inferInstanceAs (Decidable (∀ R ∈ rootId a t, nodeId t = some R))

instance (a : Arena α) (c : Call α) : Decidable (Once a c) :=
  match c with
  | .node _ terms => inferInstanceAs (Decidable (∀ t ∈ terms, Whole a t))
  | .wrap expr _ =>
    inferInstanceAs (Decidable (∀ e ∈ nodeId expr, ∀ t ∈ termsOf a e, Within a expr t))
  | .prattify expr op =>
    inferInstanceAs (Decidable (∀ e ∈ nodeId (site a expr op), ∀ exprOp ∈ opOf a (.node e),
      (∀ t ∈ taken a e exprOp op, Within a (.node e) t) ∧
        (op.kind = .prefixOp → rootId a (termAt a (.node e) exprOp.terms) = none)))
  | .pushTerm expr value => inferInstanceAs (Decidable (Within a expr value ∨ Whole a value))

/-- The recorded size of an expression is at most the number of nodes of its tree, every node stands
in the tree of its root, and only roots are counted at. -/
structure Honest (a : Arena α) : Prop where
  counted : ∀ R, rootId a (.node R) = some R → ∃ k, size a R ≤ Links.count (links a) k R
  reached : ∀ i R, rootId a (.node i) = some R → Links.Reaches (links a) R i
  inner : ∀ i R, rootId a (.node i) = some R → i ≠ R → size a i = 1

theorem Cleared.honest (h : Cleared a) : Honest a where
  counted := fun R hR => by simp [rootId_node, h.1] at hR
  reached := fun i R hi => by simp [rootId_node, h.1] at hi
  inner := fun i R hi => by simp [rootId_node, h.1] at hi

theorem share_of_within {n : ExprNode α} {e : ℕ} (hn : a.nodes.cell e = some n)
    (h : Within a (.node e) t) : share a n.root t = 0 := by
  cases ht : rootId a t with
  | none => exact share_eq_zero (Or.inl ht)
  | some R =>
    have hR := h R ht
    rw [rootId_node, hn, Option.map_some, Option.some_inj] at hR
    exact share_eq_zero (Or.inr (by rw [hR, ht]))

theorem sum_share_of_within {n : ExprNode α} {e : ℕ} {terms : List (Val α)}
    (hn : a.nodes.cell e = some n) (h : ∀ t ∈ terms, Within a (.node e) t) :
    (terms.map (share a n.root)).sum = 0 := by
  rw [List.sum_eq_zero_iff]
  intro x hx
  rcases List.mem_map.1 hx with ⟨t, ht, rfl⟩
  exact share_of_within hn (h t ht)

/-- A whole expression that is taken in adds no more than the nodes of its tree. -/
theorem Honest.share_le (h : Honest a) (hw : Whole a t) (S : ℕ) :
    ∃ k, share a S t ≤ ((liveNodes a [t]).map (Links.count (links a) k)).sum := by
  cases ht : rootId a t with
  | none => exact ⟨0, by simp [share_eq_zero (Or.inl ht)]⟩
  | some R =>
    cases t with
    | undefined | atom => cases ht
    | node i =>
      have hi := hw R ht
      cases hi
      obtain ⟨k, hk⟩ := h.counted _ ht
      refine ⟨k, ?_⟩
      rw [liveNodes_node (by simp [ht]), List.map_singleton, List.sum_singleton]
      unfold share
      split_ifs
      · exact Nat.zero_le _
      · rwa [expressionSize_eq ht]

theorem Honest.sum_share_le (h : Honest a) {terms : List (Val α)} (hw : ∀ t ∈ terms, Whole a t)
    (S : ℕ) : ∃ k, (terms.map (share a S)).sum ≤
      ((liveNodes a terms).map (Links.count (links a) k)).sum := by
  induction terms with
  | nil => exact ⟨0, le_rfl⟩
  | cons t terms ih =>
    obtain ⟨k, hk⟩ := h.share_le (hw t List.mem_cons_self) S
    obtain ⟨m, hm⟩ := ih fun x hx => hw x (List.mem_cons_of_mem t hx)
    refine ⟨max k m, ?_⟩
    have hk' : ((liveNodes a [t]).map (Links.count (links a) k)).sum ≤
        ((liveNodes a [t]).map (Links.count (links a) (max k m))).sum :=
      Links.sum_map_le fun j _ => Links.count_mono j (le_max_left k m)
    have hm' : ((liveNodes a terms).map (Links.count (links a) m)).sum ≤
        ((liveNodes a terms).map (Links.count (links a) (max k m))).sum :=
      Links.sum_map_le fun j _ => Links.count_mono j (le_max_right k m)
    rw [liveNodes_cons, List.map_cons, List.sum_cons, List.map_append, List.sum_append]
    omega

theorem Honest.node (h : Honest a) {terms : List (Val α)}
    (hw : ∀ t ∈ terms, Whole a t)
    (hgains : Gains a a' (a.nodes.last + 1) (a.nodes.last + 1)
      ((terms.map (share a (a.nodes.last + 1))).sum))
    (hlinks : Links.Rooted (links a) (links a') (a.nodes.last + 1) (liveNodes a terms)) :
    Honest a' := by
  have hold : ∀ i R, i ≠ a.nodes.last + 1 → rootId a' (.node i) = some R →
      rootId a (.node i) = some R := fun i R hi hR => by rwa [hgains.root, if_neg hi] at hR
  have hroot : rootId a' (.node (a.nodes.last + 1)) = some (a.nodes.last + 1) := by
    rw [hgains.root, if_pos rfl]
  refine ⟨fun R hR => ?_, fun i R hR => ?_, fun i R hR hne => ?_⟩
  · by_cases hi : R = a.nodes.last + 1
    · obtain ⟨k, hk⟩ := h.sum_share_le hw (a.nodes.last + 1)
      have hnew : a.nodes.last + 1 ∉ liveNodes a terms := fun hmem =>
        (mem_liveNodes.1 hmem).2 rootId_next
      refine ⟨k + 1, ?_⟩
      rw [hi, hgains.size, if_pos rfl, if_pos rfl, hlinks.count_root hnew]
      omega
    · obtain ⟨k, hk⟩ := h.counted R (hold R R hi hR)
      refine ⟨k, ?_⟩
      rwa [hgains.size, if_neg hi, if_neg hi, hlinks.count_eq k hi]
  · by_cases hi : i = a.nodes.last + 1
    · rw [hi, hroot] at hR
      cases hR
      rw [hi]
      exact Relation.ReflTransGen.refl
    · exact hlinks.reaches (h.reached i R (hold i R hi hR))
  · by_cases hi : i = a.nodes.last + 1
    · rw [hi, hroot] at hR
      cases hR
      exact absurd hi hne
    · rw [hgains.size, if_neg hi, if_neg hi]
      exact h.inner i R (hold i R hi hR) hne

/-- A new node between a node and terms of it is counted, and stands in the tree, once. -/
theorem Honest.spliced (h : Honest a) (ha : Sane a) {e : ℕ} {js : List ℕ}
    (he : rootId a (.node e) = some R) (hgains : Gains a a' (a.nodes.last + 1) R 1)
    (hlinks : Links.Spliced (links a) (links a') e (a.nodes.last + 1) js js) : Honest a' := by
  have hold : ∀ i S, i ≠ a.nodes.last + 1 → rootId a' (.node i) = some S →
      rootId a (.node i) = some S := fun i S hi hS => by rwa [hgains.root, if_neg hi] at hS
  have hroot : rootId a' (.node (a.nodes.last + 1)) = some R := by
    rw [hgains.root, if_pos rfl]
  have hR := ha.root_ne_next he
  refine ⟨fun S hS => ?_, fun i S hS => ?_, fun i S hS hne => ?_⟩
  · have hi : S ≠ a.nodes.last + 1 := by
      rintro rfl
      rw [hroot] at hS
      cases hS
      exact hR rfl
    obtain ⟨k, hk⟩ := h.counted S (hold S S hi hS)
    rw [hgains.size, if_neg hi]
    by_cases hSR : S = R
    · subst hSR
      obtain ⟨K, hK⟩ := hlinks.count_lt (h.reached e S he) hi
      have hmono := Links.count_mono (f := links a) S (le_max_right K k)
      have hgain := hK (max K k) (le_max_left K k)
      refine ⟨2 * max K k, ?_⟩
      rw [if_pos rfl]
      omega
    · refine ⟨2 * k, ?_⟩
      rw [if_neg hSR]
      exact hk.trans (hlinks.count_le k hi)
  · by_cases hi : i = a.nodes.last + 1
    · rw [hi, hroot] at hS
      cases hS
      rw [hi]
      exact (hlinks.reaches (h.reached e R he)).tail hlinks.mem_site
    · exact hlinks.reaches (h.reached i S (hold i S hi hS))
  · by_cases hi : i = a.nodes.last + 1
    · rw [hi, hgains.size, if_pos rfl, if_neg (Ne.symm hR)]
    · have hS' := hold i S hi hS
      have hiR : i ≠ R := by
        rintro rfl
        have := ha.rooted e i he
        rw [hS', Option.some_inj] at this
        exact hne this.symm
      rw [hgains.size, if_neg hi, if_neg hiR]
      exact h.inner i S hS' hne

/-- A push of a value of the expression itself, of a whole expression, or of no node. -/
theorem Honest.pushed (h : Honest a) (ha : Sane a) {e n : ℕ} (he : rootId a (.node e) = some R)
    (hp : Pushed a a' e R n (liveNodes a [t]))
    (hn : n = 0 ∨ ∃ F, t = .node F ∧ rootId a t = some F ∧ n = size a F) : Honest a' := by
  have hroot : ∀ {i S}, rootId a' (.node i) = some S → rootId a (.node i) = some S :=
    fun hS => (hp.root _).symm.trans hS
  -- the links stay, or the node gains one
  have hlinks : (∀ i k, Links.count (links a) k i ≤ Links.count (links a') k i) ∧
      ∀ i j, Links.Reaches (links a) i j → Links.Reaches (links a') i j := by
    cases ht : rootId a t with
    | none =>
      have hnil := liveNodes_of_root_eq_none ht
      have heq : links a' = links a := by
        funext i
        by_cases hi : i = e
        · rw [hi, hp.site, hnil, List.append_nil]
        · exact hp.other i hi
      rw [heq]
      exact ⟨fun _ _ => le_rfl, fun _ _ => id⟩
    | some F =>
      cases t with
      | undefined | atom => cases ht
      | node j =>
        have hatt : Links.Attached (links a) (links a') e j :=
          ⟨hp.other, by rw [hp.site, liveNodes_node (by simp [ht])]⟩
        exact ⟨fun i k => hatt.count_le k i, fun i j => hatt.reaches⟩
  refine ⟨fun S hS => ?_, fun i S hS => hlinks.2 _ _ (h.reached i S (hroot hS)),
    fun i S hS hne => ?_⟩
  · obtain ⟨k, hk⟩ := h.counted S (hroot hS)
    rw [hp.size]
    by_cases hSR : S = R
    · subst hSR
      rw [if_pos rfl]
      rcases hn with rfl | ⟨F, rfl, hF, rfl⟩
      · exact ⟨k, hk.trans (hlinks.1 S k)⟩
      · have hatt : Links.Attached (links a) (links a') e F :=
          ⟨hp.other, by rw [hp.site, liveNodes_node (by simp [hF])]⟩
        obtain ⟨m, hm⟩ := h.counted F hF
        obtain ⟨K, hK⟩ := hatt.count_add (h.reached e S he) m
        have hgain := hK (max K k) (le_max_left K k)
        have hmono := Links.count_mono (f := links a) S (le_max_right K k)
        exact ⟨max K k, by omega⟩
    · rw [if_neg hSR]
      exact ⟨k, hk.trans (hlinks.1 S k)⟩
  · have hiR : i ≠ R := by
      rintro rfl
      have := ha.rooted e i he
      rw [hroot hS, Option.some_inj] at this
      exact hne this.symm
    rw [hp.size, if_neg hiR]
    exact h.inner i S (hroot hS) hne

/-- A call that counts every node once keeps the recorded sizes under the sizes of the trees. -/
theorem Honest.effect {c : Call α} (h : Honest a) (ha : Sane a) (hc : Once a c)
    (he : Effect a a' c) : Honest a' := by
  cases he with
  | idle h' => rwa [h']
  | node hgains hlinks => exact h.node hc hgains hlinks
  | @wrap e n op hn hgains hlinks =>
    have hroot : rootId a (.node e) = some n.root := by rw [rootId_node, hn]; rfl
    have hwithin : ∀ t ∈ n.terms, Within a (.node e) t := fun t ht =>
      hc e rfl t (by rw [termsOf, hn]; exact ht)
    rw [sum_share_of_within hn hwithin] at hgains
    exact h.spliced ha hroot hgains hlinks
  | @prattify e n exprOp op expr hsite hn hop hgains hlinks =>
    have hroot : rootId a (.node e) = some n.root := by rw [rootId_node, hn]; rfl
    have hopOf : opOf a (.node e) = some exprOp := by simp [opOf, nodeId, hn, hop]
    obtain ⟨hwithin, hslot⟩ := hc e (by rw [hsite]; rfl) exprOp hopOf
    rw [sum_share_of_within hn hwithin] at hgains
    have hsame : liveNodes a (replaced a e exprOp op) = liveNodes a (taken a e exprOp op) := by
      unfold replaced taken
      split_ifs with haround hprefix
      · rfl
      · exact liveNodes_of_root_eq_none (hslot hprefix)
      · rfl
    rw [hsame] at hlinks
    exact h.spliced ha hroot hgains hlinks
  | @pushTerm e n t hn hp =>
    have hroot : rootId a (.node e) = some n.root := by rw [rootId_node, hn]; rfl
    refine h.pushed ha hroot hp ?_
    rcases hc with hwithin | hwhole
    · exact Or.inl (share_of_within hn hwithin)
    · cases ht : rootId a t with
      | none => exact Or.inl (share_eq_zero (Or.inl ht))
      | some F =>
        by_cases hF : F = n.root
        · exact Or.inl (share_eq_zero (Or.inr (by rw [ht, hF])))
        · refine Or.inr ⟨F, ?_, rfl, ?_⟩
          · cases t with
            | undefined | atom => cases ht
            | node i => rw [Option.some_inj.1 (hwhole F ht)]
          · rw [share, if_neg (by simpa [ht] using hF), expressionSize_eq ht]

theorem Run.honest (h₀ : Cleared a₀) (h : Run Once a₀ a) : Honest a := by
  induction h with
  | start => exact h₀.honest
  | call h hissued hsound hrun ih =>
    have ha := h.sane h₀.sane
    exact ih.effect ha hsound (Call.effect ha hissued hrun)

/-- The size recorded at the root of an expression is at most the number of nodes of its tree, and the
limit is passed only when an expression has more nodes than the limit. -/
theorem size_le_count (h₀ : Cleared a₀) (h : Run Once a₀ a) :
    (∀ R, rootId a (.node R) = some R → ∃ k, size a R ≤ Links.count (links a) k R) ∧
      (a.overLimit = true → ∃ R, rootId a (.node R) = some R ∧
        ∃ k, NODE_LIMIT < Links.count (links a) k R) := by
  have hh := h.honest h₀
  have ha := h.sane h₀.sane
  refine ⟨hh.counted, fun hover => ?_⟩
  obtain ⟨i, hi⟩ := ha.flag.1 hover
  cases hr : rootId a (.node i) with
  | none =>
    rw [size_of_rootId_eq_none hr] at hi
    cases hi
  | some R =>
    by_cases hiR : i = R
    · subst hiR
      obtain ⟨k, hk⟩ := hh.counted i hr
      exact ⟨i, hr, k, hi.trans_le hk⟩
    · rw [hh.inner i R hr hiR] at hi
      exact absurd hi (by decide)

/-- A binary and a paren operator of the runs below. -/
def plus : Op := ⟨"addition", "+", .infixOp, 2000000, 2100000⟩

def paren : Op := ⟨"plain", "(", .parenOp, minSafeInteger, maxSafeInteger⟩

theorem size_le_count_run : ∃ a ∈ runAll Once (emptyArena : Arena ℕ)
    [.node paren [.atom 1], .prattify (.node 1) plus, .pushTerm (.node 1) (.atom 1),
      .node paren [.node 1]],
    (∀ R, rootId a (.node R) = some R → ∃ k, size a R ≤ Links.count (links a) k R) ∧
      (a.overLimit = true → ∃ R, rootId a (.node R) = some R ∧
        ∃ k, NODE_LIMIT < Links.count (links a) k R) := by
  have hrun : ∃ a ∈ runAll Once (emptyArena : Arena ℕ)
      [.node paren [.atom 1], .prattify (.node 1) plus, .pushTerm (.node 1) (.atom 1),
        .node paren [.node 1]], a.overLimit = false := by decide +kernel
  obtain ⟨a, ha, -⟩ := hrun
  exact ⟨a, ha, size_le_count cleared_emptyArena (Run.start.of_runAll ha)⟩

/-- The calls of `((1)+1)+1` and so on, a dozen parens deep. -/
def nestedParens : List (Call ℕ) :=
  (List.range 12).flatMap fun i =>
    [.node paren [if i = 0 then .atom 1 else .node (2 * i - 1)], .prattify (.node (2 * i + 1)) plus,
      .pushTerm (.node (2 * i + 1)) (.atom 1)]

/-- Two dozen nodes are over the limit. -/
theorem nestedParens_over_limit :
    ∃ a ∈ runAll (fun _ _ => True) (emptyArena : Arena ℕ) nestedParens, a.overLimit = true ∧
      ∀ k i, Links.count (links a) k i ≤ 24 := by
  have hrun : ∃ a ∈ runAll (fun _ _ => True) (emptyArena : Arena ℕ) nestedParens,
      a.overLimit = true ∧ ∀ i < a.nodes.last + 1,
        Links.count (links a) 25 i ≤ Links.count (links a) 24 i ∧
          Links.count (links a) 24 i ≤ 24 := by
    decide +kernel
  obtain ⟨a, ha, hover, hcount⟩ := hrun
  -- past the last node there are no links
  have hpast : ∀ i, a.nodes.last < i → ∀ k, Links.count (links a) (k + 1) i = 1 := by
    intro i hi k
    have hnil : links a i = [] := by
      rw [links, termsOf, a.nodes.fresh i hi]
      rfl
    simp [Links.count, hnil]
  have hstable : ∀ i, Links.count (links a) 25 i ≤ Links.count (links a) 24 i := by
    intro i
    rcases lt_or_ge a.nodes.last i with hi | hi
    · rw [hpast i hi, hpast i hi]
    · exact (hcount i (by omega)).1
  refine ⟨a, ha, hover, fun k i => (Links.count_le_of_stable hstable k i).trans ?_⟩
  rcases lt_or_ge a.nodes.last i with hi | hi
  · rw [hpast i hi]
    decide
  · exact (hcount i (by omega)).2

end TabnasExpr.Rust
