import TabnasExpr.Rust.Calls

/-!
# The node budget and the depth of an expression

A tree is never deeper than it is large, and the Rust port bounds what it builds by the size recorded
at the root of an expression.  The size of an expression is copied when another expression takes it in,
and not kept up to date after: an expression that grows once it has been taken in makes the other one
deeper than its own size says.  In a run of `node` and `prattify` calls without such a step the rank of
a node stays under the size recorded at its root.
-/

namespace TabnasExpr.Rust

open OpTree

variable {α : Type*} {a a' a₀ : Arena α} {rank : ℕ → ℕ} {p R : ℕ}

/-- A node of another expression has a node of this expression as a term. -/
def TakenIn (a : Arena α) (R : ℕ) : Prop :=
  ∃ i, rootId a (.node i) ≠ some R ∧ ∃ j ∈ links a i, rootId a (.node j) = some R

theorem takenIn_iff : TakenIn a R ↔ ∃ i < a.nodes.last + 1, rootId a (.node i) ≠ some R ∧
    ∃ j ∈ links a i, rootId a (.node j) = some R := by
  refine ⟨fun ⟨i, hi, j, hj, hR⟩ => ⟨i, ?_, hi, j, hj, hR⟩, fun ⟨i, _, hi⟩ => ⟨i, hi⟩⟩
  by_contra hlt
  rw [links, termsOf, a.nodes.fresh i (by omega)] at hj
  cases hj

instance (a : Arena α) (R : ℕ) : Decidable (TakenIn a R) := decidable_of_iff _ takenIn_iff.symm

/-- A `node` call, or a `prattify` call. -/
def Call.Builds : Call α → Prop
  | .node _ _ => True
  | .prattify _ _ => True
  | _ => False

instance (c : Call α) : Decidable c.Builds :=
  match c with
  | .node _ _ => inferInstanceAs (Decidable True)
  | .prattify _ _ => inferInstanceAs (Decidable True)
  | .wrap _ _ => inferInstanceAs (Decidable False)
  | .pushTerm _ _ => inferInstanceAs (Decidable False)

/-- A `node` call, or a `prattify` call that grows an expression no other expression has taken in. -/
def Contained (a : Arena α) : Call α → Prop
  | .node _ _ => True
  | .prattify expr op => ∀ R ∈ rootId a (site a expr op), ¬ TakenIn a R
  | _ => False

instance (a : Arena α) (c : Call α) : Decidable (Contained a c) :=
  match c with
  | .node _ _ => inferInstanceAs (Decidable True)
  | .prattify expr op =>
    inferInstanceAs (Decidable (∀ R ∈ rootId a (site a expr op), ¬ TakenIn a R))
  | .wrap _ _ => inferInstanceAs (Decidable False)
  | .pushTerm _ _ => inferInstanceAs (Decidable False)

/-- Ranks that fall along the links and stay under the recorded sizes. -/
structure Bounded (a : Arena α) (rank : ℕ → ℕ) : Prop where
  ranked : Links.Ranked (links a) rank
  size : ∀ i R, rootId a (.node i) = some R → rank i < size a R
  last : ∀ i, rank i ≤ a.nodes.last

theorem Cleared.bounded (h : Cleared a) : Bounded a fun _ => 0 where
  ranked := fun i j hj => by
    have : links a i = [] := by
      rw [links, termsOf, h.1]
      rfl
    rw [this] at hj
    cases hj
  size := fun i R hi => by
    rw [rootId_node, h.1] at hi
    cases hi
  last := fun _ => Nat.zero_le _

/-- The rank of a new node: above the ranks of its terms. -/
def rankOver (rank : ℕ → ℕ) (js : List ℕ) : ℕ := (js.map fun j => rank j + 1).foldr max 0

theorem rankOver_le {js : List ℕ} {b : ℕ} (h : ∀ j ∈ js, rank j < b) : rankOver rank js ≤ b := by
  refine List.max_le_of_forall_le _ _ fun d hd => ?_
  rcases List.mem_map.1 hd with ⟨j, hj, rfl⟩
  exact h j hj

theorem lt_rankOver {js : List ℕ} {j : ℕ} (h : j ∈ js) : rank j < rankOver rank js :=
  List.le_max_of_le (List.mem_map_of_mem (f := fun j => rank j + 1) h) le_rfl

theorem Bounded.node (h : Bounded a rank) (ha : Sane a) {terms : List (Val α)}
    (hgains : Gains a a' (a.nodes.last + 1) (a.nodes.last + 1)
      ((terms.map (share a (a.nodes.last + 1))).sum))
    (hlinks : Links.Rooted (links a) (links a') (a.nodes.last + 1) (liveNodes a terms)) :
    ∃ rank', Bounded a' rank' := by
  have hnew : a.nodes.last + 1 ∉ liveNodes a terms := fun hmem => (mem_liveNodes.1 hmem).2 rootId_next
  -- what a term brings along is more than its rank
  have hterm : ∀ j ∈ liveNodes a terms,
      rank j < (terms.map (share a (a.nodes.last + 1))).sum := by
    intro j hj
    obtain ⟨hmem, hlive⟩ := mem_liveNodes.1 hj
    obtain ⟨R, hR⟩ := Option.ne_none_iff_exists'.1 hlive
    have hshare : share a (a.nodes.last + 1) (.node j) = Rust.size a R := by
      rw [Rust.share, if_neg, expressionSize_eq hR]
      rw [hR, Option.some_inj]
      exact ha.root_ne_next hR
    calc rank j < Rust.size a R := h.size j R hR
      _ = share a (a.nodes.last + 1) (.node j) := hshare.symm
      _ ≤ _ := List.single_le_sum (fun _ _ => Nat.zero_le _) _ (List.mem_map_of_mem hmem)
  refine ⟨Function.update rank (a.nodes.last + 1) (rankOver rank (liveNodes a terms)),
    hlinks.ranked h.ranked hnew fun j hj => lt_rankOver hj, fun i R hi => ?_, fun i => ?_⟩
  · rw [hgains.root] at hi
    rw [hgains.size]
    by_cases hip : i = a.nodes.last + 1
    · rw [if_pos hip] at hi
      cases hi
      have := rankOver_le hterm
      rw [hip, Function.update_self, if_pos rfl, if_pos rfl]
      omega
    · rw [if_neg hip] at hi
      have := ha.root_ne_next hi
      have := h.size i R hi
      rw [Function.update_of_ne hip, if_neg ‹_›]
      omega
  · rw [hgains.last]
    by_cases hip : i = a.nodes.last + 1
    · rw [hip, Function.update_self]
      exact rankOver_le fun j _ => by have := h.last j; omega
    · rw [Function.update_of_ne hip]
      have := h.last i
      omega

theorem Bounded.prattify (h : Bounded a rank) (ha : Sane a) {e n : ℕ} {old new : List ℕ}
    (he : rootId a (.node e) = some R) (hfree : ¬ TakenIn a R) (hnew : ∀ j ∈ new, j ∈ links a e)
    (hgains : Gains a a' (a.nodes.last + 1) R (1 + n))
    (hlinks : Links.Spliced (links a) (links a') e (a.nodes.last + 1) old new) :
    ∃ rank', Bounded a' rank' := by
  have hclosed : ∀ i, i ≠ a.nodes.last + 1 → rootId a (.node i) ≠ some R →
      ∀ j ∈ links a i, rootId a (.node j) ≠ some R :=
    fun i _ hi j hj hjR => hfree ⟨i, hi, j, hj, hjR⟩
  have hR := ha.root_ne_next he
  refine ⟨Links.bump rank (fun i => rootId a (.node i) = some R) e (a.nodes.last + 1),
    hlinks.ranked h.ranked hnew he hclosed, fun i S hi => ?_, fun i => ?_⟩
  · rw [hgains.root] at hi
    rw [hgains.size]
    by_cases hip : i = a.nodes.last + 1
    · rw [if_pos hip] at hi
      cases hi
      have := h.size e R he
      rw [hip, Links.bump, if_pos rfl, if_neg hR, if_pos rfl]
      omega
    · rw [if_neg hip] at hi
      have := ha.root_ne_next hi
      have := h.size i S hi
      rw [if_neg ‹_›]
      by_cases hS : S = R
      · have := Links.bump_le rank (fun i => rootId a (.node i) = some R) e hip
        rw [if_pos hS]
        omega
      · have hne : rootId a (.node i) ≠ some R := by
          rw [hi]
          simpa using hS
        rw [Links.bump_of_not hip hne]
        omega
  · rw [hgains.last]
    by_cases hip : i = a.nodes.last + 1
    · have := h.last e
      rw [hip, Links.bump, if_pos rfl]
      omega
    · have := h.last i
      have := Links.bump_le rank (fun i => rootId a (.node i) = some R) e hip
      omega

/-- A call that grows no expression taken in keeps the ranks under the recorded sizes. -/
theorem Bounded.effect {c : Call α} (h : Bounded a rank) (ha : Sane a) (hc : Contained a c)
    (he : Effect a a' c) : ∃ rank', Bounded a' rank' := by
  cases he with
  | idle h' => exact ⟨rank, by rwa [h']⟩
  | node hgains hlinks => exact h.node ha hgains hlinks
  | wrap => cases hc
  | @prattify e n exprOp op expr hsite hn hop hgains hlinks =>
    have hroot : rootId a (.node e) = some n.root := by rw [rootId_node, hn]; rfl
    exact h.prattify ha hroot (hc n.root (by rw [hsite, hroot]; rfl)) (fun j => mem_links_of_mem_taken)
      hgains hlinks
  | pushTerm => cases hc

theorem Run.bounded (h₀ : Cleared a₀) (h : Run Contained a₀ a) : ∃ rank, Bounded a rank := by
  induction h with
  | start => exact ⟨_, h₀.bounded⟩
  | call h hissued hsound hrun ih =>
    obtain ⟨rank, hb⟩ := ih
    have ha := h.sane h₀.sane
    exact hb.effect ha hsound (Call.effect ha hissued hrun)

/-- A descent that follows the ranks ends within its fuel. -/
theorem prattifyFrom_isSome (h : Links.Ranked (links a) rank) (op : Op) {fuel : ℕ} {v : Val α}
    (hv : ∀ e ∈ nodeId v, rank e < fuel) (hfuel : 0 < fuel) :
    (prattifyFrom fuel a v op).isSome = true := by
  induction fuel generalizing v with
  | zero => cases hfuel
  | succ fuel ih =>
    -- an expression at a term lies lower
    have hdown : ∀ (q : Op → Bool) (k : ℕ), (opOf a (termAt a v k)).any q = true →
        (prattifyFrom fuel a (termAt a v k) op).isSome = true := by
      intro q k hany
      obtain ⟨last, hlast, -⟩ := (Option.any_eq_true _ _).1 hany
      have hlive := rootId_ne_none_of_opOf hlast
      cases ht : termAt a v k with
      | undefined | atom =>
        rw [ht] at hlive
        exact absurd rfl hlive
      | node j =>
        cases v with
        | undefined | atom => cases ht
        | node e =>
          rw [ht] at hlive
          have hlt := h e j (mem_links_of_termAt ht hlive)
          have := hv e rfl
          refine ih (fun i hi => ?_) (by omega)
          cases hi
          omega
    rw [prattifyFrom]
    cases hq : opOf a v with
    | none => rfl
    | some exprOp =>
      cases op.kind with
      | infixOp =>
        dsimp only
        split_ifs with hw hd
        · rfl
        · exact hdown _ _ hd
        · rfl
      | suffixOp =>
        dsimp only
        split_ifs with hw hd
        · rw [Option.isSome_map]
          exact hdown _ _ hd
        · rfl
        · rfl
      | prefixOp | ternaryOp | parenOp => rfl

/-- On an arena whose ranks are bounded `prattify` returns. -/
theorem Bounded.prattify_isSome (h : Bounded a rank) (v : Val α) (op : Op) :
    (Rust.prattify a v op).isSome = true :=
  prattifyFrom_isSome h.ranked op (fun e _ => Nat.lt_succ_of_le (h.last e)) (Nat.succ_pos _)

/-- As long as no expression is past the limit, no tree is deeper than the limit. -/
theorem depth_le_node_limit (h₀ : Cleared a₀) (h : Run Contained a₀ a) (hover : a.overLimit = false)
    (k i : ℕ) :
    Links.depth (links a) k i ≤ NODE_LIMIT := by
  obtain ⟨rank, hb⟩ := h.bounded h₀
  have ha := h.sane h₀.sane
  have hdepth := Links.depth_le_of_ranked hb.ranked k i
  cases hr : rootId a (.node i) with
  | some R =>
    have := hb.size i R hr
    have := ha.size_le hover R
    omega
  | none =>
    have hnil : links a i = [] := by
      rw [links, termsOf, rootId_eq_none.1 hr]
      rfl
    cases k with
    | zero => exact Nat.zero_le _
    | succ k =>
      simp [Links.depth, hnil, NODE_LIMIT]

/-- The suffix operator of the runs below. -/
def bang : Op := ⟨"factorial", "!", .suffixOp, 15000, minSafeInteger⟩

theorem depth_le_node_limit_run : ∃ a ∈ runAll Contained (emptyArena : Arena ℕ)
    [.node bang [], .prattify (.node 1) bang, .node bang [.node 1], .prattify (.node 3) bang],
    a.overLimit = false ∧ ∀ k i, Links.depth (links a) k i ≤ NODE_LIMIT := by
  have hrun : ∃ a ∈ runAll Contained (emptyArena : Arena ℕ)
      [.node bang [], .prattify (.node 1) bang, .node bang [.node 1], .prattify (.node 3) bang],
      a.overLimit = false := by decide +kernel
  obtain ⟨a, ha, hover⟩ := hrun
  exact ⟨a, ha, hover, depth_le_node_limit cleared_emptyArena (Run.start.of_runAll ha) hover⟩

/-- One expression takes in another, which is then grown up to the limit. -/
def growTakenIn : List (Call ℕ) :=
  .node bang [] :: .node bang [.node 1] :: List.replicate 126 (.prattify (.node 1) bang)

theorem growTakenIn_deep :
    ∃ a ∈ runAll (fun _ c => c.Builds) (emptyArena : Arena ℕ) growTakenIn, a.overLimit = false ∧
      Links.depth (links a) 128 2 = 128 := by
  decide +kernel

theorem depth_exceeds_limit : ¬ ∀ a : Arena ℕ, Run (fun _ c => c.Builds) emptyArena a →
    a.overLimit = false → ∀ k i, Links.depth (links a) k i ≤ NODE_LIMIT := by
  intro h
  obtain ⟨a, ha, hover, hdepth⟩ := growTakenIn_deep
  have := h a (Run.start.of_runAll ha) hover 128 2
  rw [hdepth] at this
  exact absurd this (by decide)

end TabnasExpr.Rust
