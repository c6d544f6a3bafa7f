import TabnasExpr.Rules.Level

/-!
# The rules read every expression

After a complete expression an infix operator is attached to its tree and waits for an operand, and a
suffix operator goes onto the attachment node.  With the operands this gives the runs of all
expressions (`Expr.runs`).
-/

namespace TabnasExpr.Rules

open OpTree OpTree.Tree Ts Machine

universe u v

variable {σ : Type v} {α : Type u} {evaluate : Option (Evaluator σ α)} {owns : σ → ℕ → Prop}

/-! ## Where the next operator goes -/

section Entered

variable {m : Machine σ α} {Y : ℕ} {S : List ℕ} {toks rest : List (Sym Op α)} {r : Rule α} {o : Op}
  {v : Val α} {q : ℕ × Op}

/-- The next operator goes into no operand of a tree. -/
theorem avoids_entered {T : Tree Op (Val α)} (hat : At m Y .opening S toks)
    (hY : m.rules.cell Y = some r) (hn : r.name = .expr) (hsafe : Safe evaluate m)
    (hl : Leaves (Fit (Scalar evaluate) m.world) T) : Avoids (m.entered r) T := by
  refine hl.mono fun v hv i hi he => ?_
  rcases hsafe with hscalar | hsound
  · obtain ⟨a, rfl⟩ := hv.2 hscalar
    cases he
  · exact ((hsound m .refl) r (hat.cur.symm ▸ hY)).1 hat.phase hn i hi (hv.1 i he)

theorem entered_inf (ht : m.tokens = .inf o :: rest) (hq : opAt m.world.heap (m.node r.parent) = some q) :
    m.entered r = descent m.world.heap o (m.world.heap.last + 1) q.1 := by
  simp [entered, ht, hq]

theorem entered_inf_prev (ht : m.tokens = .inf o :: rest) (hp : m.node r.parent = .undefined)
    (hq : opAt m.world.heap (m.node r.prev) = some q) :
    m.entered r = descent m.world.heap o (m.world.heap.last + 1) q.1 := by
  simp [entered, ht, hp, hq, opAt.eq_2]

theorem entered_suf (ht : m.tokens = .suf o :: rest) (hq : opAt m.world.heap (m.node r.prev) = some q) :
    m.entered r = descent m.world.heap o (m.world.heap.last + 1) q.1 := by
  simp [entered, ht, hq]

/-- A value that the next operator would go into is none that it avoids. -/
theorem opAt_eq_none (h : Avoids (m.entered r) (leaf v))
    (hq : ∀ q, opAt m.world.heap v = some q →
      m.entered r = descent m.world.heap o (m.world.heap.last + 1) q.1) :
    opAt m.world.heap v = none := by
  cases hv : opAt m.world.heap v with
  | none => rfl
  | some q => exact absurd (node_of_opAt hv) (h q.1 (by rw [hq q hv]; exact mem_descent_self))

end Entered

/-! ## The next operator -/

section Next

variable {base : Store (Rule α)} {m : Machine σ α} {V c : ℕ} {S : List ℕ} {rest : List (Sym Op α)}
  {t : Tree (ℕ × Op) (Val α)} {d : ℕ} {o : Op} {tokens : List (Sym Op α)}

/-- The `expr` rule `Y` of the next operator replaced the rule `R`.  Its parent holds the tree, or
holds nothing and `R` does. -/
structure Replaced (evaluate : Option (Evaluator σ α)) (base : Store (Rule α)) (m : Machine σ α)
    (V Y R p : ℕ) (n : Counters) (S : List ℕ) (tokens : List (Sym Op α)) (t : Tree (ℕ × Op) (Val α))
    (d : ℕ) : Prop where
  at_opening : At m Y .opening S tokens
  expr : m.rules.cell Y = some (.start .expr (handle (edgeAt d t)) n p R)
  exprPrefix_eq : n.exprPrefix = 0
  prev : m.node R = handle (edgeAt d t)
  first : ∃ r, m.rules.cell V = some r ∧ r.name = .val ∧ r.node = handle t
  keeps : Keeps base m.rules V
  fresh : base.cell Y = none ∧ (R = V ∨ base.cell R = none)
  ne : Y ≠ V ∧ R ≠ Y ∧ p ≠ Y ∧ p ≠ R
  parent : (Blank m.rules p ∧ p ≠ V ∧ d = 0 ∧ (evaluate ≠ none → R = V) ∧
      (evaluate ≠ none → endsAt tokens = true → ∃ v, t = leaf v) ∧
      (R = V ∨ ∃ q, rootOp t = some q)) ∨
    (m.node p = handle t ∧ (∃ q, rootOp (edgeAt d t) = some q) ∧ (evaluate ≠ none → p = V))

/-- The next infix or suffix operator takes over. -/
theorem Level.replaces (h : Level evaluate owns base m V c S tokens t d)
    (htok : tokens = .inf o :: rest ∨ tokens = .suf o :: rest) :
    ∃ m' Y R p n, m.step evaluate = some m' ∧ Replaced evaluate base m' V Y R p n S tokens t d ∧
      n.exprParen = c ∧ m'.world = m.world := by
  obtain ⟨hk, ⟨rV, hV, hVn, hVt⟩, -, R, r, hat, hr, hR, hnode, hc, hlast⟩ := h
  -- Both kinds of rules leave a record that differs in the counters only.
  obtain ⟨n, hpre, hparen, hstep⟩ : ∃ n : Counters, n.exprPrefix = 0 ∧ n.exprParen = c ∧
      m.step evaluate = some (m.replace { r with n := n } .expr) := by
    rcases hlast with ⟨-, hn, hexpr, -⟩ | ⟨hn, hexpr, hpre, -, -, hchild, -⟩
    · obtain ⟨n, hpre, hparen, hs⟩ := step_val_next evaluate hat hr hn hexpr htok
      exact ⟨n, hpre, hparen.trans hc, hs⟩
    · exact ⟨r.n, hpre, hc, step_expr_next hat hr hn hchild hpre hexpr htok⟩
  obtain ⟨hat', hY, hR', hk'⟩ := at_replace .expr (r := { r with n := n }) hat hr
  have hV' : ∃ r', (m.replace { r with n := n } .expr).rules.cell V = some r' ∧ r'.name = .val ∧
      r'.node = handle t := by
    by_cases hRV : V = R
    · subst hRV
      cases hr.symm.trans hV
      exact ⟨_, hR', hVn, hVt⟩
    · exact ⟨rV, hk' V rV hRV hV, hVn, hVt⟩
  have hYV : m.rules.last + 1 ≠ V := next_ne hV
  have hYR : R ≠ m.rules.last + 1 := (next_ne hr).symm
  have hk₂ := hk.trans hk' hR
  have hfresh : base.cell (m.rules.last + 1) = none := by
    by_contra hne
    obtain ⟨r', hr'⟩ := Option.ne_none_iff_exists'.1 hne
    simpa [m.rules.cell_next] using hk _ r' hYV hr'
  have hne : r.parent ≠ R ∧ r.parent ≠ m.rules.last + 1 := by
    rcases hlast with ⟨hRV, -, -, -, hblank, hpV, -⟩ | ⟨-, -, -, -, hpR, -, ⟨q, hq⟩,
      ⟨hp, -⟩ | ⟨-, hblank, -⟩⟩
    · exact ⟨hRV ▸ hpV, hblank.ne_next⟩
    · obtain ⟨rp, hrp, -⟩ := exists_rule hp (rootOp_of_edgeAt hq)
      exact ⟨hpR, (next_ne hrp).symm⟩
    · exact ⟨hpR, hblank.ne_next⟩
  refine ⟨_, m.rules.last + 1, R, r.parent, n, hstep, ⟨hat', hnode ▸ hY, hpre,
    (node_eq hR').trans hnode, hV', hk₂, ⟨hfresh, hR⟩, ⟨hYV, hYR, hne.2, hne.1⟩, ?_⟩, hparen, rfl⟩
  rcases hlast with ⟨hRV, -, -, hd, hblank, hpV, hleaf⟩ | ⟨-, -, -, -, -, -, ⟨q, hq⟩, hparent⟩
  · exact Or.inl ⟨hblank.keeps hk' hne.1, hpV, hd, fun _ => hRV, hleaf, Or.inl hRV⟩
  · have hroot := rootOp_of_edgeAt hq
    rcases hparent with ⟨hp, hE⟩ | ⟨hE, hblank, hpV, hd⟩
    · obtain ⟨rp, hrp, hrpt⟩ := exists_rule hp hroot
      exact Or.inr ⟨(node_eq (hk' _ rp hne.1 hrp)).trans hrpt, ⟨q, hq⟩, hE⟩
    · exact Or.inl ⟨hblank.keeps hk' hne.1, hpV, hd, fun hE' => absurd hE hE', fun hE' => absurd hE hE',
        Or.inr hroot⟩

/-- The rule `Y` of an operator has the tree `t` above it and waits at the node `i`: the `val` rule
`W` of the operand starts. -/
structure Due (evaluate : Option (Evaluator σ α)) (owns : σ → ℕ → Prop) (base : Store (Rule α))
    (m : Machine σ α) (V Y W A i : ℕ) (n : Counters) (S : List ℕ) (rest : List (Sym Op α))
    (t : Tree (ℕ × Op) (Val α)) (d : ℕ) : Prop where
  at_opening : At m W .opening (Y :: S) rest
  operand : m.rules.cell W = some (.start .val (.node i) n Y 0)
  expr : ∃ r, m.rules.cell Y = some r ∧ r.name = .expr ∧ r.node = .node i ∧ r.n = n ∧ r.parent = A ∧
    r.child = W
  first : ∃ r, m.rules.cell V = some r ∧ r.name = .val ∧ r.node = handle t
  above : ∃ r, m.rules.cell A = some r ∧ r.node = handle t
  only : evaluate ≠ none → A = V
  keeps : Keeps base m.rules V
  fresh : base.cell Y = none ∧ base.cell W = none
  ne : Y ≠ V ∧ A ≠ Y ∧ W ≠ V ∧ W ≠ Y ∧ W ≠ A
  stands : Stands (Scalar evaluate) owns m.world t
  due : DueAt d i t

/-- The operator takes its token, and the rule of its operand starts. -/
theorem due_of_push {m : Machine σ α} {Y A i d : ℕ} {r r₀ : Rule α} {t : Tree (ℕ × Op) (Val α)}
    (hat : At m Y .opening S tokens) (hY : m.rules.cell Y = some r₀) (hr : r.name = .expr)
    (hi : r.node = .node i) (hA : r.parent = A)
    (hV : ∃ r, m.rules.cell V = some r ∧ r.name = .val ∧ r.node = handle t)
    (habove : ∃ r, m.rules.cell A = some r ∧ r.node = handle t) (hAV : evaluate ≠ none → A = V)
    (hk : Keeps base m.rules V) (hf : base.cell Y = none) (hne : Y ≠ V ∧ A ≠ Y)
    (ht : Stands (Scalar evaluate) owns m.world t) (hd : DueAt d i t) (rest : List (Sym Op α)) :
    Due evaluate owns base ((m.push r .val).withTokens rest) V Y (m.rules.last + 1) A i r.n S rest t d := by
  obtain ⟨hat', hW, hY', hk'⟩ := at_pushVal (r := r) hat hY rest
  obtain ⟨rV, hV, hVn, hVt⟩ := hV
  obtain ⟨rA, hA', hAt⟩ := habove
  have hWf : base.cell (m.rules.last + 1) = none := by
    by_contra hb
    obtain ⟨r', hr'⟩ := Option.ne_none_iff_exists'.1 hb
    simpa [m.rules.cell_next] using hk _ r' (next_ne hV) hr'
  refine ⟨hat', hi ▸ hW, ⟨_, hY', hr, hi, rfl, hA, rfl⟩, ⟨rV, hk' V rV hne.1.symm hV, hVn, hVt⟩,
    ⟨rA, hk' A rA hne.2 hA', hAt⟩, hAV, ?_, ⟨hf, hWf⟩,
    ⟨hne.1, hne.2, next_ne hV, next_ne hY, next_ne hA'⟩, ht, hd⟩
  exact hk.trans hk' (Or.inr hf)

/-- A plain value has no parent that holds it. -/
theorem not_leaf_anchored {p : ℕ} (v : Val α) :
    ¬ (m.node p = handle (leaf v) ∧ (∃ q, rootOp (edgeAt d (leaf v)) = some q) ∧
      (evaluate ≠ none → p = V)) := by
  rintro ⟨-, ⟨q, hq⟩, -⟩
  cases d <;> cases hq

/-- An infix operator is attached to the tree. -/
theorem Replaced.attaches {Y R p : ℕ} {n : Counters} {w₀ : World σ α}
    (h : Replaced evaluate base m V Y R p n S (.inf o :: rest) t d)
    (ht : Stands (Scalar evaluate) owns m.world t) (hs₀ : Since owns w₀ m.world t)
    (hsafe : Safe evaluate m) (hk : Formed (erase t) d) (ho : o.kind = .infixOp)
    (hn : NoParen (erase t)) :
    ∃ m' t' W A i, m.step evaluate = some m' ∧
      Due evaluate owns base m' V Y W A i (Counters.more n) S rest t' (attachDepth o (erase t)) ∧
      erase t' = attach o (erase t) ∧ Since owns w₀ m'.world t' ∧ m'.world.calls = m.world.calls := by
  obtain ⟨hat, hY, hpre, hprev, ⟨rV, hV, hVn, hVt⟩, hkeep, ⟨hYf, hRf⟩, ⟨hYV, hRY, hpY, hpR⟩,
    hparent⟩ := h
  have hc := complete_erase.1 hk.complete
  have havoids := avoids_entered hat hY rfl hsafe ht.leaves
  obtain ⟨v, rfl⟩ | ⟨q, hq⟩ := leaf_or_op hc
  · -- The first term is a plain value: its node is made, and the rule of the first term holds it.
    obtain ⟨hblank, -, rfl, -, -, hRV⟩ := hparent.resolve_right (not_leaf_anchored v)
    obtain rfl : R = V := hRV.resolve_right (by simp [rootOp])
    have hundef := hblank.node hat.norule
    have hv : opAt m.world.heap v = none := opAt_eq_none havoids fun q hq =>
      entered_inf_prev hat.tokens hundef ((congrArg (opAt m.world.heap) hprev).trans hq)
    have hstep := step_expr_inf_first evaluate hat hY rfl hundef hprev hv ho
    let i := m.world.heap.last + 1
    let heap := (newNode m.world.heap o [v]).1
    have hV' := cell_setNode_self (m := m.setHeap heap) (v := .node i) hV
    have hids : ∀ j ∈ ids (inf (i, o) (leaf v) hole : Tree (ℕ × Op) (Val α)),
        j ∈ ids (leaf v : Tree (ℕ × Op) (Val α)) ∨ j = i := by simp [ids]
    refine ⟨_, inf (i, o) (leaf v) hole, _, R, i, hstep, due_of_push (A := R)
      (at_setNode (at_setHeap hat heap) R (.node i)) ((cell_setNode_of_ne hYV _).trans hY) rfl rfl rfl
      ⟨_, hV', hVn, rfl⟩ ⟨_, hV', rfl⟩ (fun _ => rfl) (Keeps.trans hkeep (keeps_modify _) (Or.inl rfl))
      hYf ⟨hYV, hRY⟩ (ht.alloc hs₀.marked (held_newNode_inf ht.held trivial) hids ⟨ht.leaves, trivial⟩) ?_
      rest, rfl, ?_, rfl⟩
    · exact ⟨(i, o), some (leaf v), rfl, by simp [FrontComplete, Complete], ho, rfl⟩
    · exact hs₀.alloc _ hids
  · have hj := rootId_of_root hq
    have hhandle := handle_of_rootId hj
    have hop : opAt m.world.heap (.node q.1) = some q := hhandle ▸ opAt_handle ht.held.stores hq
    have hentered : m.entered (.start .expr (handle (edgeAt d t)) n p R) =
        descent m.world.heap o (m.world.heap.last + 1) q.1 := by
      rcases hparent with ⟨hblank, -, rfl, -⟩ | ⟨hp', -⟩
      · refine entered_inf_prev hat.tokens (hblank.node hat.norule) ?_
        exact (congrArg (opAt m.world.heap) (hprev.trans hhandle)).trans hop
      · exact entered_inf hat.tokens ((congrArg (opAt m.world.heap) (hp'.trans hhandle)).trans hop)
    rw [hentered] at havoids
    obtain ⟨heap, t', out, hp, hrw, he, l, hedge⟩ := prattify_infix ht.held hq hc hk.slotted ho
      (stopsInfix_of_avoids ht.held.stores hq hc hk.slotted ho havoids ht.held.length_ids_le) (Or.inr hn)
    have hd' := dueAt_of_attach hc ho he hedge
    have hhandle' : handle t' = handle t := by
      rw [hhandle, handle_of_rootId (hrw.root.trans hj)]
    have ht' : Stands (Scalar evaluate) owns (m.setHeap heap).world t' :=
      ht.rewrites hs₀.marked hrw (by simp) (he ▸ leaves_attach o ht.leaves)
    have hV' : ∃ r, (m.setHeap heap).rules.cell V = some r ∧ r.name = .val ∧ r.node = handle t' :=
      ⟨rV, hV, hVn, hVt.trans hhandle'.symm⟩
    rcases hparent with ⟨hblank, -, rfl, hRV, -, -⟩ | ⟨hp', -, hpV⟩
    · -- The first term is an expression, which the rule before holds.
      have hstep := step_expr_inf_unary evaluate hat hY rfl (hblank.node hat.norule)
        (hprev.trans hhandle) hop hp
      obtain ⟨rR, hR, hRt⟩ := exists_rule hprev ⟨q, hq⟩
      exact ⟨_, t', _, R, out, hstep, due_of_push (A := R) (at_setHeap hat heap) hY rfl rfl rfl hV'
        ⟨rR, hR, hRt.trans hhandle'.symm⟩ hRV hkeep hYf ⟨hYV, hRY⟩ ht' hd' rest, he,
        hs₀.rewrites hrw, rfl⟩
    · have hstep := step_expr_inf evaluate hat hY rfl (hp'.trans hhandle) hop hp
      obtain ⟨rA, hA, hAt⟩ := exists_rule hp' ⟨q, hq⟩
      exact ⟨_, t', _, p, out, hstep, due_of_push (A := p) (at_setHeap hat heap) hY rfl rfl rfl hV'
        ⟨rA, hA, hAt.trans hhandle'.symm⟩ hpV hkeep hYf ⟨hYV, hpY⟩ ht' hd' rest, he,
        hs₀.rewrites hrw, rfl⟩

variable {x : Operand α} {ps : List Op}

/-- The operand is read. -/
theorem Due.level {Y W A i : ℕ} {n : Counters} {w₀ : World σ α}
    (h : Due evaluate owns base m V Y W A i (Counters.more n) S (ps.map .pre ++ x.text ++ rest) t d)
    (hE : ∀ E ∈ evaluate, Sparing E owns) (hx : x.Runs evaluate owns) (hxk : x.Kinded)
    (hps : ∀ p ∈ ps, p.kind = .prefixOp) (hf : Follows n.exprParen rest)
    (hs₀ : Since owns w₀ m.world t) (hsafe : Safe evaluate m) (hk : Pending (erase t)) :
    ∃ m' z y cs₁ cs₂, Steps evaluate m m' ∧
      Level evaluate owns base m' V n.exprParen S rest (fill z t) d ∧
      m'.world.calls = m.world.calls ++ (cs₁ ++ cs₂) ∧ x.Reads evaluate cs₁ y ∧
      erase z = prefixes ps y ∧ Repeats evaluate (endsAt rest) ps d (erase (fill z t)) cs₂ ∧
      Since owns w₀ m'.world (fill z t) := by
  obtain ⟨hat, hW, ⟨rY, hY, hYn, hYi, hYc, hYA, hYW⟩, ⟨rV, hV, hVn, hVt⟩, ⟨rA, hA, hAt⟩, hAV, hkeep,
    ⟨hYf, hWf⟩, ⟨hYV, hAY, hWV, hWY, hWA⟩, ht, hd⟩ := h
  obtain ⟨m', z, y, cs₁, cs₂, hs, hat', hkeep', ⟨rC, hC, hCn⟩, hcalls, hreads, hz, hrep, hs₀', ht'⟩ :=
    run_due hE hx hxk hps hat hW (Nat.succ_ne_zero _) hf hY hYn hYi hYW hWY.symm hs₀ hsafe ht hk hd
  -- Filling the operand that is due changes neither the root nor the node that waited.
  have hi : rootId (edgeAt d t) = some i := by
    obtain ⟨p, l?, rfl, -, -, he⟩ := hd
    rw [he, rootId_spine]
  obtain ⟨j, hj⟩ := rootId_of_edgeAt hi
  have hroot : handle (fill z t) = handle t := by
    rw [handle_of_rootId hj, handle_of_rootId (rootId_fill hj z)]
  have hi' := rootId_edgeAt_fill hi z
  obtain ⟨q, hq, -⟩ := Option.map_eq_some_iff.1 ((rootId_eq _).symm.trans hi')
  have hY' := hkeep' Y rY hWY.symm hY
  have hA' : m'.node rY.parent = handle (fill z t) := by
    rw [hYA, hroot, ← hAt]
    exact node_eq (hkeep' A rA hWA.symm hA)
  refine ⟨m', z, y, cs₁, cs₂, hs, ⟨Keeps.trans hkeep hkeep' (Or.inr hWf), ?_, ht', Y, rY, hat', hY',
    Or.inr hYf, ?_, ?_, Or.inr ⟨hYn, ?_, ?_, hYV, ?_, ?_, ⟨q, hq⟩, Or.inl ⟨hA', ?_⟩⟩⟩, hcalls, hreads,
      hz,
    hrep, hs₀'⟩
  · exact ⟨rV, hkeep' V rV hWV.symm hV, hVn, hVt.trans hroot.symm⟩
  · rw [hYi, handle_of_rootId hi']
  · rw [hYc]
    rfl
  · rw [hYc]
    exact Nat.succ_ne_zero _
  · rw [hYc]
    rfl
  · rwa [hYA]
  · rw [hYW]
    exact not_paren hC hCn
  · rwa [hYA]

/-- After its left operand is read, an infix operator waits for the right one. -/
theorem Expr.Runs.waits {e : Expr α} (he : e.Runs evaluate owns) (hk : e.Kinded) (ho : o.kind = .infixOp)
    {n : Counters} {p : ℕ} (hat : At m V .opening S (e.text ++ .inf o :: rest))
    (hV : m.rules.cell V = some (.start .val .undefined n p 0)) (hexpr : n.expr = 0)
    (hp : Blank m.rules p) (hpV : p ≠ V) (hm : m.world.Marked owns) (hsafe : Safe evaluate m) :
    ∃ m' Y W A i n' t cs T d, Steps evaluate m m' ∧
      Due evaluate owns m.rules m' V Y W A i (Counters.more n') S rest t (attachDepth o T) ∧
      n'.exprParen = n.exprParen ∧ e.Reads evaluate false cs T d ∧ erase t = attach o T ∧
      Since owns m.world m'.world t ∧ m'.world.calls = m.world.calls ++ cs := by
  obtain ⟨m₁, t, d, cs, hs₁, hlevel, hcalls₁, hreads, hsince₁⟩ :=
    he m V S _ n p hat hV hexpr hp hpV trivial hm hsafe
  obtain ⟨m₂, Y, R, q, n', hs₂, hrep, hn', hw₂⟩ := hlevel.replaces (Or.inl rfl)
  obtain ⟨m₃, t₃, W, A, i, hs₃, hdue, ht₃, hsince₃, hcalls₃⟩ := hrep.attaches (hw₂ ▸ hlevel.stands)
    (hw₂ ▸ hsince₁) ((hsafe.steps hs₁).steps (Steps.of_step hs₂)) (hreads.formed hk) ho hreads.noParen
  refine ⟨m₃, Y, W, A, i, n', t₃, cs, erase t, d,
    (hs₁.trans (Steps.of_step hs₂)).trans (Steps.of_step hs₃), hdue, hn', hreads, ht₃, hsince₃, ?_⟩
  rw [hcalls₃, hw₂, hcalls₁]

/-- An infix operator and its operand. -/
theorem runs_more (hE : ∀ E ∈ evaluate, Sparing E owns) {e : Expr α} (he : e.Runs evaluate owns)
    (hx : x.Runs evaluate owns) (hk : (Expr.more e o ps x).Kinded) :
    (Expr.more e o ps x).Runs evaluate owns := by
  obtain ⟨hek, ho, hps, hxk⟩ := hk
  intro m V S rest n p hat hV hexpr hp hpV hf hm hsafe
  have hat' : At m V .opening S (e.text ++ .inf o :: (ps.map .pre ++ x.text ++ rest)) := by
    simpa [Expr.text] using hat
  obtain ⟨m₁, Y, W, A, i, n', t, cs₁, T, d, hs₁, hdue, hn', hreads₁, ht, hsince₁, hcalls₁⟩ :=
    he.waits hek ho hat' hV hexpr hp hpV hm hsafe
  obtain ⟨m₂, z, y, cs₂, cs₃, hs₂, hlevel, hcalls₂, hreads₂, hz, hrep, hsince₂⟩ :=
    hdue.level hE hx hxk hps (hn'.symm ▸ hf) hsince₁ (hsafe.steps hs₁) (ht ▸ (hreads₁.formed hek).attach ho)
  have htree : erase (fill z t) = fill (prefixes ps y) (attach o T) := by
    rw [erase_fill, hz, ht]
  refine ⟨m₂, fill z t, attachDepth o T, cs₁ ++ cs₂ ++ cs₃, hs₁.trans hs₂, hn' ▸ hlevel, ?_, ?_, hsince₂⟩
  · rw [hcalls₂, hcalls₁]
    simp only [List.append_assoc]
  · exact ⟨cs₁, T, d, cs₂, y, cs₃, hreads₁, hreads₂, htree, rfl, hrep, rfl⟩

/-- The rule `Y` of a suffix operator has its term, and closes next. -/
theorem level_of_stay {m : Machine σ α} {Y A j : ℕ} {n : Counters} {r r₀ : Rule α}
    {t : Tree (ℕ × Op) (Val α)} (hat : At m Y .opening S tokens) (hY : m.rules.cell Y = some r₀)
    (hr : r.name = .expr) (hj : r.node = .node j) (hn : r.n = Counters.more n) (hA : r.parent = A)
    (hchild : r.child = 0) (hV : ∃ r, m.rules.cell V = some r ∧ r.name = .val ∧ r.node = handle t)
    (habove : ((∃ r, m.rules.cell A = some r ∧ r.node = handle t) ∧ (evaluate ≠ none → A = V)) ∨
      (evaluate = none ∧ Blank m.rules A ∧ A ≠ V ∧ d = 0))
    (hk : Keeps base m.rules V) (hf : base.cell Y = none) (hYV : Y ≠ V) (hAY : A ≠ Y)
    (ht : Stands (Scalar evaluate) owns m.world t) (hform : Formed (erase t) d)
    (hedge : rootId (edgeAt d t) = some j) (rest : List (Sym Op α)) :
    ∃ m', ((m.stay r).withTokens rest).step evaluate = some m' ∧
      Level evaluate owns base m' V n.exprParen S rest t d ∧ m'.world = m.world := by
  obtain ⟨hcur, -, hS, -, h0⟩ := hat
  obtain ⟨rV, hV, hVn, hVt⟩ := hV
  have hk' : Keeps m.rules ((m.stay r).withTokens rest).rules Y := hcur ▸ keeps_put
  have hat' : At ((m.stay r).withTokens rest) Y .before S rest :=
    ⟨hcur, rfl, hS, rfl, norule_modify h0⟩
  have hY' : ((m.stay r).withTokens rest).rules.cell Y = some r := by
    subst hcur
    exact cell_put_cur hY
  have hu := hform.edgeAt hform.onEdge
  rw [← erase_edgeAt] at hu
  obtain ⟨op, vs, hcell, hle⟩ := full_cell ht.held.edgeAt (complete_erase.1 hu.complete) hu.slotted hedge
  obtain ⟨q, hq, -⟩ := Option.map_eq_some_iff.1 ((rootId_eq _).symm.trans hedge)
  refine ⟨{ (m.stay r).withTokens rest with phase := .closing },
    step_expr_full evaluate hat' hY' hr hj hcell hle,
    ⟨hk.trans hk' (Or.inr hf), ⟨rV, hk' V rV hYV.symm hV, hVn, hVt⟩, ht, Y, r,
      ⟨hat'.cur, rfl, hat'.stack, rfl, hat'.norule⟩, hY', Or.inr hf, ?_, ?_,
      Or.inr ⟨hr, ?_, ?_, hYV, hA ▸ hAY, ?_, ⟨q, hq⟩, ?_⟩⟩, rfl⟩
  · rw [hj, handle_of_rootId hedge]
  · rw [hn]
    rfl
  · rw [hn]
    exact Nat.succ_ne_zero _
  · rw [hn]
    rfl
  · rw [hchild]
    exact fun hp => by simp [hat'.norule] at hp
  · rw [hA]
    rcases habove with ⟨⟨rA, hA', hAt⟩, hAV⟩ | ⟨hE, hblank, hAV, hd⟩
    · exact Or.inl ⟨(node_eq (hk' A rA hAY hA')).trans hAt, hAV⟩
    · exact Or.inr ⟨hE, hblank.keeps hk' hAY, hAV, hd⟩

/-- A suffix operator goes onto the attachment node, and its rule closes next. -/
theorem Replaced.suffixes {Y R p : ℕ} {n : Counters} {w₀ : World σ α}
    (h : Replaced evaluate base m V Y R p n S (.suf o :: rest) t d)
    (ht : Stands (Scalar evaluate) owns m.world t) (hs₀ : Since owns w₀ m.world t)
    (hsafe : Safe evaluate m) (hk : Formed (erase t) d) (ho : o.kind = .suffixOp)
    (hn : NoParen (erase t)) :
    ∃ m' t', Steps evaluate m m' ∧ Level evaluate owns base m' V n.exprParen S rest t' d ∧
      erase t' = onEdge (suffixFlat o) d (erase t) ∧ Since owns w₀ m'.world t' ∧
      m'.world.calls = m.world.calls := by
  obtain ⟨hat, hY, hpre, hprev, ⟨rV, hV, hVn, hVt⟩, hkeep, ⟨hYf, hRf⟩, ⟨hYV, hRY, hpY, hpR⟩,
    hparent⟩ := h
  have hon := onEdge_erase.1 hk.onEdge
  have hu := hk.edgeAt hk.onEdge
  rw [← erase_edgeAt] at hu
  have huc := complete_erase.1 hu.complete
  have hsuf := hk.suffixed ho
  have hedge := ht.edgeAt (d := d)
  have havoids := avoids_entered hat hY rfl hsafe hedge.leaves
  obtain ⟨v, hv⟩ | ⟨q, hq⟩ := leaf_or_op huc
  · -- The first term is a plain value: its node is made, and the rule of the first term holds it.
    obtain ⟨hblank, -, rfl, -, -, hRV⟩ := hparent.resolve_right fun h => by
      obtain ⟨-, ⟨q, hq⟩, -⟩ := h
      simp [hv, rootOp] at hq
    obtain rfl : t = leaf v := hv
    obtain rfl : R = V := hRV.resolve_right (by simp [rootOp])
    have hnone : opAt m.world.heap v = none := opAt_eq_none havoids fun q hq =>
      entered_suf hat.tokens ((congrArg (opAt m.world.heap) hprev).trans hq)
    have hstep := step_expr_suf_first evaluate hat hY rfl hprev hnone ho
    let i := m.world.heap.last + 1
    let heap := (newNode m.world.heap o [v]).1
    have hV' := cell_setNode_self (m := m.setHeap heap) (v := .node i) hV
    have hids : ∀ j ∈ ids (suf (i, o) (leaf v) : Tree (ℕ × Op) (Val α)),
        j ∈ ids (leaf v : Tree (ℕ × Op) (Val α)) ∨ j = i := by simp [ids]
    obtain ⟨m', hs', hlevel, hw⟩ := level_of_stay (t := suf (i, o) (leaf v)) (d := 0) (A := R)
      (n := n) (j := i) (at_setNode (at_setHeap hat heap) R (.node i))
      ((cell_setNode_of_ne hYV _).trans hY) (r := { Rule.start .expr (handle (edgeAt 0 (leaf v))) n p R with
        n := Counters.more n, node := .node i, parent := R }) rfl rfl rfl rfl rfl ⟨_, hV', hVn, rfl⟩
      (Or.inl ⟨⟨_, hV', rfl⟩, fun _ => rfl⟩) (Keeps.trans hkeep (keeps_modify _) (Or.inl rfl)) hYf hYV hRY
      (ht.alloc hs₀.marked (held_newNode_suf ht.held trivial) hids ht.leaves) hsuf rfl rest
    refine ⟨m', _, (Steps.of_step hstep).trans (Steps.of_step hs'), hlevel, rfl, ?_, ?_⟩
    · rw [hw]
      exact hs₀.alloc _ hids
    · rw [hw]
      rfl
  · have hj := rootId_of_root hq
    have hhandle := handle_of_rootId hj
    have hop : opAt m.world.heap (.node q.1) = some q := hhandle ▸ opAt_handle hedge.held.stores hq
    rw [entered_suf hat.tokens
      ((congrArg (opAt m.world.heap) (hprev.trans hhandle)).trans hop)] at havoids
    obtain ⟨heap, u, hp, hrw, he⟩ := prattify_suffix hedge.held hq huc hu.slotted ho
      (stopsSuffix_of_avoids hedge.held.stores hq huc hu.slotted ho havoids hedge.held.length_ids_le)
      (Or.inr (erase_edgeAt (t := t) ▸ noParen_edgeAt hn))
    have hstep := step_expr_suf evaluate hat hY rfl (hprev.trans hhandle) hop hp
    -- The rewritten node stays the one the root and the rules around refer to.
    have hrw' := Rewrites.onEdge ht.held hon hrw (by simp)
    have he' : erase (onEdge (fun _ => u) d t) = onEdge (suffixFlat o) d (erase t) :=
      erase_onEdge (by rw [he, erase_edgeAt])
    have hu' : rootId (edgeAt d (onEdge (fun _ => u) d t)) = some q.1 := by
      rw [edgeAt_onEdge hon]
      exact hrw.root.trans hj
    obtain ⟨i, hi⟩ := rootId_of_edgeAt hj
    have hroot : handle (onEdge (fun _ => u) d t) = handle t := by
      rw [handle_of_rootId hi, handle_of_rootId (hrw'.root.trans hi)]
    have ht' : Stands (Scalar evaluate) owns (m.setHeap heap).world (onEdge (fun _ => u) d t) := by
      refine ht.rewrites hs₀.marked hrw' (by simp) ?_
      rw [he']
      exact leaves_onEdge ht.leaves (leaves_suffixFlat (leaves_edgeAt ht.leaves))
    have habove : ((∃ r, (m.setHeap heap).rules.cell p = some r ∧
        r.node = handle (onEdge (fun _ => u) d t)) ∧ (evaluate ≠ none → p = V)) ∨
        (evaluate = none ∧ Blank (m.setHeap heap).rules p ∧ p ≠ V ∧ d = 0) := by
      rcases hparent with ⟨hblank, hpV, rfl, -, hleaf, -⟩ | ⟨hp', -, hpV⟩
      · refine Or.inr ⟨?_, hblank, hpV, rfl⟩
        by_contra hE
        obtain ⟨v, rfl⟩ := hleaf hE rfl
        cases hq
      · obtain ⟨rA, hA, hAt⟩ := exists_rule hp' (rootOp_of_edgeAt hq)
        exact Or.inl ⟨⟨rA, hA, hAt.trans hroot.symm⟩, hpV⟩
    obtain ⟨m', hs', hlevel, hw⟩ := level_of_stay (t := onEdge (fun _ => u) d t) (d := d) (A := p)
      (n := n) (j := q.1) (at_setHeap hat heap) hY (r := { Rule.start .expr (handle (edgeAt d t)) n p R with
        n := Counters.more n, node := .node q.1 }) rfl rfl rfl rfl rfl ⟨rV, hV, hVn,
          hVt.trans hroot.symm⟩
      habove hkeep hYf hYV hpY ht' (he' ▸ hsuf) hu' rest
    refine ⟨m', _, (Steps.of_step hstep).trans (Steps.of_step hs'), hlevel, he', ?_, ?_⟩
    · rw [hw]
      exact hs₀.rewrites hrw'
    · rw [hw]
      rfl

/-- A suffix operator. -/
theorem runs_suffixed {e : Expr α} (he : e.Runs evaluate owns) (hk : (Expr.suffixed e o).Kinded) :
    (Expr.suffixed e o).Runs evaluate owns := by
  obtain ⟨hek, ho⟩ := hk
  intro m V S rest n p hat hV hexpr hp hpV hf hm hsafe
  have hat' : At m V .opening S (e.text ++ .suf o :: rest) := by simpa [Expr.text] using hat
  obtain ⟨m₁, t, d, cs, hs₁, hlevel, hcalls₁, hreads, hsince₁⟩ :=
    he m V S _ n p hat' hV hexpr hp hpV trivial hm hsafe
  have hform := hreads.formed hek
  obtain ⟨m₂, Y, R, q, n₂, hs₂, hrep, hn₂, hw₂⟩ := hlevel.replaces (Or.inr rfl)
  obtain ⟨m₃, t₃, hs₃, hlevel₃, ht₃, hsince₃, hcalls₃⟩ := hrep.suffixes (hw₂ ▸ hlevel.stands)
    (hw₂ ▸ hsince₁) ((hsafe.steps hs₁).steps (Steps.of_step hs₂)) hform ho hreads.noParen
  refine ⟨m₃, t₃, d, cs, (hs₁.trans (Steps.of_step hs₂)).trans hs₃, hn₂ ▸ hlevel₃, ?_,
    ⟨erase t, hreads, ht₃⟩, hsince₃⟩
  rw [hcalls₃, hw₂, hcalls₁]

end Next

mutual

theorem Operand.runs (hE : ∀ E ∈ evaluate, Sparing E owns) : (x : Operand α) → x.Kinded →
    x.Runs evaluate owns
  | .atom a, _ => runs_atom a
  | .paren _ e, hk => runs_paren hE (e.runs hE hk.2.2) hk

/-- The rules read every expression, with an evaluator or without. -/
theorem Expr.runs (hE : ∀ E ∈ evaluate, Sparing E owns) : (e : Expr α) → e.Kinded →
    e.Runs evaluate owns
  | .lead _ x, hk => runs_lead hE (x.runs hE hk.2) hk
  | .more e _ _ x, hk => runs_more hE (e.runs hE hk.1) (x.runs hE hk.2.2.2) hk
  | .suffixed e _, hk => runs_suffixed (e.runs hE hk.1) hk

end

end TabnasExpr.Rules
