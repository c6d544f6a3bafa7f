import TabnasExpr.Rules.Built
import TabnasExpr.Rules.Grammar

/-!
# Operators without a last operand

Where a source ends and an operand is due, the rules close without one: the node of the operator above
keeps the terms it has.  Such a source is read to its end, but no tree is built (`run_dangling`).
-/

namespace TabnasExpr.Rules

open OpTree OpTree.Tree Ts Machine

universe u v

variable {σ : Type v} {α : Type u}

/-! ## Trees that lack an operand -/

/-- No tree is read off nodes one of which lacks an operand. -/
theorem treeFrom_open {h : Heap α} {t : Tree (ℕ × Op) (Val α)} {fuel : ℕ}
    (ht : Stores layout h t) (ho : Open t) (hk : Slotted (erase t)) :
    treeFrom fuel h (handle t) = none := by
  cases fuel with
  | zero => rfl
  | succ fuel =>
    induction t generalizing fuel with
    | hole => rfl
    | leaf | suf | grp => exact ho.elim
    | pre p x ih =>
      have hcell := ht.1
      rw [handle, treeFrom]
      by_cases hx : x = hole
      · subst hx
        simp [hcell]
      · rw [slots_of_ne_hole hx] at hcell
        have hx' : treeFrom fuel h (handle x) = none := by
          cases fuel with
          | zero => rfl
          | succ fuel => exact ih ht.2 ho hk.2 fuel
        cases hp : p.2.kind <;> simp [hcell, hp, hx']
    | inf p l r _ ih =>
      have hcell := ht.1
      rw [handle, treeFrom]
      rw [slots_of_complete ho.1] at hcell
      by_cases hr : r = hole
      · subst hr
        simp [hcell, hk.1]
      · rw [slots_of_ne_hole hr] at hcell
        have hr' : treeFrom fuel h (handle r) = none := by
          cases fuel with
          | zero => rfl
          | succ fuel => exact ih ht.2.2 ho.2 hk.2.2 fuel
        simp [hcell, hk.1, hr']

/-! ## The rules at the end of the source -/

section Missing

variable {m : Machine σ α} {B W X i j d : ℕ} {S : List ℕ} {n : Counters} {v : Val α} {p : ℕ}
  {rB : Rule α} {ps : List Op} {t : Tree (ℕ × Op) (Val α)}

theorem coalesce_undefined (v : Val α) : coalesce v .undefined .undefined = v := by
  cases v <;> rfl

/-- Where its operand is missing a `val` rule closes with the node it started with. -/
theorem steps_missing (h : At m W .opening S []) (hr : m.rules.cell W = some (.start .val v n p 0)) :
    ∃ m', Steps (none : Option (Evaluator σ α)) m m' ∧ At m' W .closing S [] ∧
      m'.rules.cell W = some (.start .val v n p 0) ∧ Keeps m.rules m'.rules W ∧ m'.world = m.world := by
  have hstep : m.step (none : Option (Evaluator σ α)) = some (m.stay (.start .val v n p 0)) := by
    rw [step_val h hr rfl, openVal, h.tokens]
  obtain ⟨rfl, -, rfl, ht, h0⟩ := h
  have hat : At (m.stay (.start .val v n p 0)) m.cur .before m.stack [] :=
    ⟨rfl, rfl, rfl, ht, norule_modify h0⟩
  obtain ⟨m', hm, hat', hc, hk, hw⟩ := step_val_before none hat (cell_put_cur hr) rfl
  refine ⟨m', (Steps.of_step hstep).trans (Steps.of_step hm), hat', ?_,
    Keeps.trans keeps_put hk (Or.inl rfl), hw⟩
  rw [hc, show (Rule.start .val v n p 0).child = 0 from rfl, node_norule hat.norule]
  simp [Rule.start, coalesce_undefined]

/-- An operator whose operand is missing keeps the terms it has. -/
theorem step_expr_missing {r : Rule α} {node : Node α} (h : At m X .before S [])
    (hr : m.rules.cell X = some r) (hn : r.name = .expr) (hv : r.node = .node j)
    (hj : m.world.heap.cell j = some node) (hc : nodeId (m.node r.child) = some j) :
    m.step (none : Option (Evaluator σ α)) = some { m with phase := .closing } := by
  have hstep : m.step (none : Option (Evaluator σ α)) = some (m.beforeExpr r) := by
    simp only [step, h.cur, hr, h.phase, hn]
  obtain ⟨op, terms⟩ := node
  rw [hstep, beforeExpr]
  simp only [hv, hj]
  cases op with
  | none => rfl
  | some op => exact congrArg some (if_neg fun hlt => hlt.2 hc)

/-- The `expr` rule of an operator closes, and the rules above it keep what they hold. -/
theorem step_expr_drop {r : Rule α} (h : At m X .closing S []) (hr : m.rules.cell X = some r)
    (hn : r.name = .expr) (hchild : (m.rules.cell r.child).map Rule.name ≠ some .paren)
    (hparen : r.n.exprParen = 0) :
    ∃ m' n', m.step (none : Option (Evaluator σ α)) = some m' ∧
      At m' (S.headD 0) .before S.tail [] ∧ m'.rules.cell X = some { r with n := n' } ∧
      Keeps m.rules m'.rules X ∧ m'.world = m.world := by
  have hstep : m.step (none : Option (Evaluator σ α)) =
      some (m.pop { r with n := { r.n with expr := 0 } }) :=
    step_expr_end h hr hn hchild hparen
  obtain ⟨rfl, -, rfl, ht, h0⟩ := h
  exact ⟨_, _, hstep, ⟨rfl, rfl, rfl, ht, norule_modify h0⟩, cell_put_cur hr, keeps_put, rfl⟩

/-- The rule of a prefix operator closes, and the `val` rule under it is about to close. -/
theorem Prefixed.drops {m₁ m₂ : Machine σ α} {C : ℕ} {r : Rule α} {toks : List (Sym Op α)}
    (h : Prefixed m m₁ W X C v j r n S toks) (hr : r.name = .val) (hCf : m.rules.cell C = none)
    (hat : At m₂ X .closing (W :: S) []) (hk : Keeps m₁.rules m₂.rules C)
    (hC : ∃ rC, m₂.rules.cell C = some rC ∧ rC.name = .val) (hf : r.n.exprParen = 0) :
    ∃ m' n', Steps (none : Option (Evaluator σ α)) m₂ m' ∧ At m' W .closing S [] ∧
      m'.rules.cell W = some { r with node := .node j, n := n', child := X } ∧
      n'.expr = r.n.expr ∧ n'.exprParen = r.n.exprParen ∧ Keeps m.rules m'.rules W ∧
      m'.world = m₂.world := by
  obtain ⟨rX, hX, hXn, hXj, rfl, -, hXC⟩ := h.expr
  obtain ⟨n', hW, hexpr, hparen⟩ := h.val
  obtain ⟨rC, hC, hCn⟩ := hC
  have hX₂ := hk X rX h.ne.2.2.symm hX
  obtain ⟨m₃, n₃, hs₃, hat₃, hX₃, hk₃, hw₃⟩ := step_expr_drop hat hX₂ hXn
    (not_paren (hXC ▸ hC) hCn) (h.counters.2.2.trans hf)
  have hat₃ : At m₃ W .before S [] := hat₃
  have hW₃ := hk₃ W _ h.ne.1.symm (hk W _ h.ne.2.1.symm hW)
  obtain ⟨m₄, hs₄, hat₄, hW₄, hk₄, hw₄⟩ := step_val_before none hat₃ hW₃ hr
  refine ⟨m₄, n', (Steps.of_step hs₃).trans (Steps.of_step hs₄), hat₄, ?_, hexpr, hparen, ?_,
    hw₄.trans hw₃⟩
  · have hchild : m₃.node X = .node j := (node_eq hX₃).trans hXj
    rw [hW₄]
    simp [hchild, coalesce]
  · intro i rᵢ hi hri
    have hne : ∀ {k}, m.rules.cell k = none → i ≠ k := fun hkn hik => by simp [hik ▸ hkn] at hri
    exact hk₄ i rᵢ hi (hk₃ i rᵢ (hne h.fresh) (hk i rᵢ (hne hCf) (h.keeps i rᵢ hi hri)))

/-- The source ends where an operand is due at the node `i`, under prefix operators: their nodes go into
it, the last one without an operand, and the rule `B` of the operator is about to close. -/
theorem run_missing (hps : ∀ p ∈ ps, p.kind = .prefixOp)
    (hat : At m W .opening (B :: S) (ps.map .pre))
    (hW : m.rules.cell W = some (.start .val (.node i) n B 0)) (hexpr : n.expr ≠ 0)
    (hf : n.exprParen = 0) (hB : m.rules.cell B = some rB) (hBn : rB.name = .expr)
    (hBi : rB.node = .node i) (hBW : rB.child = W) (hne : B ≠ W) (ht : Held layout m.world.heap t)
    (hd : DueAt d i t) (hopen : Open t) :
    ∃ m' z, Steps (none : Option (Evaluator σ α)) m m' ∧ At m' B .closing S [] ∧
      Keeps m.rules m'.rules W ∧ (∃ r, m'.rules.cell W = some r ∧ r.name = .val) ∧ Open z ∧
      (∀ K : Op → Prop, (∀ p ∈ ps, K p) → KindedBy K (erase z)) ∧ Held layout m'.world.heap (fill z t) := by
  induction ps generalizing m B W i d S n rB t with
  | nil =>
    obtain ⟨m₁, hs₁, hat₁, hW₁, hk₁, hw₁⟩ := steps_missing hat hW
    obtain ⟨m₂, n₂, hs₂, hat₂, hW₂, hk₂, hw₂⟩ := step_val_closing none hat₁ hW₁ rfl hexpr hf
    obtain ⟨op, vs, hcell, -⟩ := due_cell hd ht
    have hchild : nodeId (m₂.node rB.child) = some i := by
      rw [hBW, node_eq hW₂]
      rfl
    have hs₃ := step_expr_missing hat₂ (hk₂ B rB hne (hk₁ B rB hne hB)) hBn hBi
      (by rw [hw₂, hw₁]; exact hcell) hchild
    refine ⟨_, hole, (hs₁.trans (Steps.of_step hs₂)).trans (Steps.of_step hs₃),
      ⟨hat₂.cur, rfl, hat₂.stack, hat₂.tokens, hat₂.norule⟩, hk₁.trans hk₂ (Or.inl rfl),
      ⟨_, hW₂, rfl⟩, trivial, fun _ _ => trivial, ?_⟩
    show Held layout m₂.world.heap _
    rw [hw₂, hw₁, fill_hole]
    exact ht
  | cons p ps ih =>
    have hpk := hps p List.mem_cons_self
    obtain ⟨m₁, X, C, n₁, heap, hs₁, hCf, hpre, hw₁, hrw, hd₁⟩ := steps_pre_due none hat hW hpk ht hd
    let j := m.world.heap.last + 1
    let t₁ := fill (pre (j, p) hole) t
    obtain ⟨rX, hX, hXn, hXj, -, -, hXC⟩ := hpre.expr
    have hheap₁ : m₁.world.heap = heap := by rw [hw₁]
    obtain ⟨m₂, z, hs₂, hat₂, hk₂, hC₂, hz, hzk, hheld₂⟩ :=
      ih (fun q hq => hps q (List.mem_cons_of_mem _ hq)) hpre.at_opening hpre.operand hpre.counters.1
        (hpre.counters.2.2.trans hf) hX hXn hXj hXC hpre.ne.2.2.symm (hheap₁.symm ▸ hrw.held) hd₁
        (open_fill hopen trivial)
    have hfill : fill z t₁ = fill (pre (j, p) z) t := fill_fill hopen _ _
    rw [hfill] at hheld₂
    -- The node that waited has the node of the prefix operator for its last term.
    obtain ⟨q, l?, rfl, hl, hqk, hedge⟩ := hd
    have hnode : edgeAt d (fill (pre (j, p) z) t) = spine q l? (pre (j, p) z) := by
      rw [edgeAt_fill (onEdge_of_edgeAt hedge spine_ne_hole), hedge]
      cases l? <;> rfl
    obtain ⟨hcell, -, -⟩ := stores_spine.1 (hnode ▸ hheld₂.edgeAt).stores
    obtain ⟨m₃, n₃, hs₃, hat₃, hW₃, hn₃, hp₃, hk₃, hw₃⟩ := hpre.drops rfl hCf hat₂ hk₂ hC₂ hf
    obtain ⟨m₄, hs₄, hat₄, hk₄, hW₄, hw₄⟩ := steps_hand_on hat₃ hW₃ rfl (hn₃.symm ▸ hexpr)
      (hp₃.trans hf) (hk₃ B rB hne hB) hBn hBi hne (hw₃.symm ▸ hcell) (by
        simp [terms_due layout hl hqk, slots_of_ne_hole (x := pre (j, p) z)])
    refine ⟨m₄, pre (j, p) z, (hs₁.trans hs₂).trans (hs₃.trans hs₄), hat₄, hk₃.trans hk₄ (Or.inl rfl), hW₄,
      hz, fun K hK => ⟨hK p List.mem_cons_self, hzk K fun q hq => hK q (List.mem_cons_of_mem _ hq)⟩, ?_⟩
    rw [hw₄, hw₃]
    exact hheld₂

end Missing

/-! ## Sources that end where an operand is due -/

section Dangling

variable {head : Option (Expr α × Op)} {ps : List Op}

/-- Prefix operators without an operand. -/
theorem steps_prefixes_missing (hps : ∀ p ∈ ps, p.kind = .prefixOp) {m : Machine σ α}
    (hat : At m 1 .opening [] (ps.map .pre))
    (hV : m.rules.cell 1 = some (.start .val .undefined .zero 0 0)) :
    ∃ m' t n, Steps (none : Option (Evaluator σ α)) m m' ∧ At m' 1 .closing [] [] ∧
      (∃ r, m'.rules.cell 1 = some r ∧ r.name = .val ∧ r.n = n ∧ r.node = handle t) ∧ n.exprParen = 0 ∧
      Open t ∧ Slotted (erase t) ∧ Stores layout m'.world.heap t := by
  cases ps with
  | nil =>
    obtain ⟨m', hs, hat', hV', -⟩ := steps_missing hat hV
    exact ⟨m', hole, _, hs, hat', ⟨_, hV', rfl, rfl, rfl⟩, rfl, trivial, trivial, trivial⟩
  | cons q ps =>
    have hqk := hps q List.mem_cons_self
    obtain ⟨m₁, X, C, n₁, hs₁, hCf, hpre, hw₁⟩ := steps_pre_first none hat hV hqk
    let j := m.world.heap.last + 1
    obtain ⟨rX, hX, hXn, hXj, -, -, hXC⟩ := hpre.expr
    have hd : DueAt 0 j (pre (j, q) hole : Tree (ℕ × Op) (Val α)) :=
      ⟨(j, q), none, rfl, by simp [FrontComplete], hqk, rfl⟩
    have hheap₁ : m₁.world.heap = (newNode m.world.heap q []).1 := by rw [hw₁]
    obtain ⟨m₂, z, hs₂, hat₂, hk₂, hC₂, hz, hzk, hheld⟩ := run_missing (t := pre (j, q) hole)
      (fun r hr => hps r (List.mem_cons_of_mem _ hr)) hpre.at_opening hpre.operand hpre.counters.1
      hpre.counters.2.2 hX hXn hXj hXC hpre.ne.2.2.symm (hheap₁.symm ▸ held_newNode_pre) hd trivial
    obtain ⟨m₃, n₃, hs₃, hat₃, hV₃, -, hp₃, -, hw₃⟩ := hpre.drops rfl hCf hat₂ hk₂ hC₂ rfl
    refine ⟨m₃, pre (j, q) z, n₃, (hs₁.trans hs₂).trans hs₃, hat₃, ⟨_, hV₃, rfl, rfl, rfl⟩, hp₃, hz,
      ⟨Or.inl hqk, hzk _ fun p hp => Or.inl (hps p (List.mem_cons_of_mem _ hp))⟩, ?_⟩
    rw [hw₃]
    exact hheld.stores

/-- The rules come to the end of a source that ends where an operand is due, and hold a tree that lacks
one. -/
theorem steps_dangling (hk : ∀ q ∈ head, q.1.Kinded ∧ q.2.kind = .infixOp)
    (hps : ∀ p ∈ ps, p.kind = .prefixOp) :
    ∃ m t, Steps (none : Option (Evaluator Unit α)) (start () (danglingText head ps)) m ∧
      m.rules.cell m.cur = none ∧ m.tokens = [] ∧ m.node 1 = handle t ∧
      Stores layout m.world.heap t ∧ Open t ∧ Slotted (erase t) := by
  have hat := at_start () (danglingText head ps)
  rcases head with _ | ⟨e, o⟩
  · obtain ⟨m₁, t, n, hs₁, hat₁, ⟨r, hr, hn, rfl, hrt⟩, hp, ho, hslot, ht⟩ :=
      steps_prefixes_missing hps hat rfl
    have hstep : m₁.step (none : Option (Evaluator Unit α)) = _ :=
      step_val_last hat₁ hr hn hp (Or.inl rfl)
    obtain ⟨hat₂, hr₂, -⟩ := at_end (r := r) hat₁ hr
    exact ⟨_, t, hs₁.trans (Steps.of_step hstep), hat₂.cur.symm ▸ hat₂.norule, hat₂.tokens,
      (node_eq hr₂).trans hrt, ht, ho, hslot⟩
  · obtain ⟨hek, hok⟩ := hk _ rfl
    have hat' : At (start () (danglingText (some (e, o)) ps)) 1 .opening []
        (e.text ++ .inf o :: ps.map .pre) := by
      simpa [danglingText, headText] using hat
    have he : e.Runs (none : Option (Evaluator Unit α)) fun _ _ => False := e.runs (by simp) hek
    obtain ⟨m₁, Y, W, A, i, n, t, cs, T₁, d, hs₁, hdue, hn, hreads, ht, -, -⟩ :=
      he.waits hek hok hat' rfl rfl (Or.inl rfl) Nat.zero_ne_one (marked_start fun _ => id)
        (Or.inl scalar_none)
    obtain ⟨hat₁, hW, ⟨rY, hY, hYn, hYi, hYc, -, hYW⟩, ⟨rV, hV, -, hVt⟩, -, -, -, -,
      ⟨hYV, -, hWV, hWY, -⟩, hstands, hd⟩ := hdue
    have hform := hreads.formed hek
    have hopen : Open t := open_erase.1 (ht ▸ open_attach o hform.complete)
    have hparen : (Counters.more n).exprParen = 0 := hn
    obtain ⟨m₂, z, hs₂, hat₂, hk₂, ⟨rW, hW₂, hWn⟩, hz, hzk, hheld₂⟩ := run_missing hps hat₁ hW
      (Nat.succ_ne_zero _) hparen hY hYn hYi hYW hWY.symm hstands.held hd hopen
    -- The rule of the operator closes last, and the first rule keeps the tree.
    obtain ⟨m₃, n₃, hs₃, hat₃, -, hk₃, hw₃⟩ := step_expr_drop hat₂ (hk₂ Y rY hWY.symm hY) hYn
      (not_paren (hYW ▸ hW₂) hWn) (hYc ▸ hparen)
    have hV₃ := hk₃ 1 rV hYV.symm (hk₂ 1 rV hWV.symm hV)
    obtain ⟨k, hroot⟩ : ∃ k, rootId t = some k := by
      obtain ⟨p, l?, -, -, -, he⟩ := hd
      exact rootId_of_edgeAt (he ▸ rootId_spine)
    refine ⟨m₃, fill z t, hs₁.trans (hs₂.trans (Steps.of_step hs₃)), hat₃.cur.symm ▸ hat₃.norule,
      hat₃.tokens, ?_, hw₃ ▸ hheld₂.stores, open_fill hopen hz, ?_⟩
    · rw [node_eq hV₃, hVt, handle_of_rootId hroot, handle_of_rootId (rootId_fill hroot z)]
    · rw [erase_fill]
      exact kinded_fill (ht ▸ kinded_attach hok hform.slotted) (hzk _ fun p hp => Or.inl (hps p hp))

/-- On a source that ends where an operand is due the rules come to its end, and build no tree. -/
theorem run_dangling (hk : ∀ q ∈ head, q.1.Kinded ∧ q.2.kind = .infixOp)
    (hps : ∀ p ∈ ps, p.kind = .prefixOp) (T : Tree Op (Val α)) : ¬ Builds (danglingText head ps) T := by
  rintro ⟨fuel, m, hrun, hT⟩
  obtain ⟨m', t, hs, hcur, htoks, hnode, ht, hopen, hslot⟩ := steps_dangling hk hps
  obtain ⟨fuel', hrun'⟩ := hs.run hcur htoks
  obtain rfl := run_unique hrun hrun'
  rw [hnode, treeOf, treeFrom_open ht hopen hslot] at hT
  cases hT

end Dangling

end TabnasExpr.Rules
