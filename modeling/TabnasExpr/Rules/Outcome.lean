import TabnasExpr.Rules.Next

/-!
# How a run of the rules ends

A run on the tokens of an expression ends with the tree that `Expr.Reads` and one last evaluation
leave (`Expr.run_start`), and it ends in one way only.
-/

namespace TabnasExpr.Rules

open OpTree OpTree.Tree Ts Machine

universe u v

variable {σ : Type v} {α : Type u} {evaluate : Option (Evaluator σ α)} {owns : σ → ℕ → Prop}

/-! ## Steps and runs -/

section Runs

variable {m m' : Machine σ α}

theorem rule_of_step (h : m.step evaluate = some m') : ∃ r, m.rules.cell m.cur = some r := by
  cases hr : m.rules.cell m.cur with
  | none => simp [step, hr] at h
  | some r => exact ⟨r, rfl⟩

theorem run_step (h : m.step evaluate = some m') (fuel : ℕ) :
    run evaluate (fuel + 1) m = run evaluate fuel m' := by
  obtain ⟨r, hr⟩ := rule_of_step h
  simp [run, hr, h]

theorem run_done (h : m.rules.cell m.cur = none) (ht : m.tokens = []) (fuel : ℕ) :
    run evaluate (fuel + 1) m = some m := by
  simp [run, h, ht]

/-- Steps to a state in which no rule and no token is left make a run. -/
theorem Steps.run (hs : Steps evaluate m m') (h : m'.rules.cell m'.cur = none) (ht : m'.tokens = []) :
    ∃ fuel, run evaluate fuel m = some m' := by
  induction hs using Relation.ReflTransGen.head_induction_on with
  | refl => exact ⟨1, run_done h ht 0⟩
  | head hstep _ ih =>
    obtain ⟨fuel, hrun⟩ := ih
    exact ⟨fuel + 1, (run_step hstep fuel).trans hrun⟩

/-- A run that ends ends alike with more fuel. -/
theorem run_add {fuel : ℕ} (h : run evaluate fuel m = some m') (k : ℕ) :
    run evaluate (fuel + k) m = some m' := by
  induction fuel generalizing m with
  | zero => cases h
  | succ fuel ih =>
    rw [Nat.succ_add]
    cases hr : m.rules.cell m.cur with
    | none =>
      cases ht : m.tokens with
      | nil =>
        rw [run_done hr ht] at h ⊢
        exact h
      | cons tok toks => simp [run, hr, ht] at h
    | some r =>
      cases hstep : m.step evaluate with
      | none => simp [run, hr, hstep] at h
      | some m₁ =>
        rw [run_step hstep] at h ⊢
        exact ih h

/-- Runs from one state end alike. -/
theorem run_unique {fuel fuel' : ℕ} {m₁ m₂ : Machine σ α} (h : run evaluate fuel m = some m₁)
    (h' : run evaluate fuel' m = some m₂) : m₁ = m₂ := by
  have h₁ := run_add h fuel'
  have h₂ := run_add h' fuel
  rw [Nat.add_comm] at h₂
  exact Option.some.inj (h₁.symm.trans h₂)

end Runs

/-! ## The last rule -/

section Last

variable {base : Store (Rule α)} {m : Machine σ α} {V : ℕ} {t : Tree (ℕ × Op) (Val α)} {d : ℕ}

theorem at_end {R : ℕ} {r r₀ : Rule α} (h : At m R .closing [] []) (hr : m.rules.cell R = some r₀) :
    At (m.pop r) 0 .before [] [] ∧ (m.pop r).rules.cell R = some r ∧
      Keeps m.rules (m.pop r).rules R := by
  obtain ⟨rfl, -, hs, ht, h0⟩ := h
  exact ⟨⟨by simp [pop, hs], rfl, by simp [pop, hs], ht, norule_modify h0⟩, cell_put_cur hr,
    keeps_put⟩

/-- The last rules close, and the tree is evaluated unless it is a value. -/
theorem Level.finishes (hE : ∀ E ∈ evaluate, Sparing E owns)
    (h : Level evaluate owns base m V 0 [] [] t d) (hm : m.world.Marked owns) (hk : Formed (erase t) d) :
    ∃ m' t' cs, m.step evaluate = some m' ∧ At m' 0 .before [] [] ∧ m'.node V = handle t' ∧
      Stands (Scalar evaluate) owns m'.world t' ∧ m'.world.calls = m.world.calls ++ cs ∧
      Left evaluate (erase t) cs (erase t') := by
  obtain ⟨-, ⟨rV, hV, -, hVt⟩, ht, R, r, hat, hr, -, -, hparen, hlast⟩ := h
  rcases hlast with ⟨rfl, hn, -, -, -, -, hleaf⟩ | ⟨hn, -, -, hRV, hpR, hchild, ⟨q, hq⟩, hparent⟩
  · -- The expression is its first term.
    obtain ⟨hat', hR', -⟩ := at_end (r := r) hat hr
    obtain rfl : rV = r := Option.some.inj (hV.symm.trans hr)
    refine ⟨m.pop rV, t, [], step_val_last hat hr hn hparen (Or.inl rfl), hat', (node_eq hR').trans hVt,
      ht, (List.append_nil _).symm, ?_⟩
    cases evaluate with
    | none => exact ⟨rfl, rfl⟩
    | some E =>
      obtain ⟨v, rfl⟩ := hleaf (Option.some_ne_none E) rfl
      exact ⟨v, ⟨rfl, rfl⟩, rfl⟩
  · have hstep : m.step evaluate = m.endExpr r evaluate := step_expr_end hat hr hn hchild hparen
    cases evaluate with
    | none =>
      -- Nothing is evaluated, and the first rule keeps the tree.
      obtain ⟨hat', -, hk'⟩ := at_end (r := { r with n := { r.n with expr := 0 } }) hat hr
      exact ⟨_, t, [], hstep, hat', (node_eq (hk' V rV hRV.symm hV)).trans hVt, ht,
        (List.append_nil _).symm, rfl, rfl⟩
    | some E =>
      obtain ⟨hp, hpV⟩ := hparent.resolve_right fun h => Option.some_ne_none E h.1
      obtain rfl : r.parent = V := hpV (Option.some_ne_none E)
      obtain ⟨q', hq'⟩ := rootOp_of_edgeAt hq
      obtain ⟨m', t', cs, hend, hcl, hleft, hat'⟩ := endExpr_closed hE hat hr hV hpR hVt hm ht
        (complete_erase.1 hk.complete) hq'
      exact ⟨m', t', cs, hstep.trans hend, hat', node_eq (hcl.parent rV hV), hcl.stands, hcl.calls, hleft⟩

end Last

theorem at_start (env : σ) (tokens : List (Sym Op α)) :
    At (start env tokens) 1 .opening [] tokens :=
  ⟨rfl, rfl, rfl, rfl, rfl⟩

theorem marked_start {env : σ} (howns : ∀ i, ¬ owns env i) {tokens : List (Sym Op α)} :
    (start env tokens).world.Marked owns := by
  rintro i (hi | hi)
  · cases hi
  · exact absurd hi (howns i)

/-- Where a run on the tokens of an expression ends. -/
structure Ends (evaluate : Option (Evaluator σ α)) (owns : σ → ℕ → Prop) (e : Expr α)
    (m : Machine σ α) (t : Tree (ℕ × Op) (Val α)) (T : Tree Op (Val α)) (cs cs' : List (Call α)) :
    Prop where
  node : m.node 1 = handle t
  stands : Stands (Scalar evaluate) owns m.world t
  calls : m.world.calls = cs ++ cs'
  reads : ∃ d, e.Reads evaluate true cs T d
  left : Left evaluate T cs' (erase t)

variable (evaluate) in
/-- The rules read the tokens of an expression to their end. -/
theorem Expr.run_start (hE : ∀ E ∈ evaluate, Sparing E owns) {e : Expr α} (hk : e.Kinded)
    (env : σ) (howns : ∀ i, ¬ owns env i) (hsafe : Safe evaluate (start env e.text)) :
    ∃ fuel m t T cs cs', run evaluate fuel (start env e.text) = some m ∧
      Ends evaluate owns e m t T cs cs' := by
  have hat : At (start env e.text) 1 .opening [] (e.text ++ []) := by
    rw [List.append_nil]
    exact at_start env e.text
  obtain ⟨m, t, d, cs, hs, hlevel, hcalls, hreads, hsince⟩ := e.runs hE hk (start env e.text) 1 [] []
    .zero 0 hat rfl rfl (Or.inl rfl) (Nat.zero_ne_one) rfl (marked_start howns) hsafe
  obtain ⟨m', t', cs', hstep, hat', hnode, ht', hcalls', hleft⟩ := hlevel.finishes hE hsince.marked
    (hreads.formed hk)
  obtain ⟨fuel, hrun⟩ := Steps.run (hs.trans (Steps.of_step hstep))
    (hat'.cur.symm ▸ hat'.norule) hat'.tokens
  refine ⟨fuel, m', t', erase t, cs, cs', hrun, hnode, ht', ?_, ⟨d, hreads⟩, hleft⟩
  rw [hcalls', hcalls]
  rfl

variable (evaluate) in
/-- Without an evaluator, or with one that returns scalars, nothing is in the way. -/
theorem Expr.run_scalar (hE : Scalar evaluate) {e : Expr α} (hk : e.Kinded) (env : σ) :
    ∃ fuel m t T cs cs', run evaluate fuel (start env e.text) = some m ∧
      Ends evaluate (fun _ _ => False) e m t T cs cs' :=
  e.run_start evaluate (fun E h => (hE E h).sparing) hk env (fun _ => id) (Or.inl hE)

end TabnasExpr.Rules
