import TabnasExpr.Rules.Control

/-!
# How long a run of the rules is

Every step of the rules lowers a credit of which a source has nine for each token and eight more, so
that no run is longer than that, whatever the tokens and the evaluator.
-/

namespace TabnasExpr.Rules

open OpTree Machine

universe u v

variable {σ : Type v} {α : Type u} {evaluate : Option (Evaluator σ α)}

/-- What a rule of the given name is still to do, by its phase; a rule that starts may start others. -/
def weight : Phase → Option RuleName → ℕ
  | _, none => 0
  | .before, some _ => 7
  | .closing, some _ => 6
  | .opening, some .val => 8
  | .opening, some .expr => 5
  | .opening, some .paren => 2

/-- The steps that are left at most. -/
def Machine.credit (m : Machine σ α) : ℕ :=
  9 * m.tokens.length + 2 * m.stack.length + weight m.phase ((m.face m.cur).map Face.name)

section Credit

variable {m m₁ m' : Machine σ α} {r r₁ : Rule α} {name : RuleName} {f : Face} {n : ℕ}
  {tok : Sym Op α} {rest : List (Sym Op α)}

theorem credit_of_name {p : Phase} (hp : m.phase = p) (hn : Named m m.cur name) :
    m.credit = 9 * m.tokens.length + 2 * m.stack.length + weight p (some name) := by
  obtain ⟨f, hf, rfl⟩ := hn
  rw [credit, hp, hf, Option.map_some]

theorem Pushes.credit (h : Pushes m m' name f) :
    m'.credit = 9 * m'.tokens.length + 2 * (m.stack.length + 1) + weight .opening (some name) := by
  rw [credit_of_name h.phase ⟨_, h.started, rfl⟩, h.stack, List.length_cons]

theorem weight_before_le (o : Option RuleName) : weight .before o ≤ 7 := by
  cases o <;> simp [weight]

/-- A rule that is done is off the stack. -/
theorem credit_pop (h : SameControl (m.pop r) m') (h0 : m'.face 0 = none) :
    m'.credit ≤ 9 * m.tokens.length + 2 * m.stack.length + 5 := by
  have hc : m'.cur = m.stack.headD 0 := h.cur
  have hs : m'.stack = m.stack.tail := h.stack
  have ht : m'.tokens = m.tokens := h.tokens
  have hp : m'.phase = .before := h.phase
  cases hS : m.stack with
  | nil => simp [credit, hc, hs, ht, hS, h0, weight]
  | cons i S =>
    have := weight_before_le ((m'.face m'.cur).map Face.name)
    simp only [credit, hp, hs, ht, hS, List.tail_cons, List.length_cons] at *
    omega

/-- A rule that takes over. -/
theorem credit_replace (h : SameControl (m.replace r .expr) m') :
    m'.credit = 9 * m.tokens.length + 2 * m.stack.length + 5 := by
  have hs : m'.stack = m.stack := h.stack
  have ht : m'.tokens = m.tokens := h.tokens
  have hf : m'.face m'.cur = some ⟨.expr, r.n, 0⟩ := by
    rw [h.face, h.cur]
    exact face_eq cell_replace_next
  rw [credit_of_name h.phase ⟨_, hf, rfl⟩, hs, ht]
  rfl

/-- A rule that goes on to its close. -/
theorem credit_stay (r : Rule α) (ts : List (Sym Op α)) (hc : SameControl m m₁) :
    ((m₁.stay r).withTokens ts).credit ≤ 9 * ts.length + 2 * m.stack.length + 7 := by
  have hw := weight_before_le ((((m₁.stay r).withTokens ts).face m₁.cur).map Face.name)
  have hs : ((m₁.stay r).withTokens ts).credit = 9 * ts.length + 2 * m₁.stack.length +
      weight .before ((((m₁.stay r).withTokens ts).face m₁.cur).map Face.name) := rfl
  rw [hs, hc.stack]
  omega

end Credit

section Step

variable {m m' : Machine σ α} {r : Rule α}

theorem credit_openVal (hp : m.phase = .opening) (hr : m.rules.cell m.cur = some r)
    (hn : r.name = .val) (hstep : m.openVal r = some m') : m'.credit < m.credit := by
  rw [credit_of_name hp (hn ▸ named_cur hr)]
  obtain ⟨r₁, p, ts, hn₁, -, -, rfl⟩ | ⟨r₁, ts, -, ⟨a, ht⟩ | ⟨ht, rfl⟩, rfl⟩ := openVal_cases hstep
  · have htok : (m.push r₁ .expr).tokens = m.tokens := rfl
    rw [(pushes_push r₁ .expr hr hn₁).credit, htok]
    simp only [weight]
    omega
  · have := credit_stay r₁ ts (.refl m)
    simp only [ht, List.length_cons, weight]
    omega
  · have := credit_stay r₁ [] (.refl m)
    simp only [ht, weight]
    omega

theorem credit_openExpr (hp : m.phase = .opening) (hr : m.rules.cell m.cur = some r)
    (hn : r.name = .expr) (hstep : m.openExpr r = some m') : m'.credit < m.credit := by
  rw [credit_of_name hp (hn ▸ named_cur hr)]
  cases opensExpr hstep with
  | paren =>
    have htok : (m.push r .paren).tokens = m.tokens := rfl
    rw [(pushes_push r .paren hr rfl).credit, htok]
    simp only [weight]
    omega
  | @pre p ts m₁ v ht _ hc =>
    rw [(pushes_val { r.n with expr := r.n.expr + 1 } v r.parent ts hc hr).credit, ht, Machine.withTokens]
    simp only [List.length_cons, weight]
    omega
  | @inf o ts m₁ v i ht hc =>
    rw [(pushes_val (Counters.more r.n) v i ts hc hr).credit, ht, Machine.withTokens]
    simp only [List.length_cons, weight]
    omega
  | @suf o ts m₁ r₁ ht hc =>
    have := credit_stay r₁ ts hc
    simp only [ht, List.length_cons, weight]
    omega

theorem credit_openParenRule (hp : m.phase = .opening) (hr : m.rules.cell m.cur = some r)
    (hn : r.name = .paren) (hstep : m.openParenRule r = some m') : m'.credit < m.credit := by
  rw [credit_of_name hp (hn ▸ named_cur hr)]
  obtain ⟨r₁, p, ts, hn₁, ht, rfl | ⟨q, us, -, rfl⟩⟩ := openParenRule_cases hstep
  · rw [(pushes_withTokens r₁ .val hr hn₁ ts).credit, ht, Machine.withTokens]
    simp only [List.length_cons, weight]
    omega
  · have := credit_stay r₁ ts (.refl m)
    simp only [ht, List.length_cons, weight]
    omega

/-- A rule that is no paren's closes. -/
theorem credit_departs (hp : m.phase = .closing) (hr : m.rules.cell m.cur = some r)
    (h0 : m'.face 0 = none) (hd : Departs m r m') : m'.credit < m.credit := by
  have hm := credit_of_name hp (named_cur hr)
  simp only [weight] at hm
  obtain ⟨r₁, -, hc⟩ | ⟨r₁, o, ts, -, -, -, hc⟩ := hd
  · have := credit_pop hc h0
    omega
  · rw [credit_replace hc]
    omega

theorem credit_closeParenRule (hp : m.phase = .closing) (hr : m.rules.cell m.cur = some r)
    (h0 : m'.face 0 = none) (hstep : m.closeParenRule r = some m') : m'.credit < m.credit := by
  have hm := credit_of_name hp (named_cur hr)
  simp only [weight] at hm
  obtain ⟨q, ts, r₁, m₁, ht, hc₁, -, hc⟩ := closeParenRule_cases hstep
  have ht₁ : ((m₁.withTokens ts).pop r₁).tokens = ts := rfl
  have := credit_pop (m := m₁.withTokens ts) hc h0
  simp only [Machine.withTokens, hc₁.stack] at this
  simp only [ht, List.length_cons] at hm
  omega

/-- A rule on its way to its close. -/
theorem credit_before (hp : m.phase = .before) (hr : m.rules.cell m.cur = some r)
    (hp' : m'.phase = .closing) (hn : Named m' m'.cur r.name) (hs : m'.stack = m.stack)
    (ht : m'.tokens = m.tokens) : m'.credit < m.credit := by
  rw [credit_of_name hp (named_cur hr), credit_of_name hp' hn, hs, ht]
  simp only [weight]
  omega

theorem credit_step (h0 : m.face 0 = none) (h : m.step evaluate = some m') : m'.credit < m.credit := by
  have h0' := (moves_step h).norule h0
  obtain ⟨r, hr⟩ := rule_of_step h
  have hN := (named_cur hr).moves (moves_step h)
  unfold Machine.step at h
  simp only [hr] at h
  split at h
  · next hp hn => exact credit_openVal hp hr hn h
  · next hp hn => exact credit_openExpr hp hr hn h
  · next hp hn => exact credit_openParenRule hp hr hn h
  · next hp _ =>
    obtain rfl := Option.some.inj h
    exact credit_before hp hr rfl hN rfl rfl
  · next hp _ =>
    obtain rfl := Option.some.inj h
    have hc := SameControl.beforeExpr m r
    exact credit_before hp hr hc.phase (hc.cur.symm ▸ hN) hc.stack hc.tokens
  · next hp _ =>
    obtain rfl := Option.some.inj h
    exact credit_before hp hr rfl hN rfl rfl
  · next hp hn => exact credit_departs hp hr h0' (closeVal_departs hr hn h)
  · next hp hn => exact credit_departs hp hr h0' (closeExpr_departs hr hn h)
  · next hp _ => exact credit_closeParenRule hp hr h0' h

end Step

/-! ## Runs -/

section Runs

variable {m m' : Machine σ α} {k n fuel : ℕ}

/-- The state `k` steps on, if the rules go that far. -/
def steps (evaluate : Option (Evaluator σ α)) : ℕ → Machine σ α → Option (Machine σ α)
  | 0, m => some m
  | k + 1, m => (m.step evaluate).bind (steps evaluate k)

/-- A run takes no more steps than its first state has credit for. -/
theorem steps_le_credit (h0 : m.face 0 = none) (h : steps evaluate k m = some m') :
    k + m'.credit ≤ m.credit := by
  induction k generalizing m with
  | zero =>
    obtain rfl := Option.some.inj h
    omega
  | succ k ih =>
    obtain ⟨m₁, h₁, h⟩ := Option.bind_eq_some_iff.1 h
    have := ih ((moves_step h₁).norule h0) h
    have := credit_step h0 h₁
    omega

/-- More fuel than there is credit changes nothing. -/
theorem run_of_credit (h0 : m.face 0 = none) (h : run evaluate fuel m = some m') (hn : m.credit < n) :
    run evaluate n m = some m' := by
  induction fuel generalizing m n with
  | zero => cases h
  | succ fuel ih =>
    obtain ⟨n, rfl⟩ := Nat.exists_eq_add_one_of_ne_zero (Nat.ne_zero_of_lt hn)
    unfold run at h ⊢
    split at h
    · obtain ⟨m₁, h₁, h⟩ := Option.bind_eq_some_iff.1 h
      have := credit_step h0 h₁
      simp only [h₁, Option.bind_some]
      exact ih ((moves_step h₁).norule h0) h (by omega)
    · exact h
    · cases h

theorem credit_start (env : σ) (ts : List (Sym Op α)) : (start env ts).credit = 9 * ts.length + 8 := rfl

/-- Whatever the tokens and the evaluator, the rules take at most nine steps for each token and eight
more, so they come to an end or to a token they refuse, and `9 * ts.length + 9` of fuel decides which. -/
theorem run_bounded (evaluate : Option (Evaluator σ α)) (env : σ) (ts : List (Sym Op α)) :
    (∀ k, (steps evaluate k (start env ts)).isSome → k ≤ 9 * ts.length + 8) ∧
      ∀ m, (∃ fuel, run evaluate fuel (start env ts) = some m) ↔
        run evaluate (9 * ts.length + 9) (start env ts) = some m := by
  have hcredit := credit_start env ts
  refine ⟨fun k hk => ?_, fun m => ⟨?_, fun h => ⟨_, h⟩⟩⟩
  · obtain ⟨m, hm⟩ := Option.isSome_iff_exists.1 hk
    have := steps_le_credit rfl hm
    omega
  · rintro ⟨fuel, h⟩
    exact run_of_credit rfl h (by omega)

end Runs

end TabnasExpr.Rules
