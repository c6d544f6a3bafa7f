import TabnasExpr.Rules.Outcome

/-!
# Where the rules move

Which rule the engine goes to next depends on the names and counters of its rules, and not on the nodes
they hold.  Each step is one of a few moves: a rule starts above the current one, takes over from it,
goes on to its close, or is done.
-/

namespace TabnasExpr.Rules

open OpTree Machine

universe u v

variable {σ : Type v} {α : Type u} {evaluate : Option (Evaluator σ α)}

/-! ## What moves depend on -/

/-- The part of a rule the engine's moves depend on. -/
structure Face where
  name : RuleName
  n : Counters
  child : ℕ

def Rule.face (r : Rule α) : Face := ⟨r.name, r.n, r.child⟩

namespace Machine

variable {m : Machine σ α} {r r₀ : Rule α} {i : ℕ} {name : RuleName}

/-- The rule `i` as far as the engine's moves depend on it. -/
def face (m : Machine σ α) (i : ℕ) : Option Face := (m.rules.cell i).map Rule.face

theorem face_eq (h : m.rules.cell i = some r) : m.face i = some r.face := by
  simp [face, h]

theorem face_setNode (j : ℕ) (v : Val α) : (m.setNode j v).face i = m.face i := by
  unfold face
  by_cases hij : i = j
  · subst hij
    cases hr : m.rules.cell i with
    | none => simp [setNode, hr]
    | some r => simp [setNode, hr, Rule.face]
  · rw [cell_setNode_of_ne hij]

theorem face_put (hr : m.rules.cell m.cur = some r₀) (hf : r.face = r₀.face) :
    (m.put r).face i = m.face i := by
  by_cases hi : i = m.cur
  · subst hi
    simp [face, put, hr, hf]
  · simp [face, put, Store.cell_modify_of_ne _ hi]

theorem face_of_keeps {m' : Machine σ α} {j : ℕ} (h : Keeps m.rules m'.rules j) (hi : i ≠ j)
    (hf : m.face i ≠ none) : m'.face i = m.face i := by
  unfold face at hf ⊢
  cases hr : m.rules.cell i with
  | none => simp [hr] at hf
  | some r => rw [h i r hi hr]

end Machine

/-- Two states with the same rules to move, at the same place. -/
structure SameControl (m m' : Machine σ α) : Prop where
  face : ∀ i, m'.face i = m.face i
  cur : m'.cur = m.cur
  stack : m'.stack = m.stack
  phase : m'.phase = m.phase
  tokens : m'.tokens = m.tokens

namespace SameControl

variable {m m' m'' : Machine σ α} {r : Rule α} {i : ℕ} {op : Op}

theorem refl (m : Machine σ α) : SameControl m m := ⟨fun _ => rfl, rfl, rfl, rfl, rfl⟩

theorem trans (h : SameControl m m') (h' : SameControl m' m'') : SameControl m m'' :=
  ⟨fun i => (h'.face i).trans (h.face i), h'.cur.trans h.cur, h'.stack.trans h.stack, h'.phase.trans h.phase,
    h'.tokens.trans h.tokens⟩

theorem setNode (m : Machine σ α) (i : ℕ) (v : Val α) : SameControl m (m.setNode i v) :=
  ⟨fun _ => face_setNode i v, rfl, rfl, rfl, rfl⟩

theorem setHeap (m : Machine σ α) (heap : Ts.Heap α) : SameControl m (m.setHeap heap) :=
  ⟨fun _ => rfl, rfl, rfl, rfl, rfl⟩

theorem prior (m : Machine σ α) (i : ℕ) (op : Op) : SameControl m (m.prior i op).1 := by
  unfold Machine.prior
  split
  · exact setHeap m _
  · exact (setHeap m _).trans (setNode _ _ _)

theorem prattify {v out : Val α} (h : m.prattify v op = some (m', out)) : SameControl m m' := by
  cases v with
  | undefined | atom => cases h
  | node i =>
    simp only [Machine.prattify, Option.map_eq_some_iff, Prod.mk.injEq] at h
    obtain ⟨_, -, rfl, -⟩ := h
    exact setHeap m _

theorem setWorld (m : Machine σ α) (w : World σ α) : SameControl m { m with world := w } :=
  ⟨fun _ => rfl, rfl, rfl, rfl, rfl⟩

/-- The after-close action moves nowhere. -/
theorem afterExpr (h : m.afterExpr evaluate i r = some m') : SameControl m m' := by
  unfold Machine.afterExpr at h
  split at h
  · exact Option.some.inj h ▸ refl m
  · split at h
    · exact Option.some.inj h ▸ refl m
    · split at h
      · obtain ⟨w, -, h⟩ := Option.bind_eq_some_iff.1 h
        exact Option.some.inj h ▸ (setWorld m w).trans (setNode _ _ _)
      · obtain ⟨w, -, h⟩ := Option.bind_eq_some_iff.1 h
        exact Option.some.inj h ▸ ((setWorld m w.1).trans (setNode _ _ _)).trans (setNode _ _ _)

theorem closeParen (m : Machine σ α) (r : Rule α) (p : Op) :
    SameControl m (m.closeParen r p).1 := by
  unfold Machine.closeParen
  simp only
  split_ifs
  · exact setHeap m _
  · exact refl m

theorem beforeExpr (m : Machine σ α) (r : Rule α) :
    SameControl { m with phase := .closing } (m.beforeExpr r) := by
  unfold Machine.beforeExpr
  simp only
  split
  · split
    · split_ifs
      · exact setHeap _ _
      · exact refl _
    · exact refl _
  · exact refl _

end SameControl

/-! ## What a move leaves as it was -/

/-- A move of the current rule: every other rule keeps its face, and the rule its name. -/
structure Moves (m m' : Machine σ α) : Prop where
  keeps : ∀ i, i ≠ m.cur → m.face i ≠ none → m'.face i = m.face i
  named : ∀ f, m.face m.cur = some f → ∃ f', m'.face m.cur = some f' ∧ f'.name = f.name
  norule : m.face 0 = none → m'.face 0 = none

/-- A rule of the given name starts, with the current one, now `f`, below it on the stack. -/
structure Pushes (m m' : Machine σ α) (name : RuleName) (f : Face) : Prop extends Moves m m' where
  phase : m'.phase = .opening
  stack : m'.stack = m.cur :: m.stack
  fresh : m.face m'.cur = none
  started : m'.face m'.cur = some ⟨name, f.n, 0⟩
  waits : m'.face m.cur = some { f with child := m'.cur }

section Moves

variable {m m₁ m' : Machine σ α} {r r₀ : Rule α} {i : ℕ} {name : RuleName} {S : List ℕ}

theorem face_eq_none : m.face i = none ↔ m.rules.cell i = none := Option.map_eq_none_iff

theorem moves_of_keeps {f : Face} (h : Keeps m.rules m'.rules m.cur) (hr : m.rules.cell m.cur = some r₀)
    (hf : m'.face m.cur = some f) (hn : f.name = r₀.name)
    (h0 : m.rules.cell 0 = none → m'.rules.cell 0 = none) : Moves m m' where
  keeps _ hi hfi := face_of_keeps h hi hfi
  named g hg := by
    rw [face_eq hr] at hg
    cases hg
    exact ⟨f, hf, hn⟩
  norule h := face_eq_none.2 (h0 (face_eq_none.1 h))

theorem Moves.same (h : SameControl m m₁) (h' : Moves m₁ m') : Moves m m' where
  keeps i hi hf := by
    rw [← h.cur] at hi
    rw [← h.face i] at hf ⊢
    exact h'.keeps i hi hf
  named f hf := by
    rw [← h.face, ← h.cur] at hf
    rw [← h.cur]
    exact h'.named f hf
  norule h0 := h'.norule ((h.face 0).trans h0)

theorem Moves.trans_same (h : Moves m m₁) (h' : SameControl m₁ m') : Moves m m' where
  keeps i hi hf := (h'.face i).trans (h.keeps i hi hf)
  named f hf := (h.named f hf).imp fun _ hf' => ⟨(h'.face _).trans hf'.1, hf'.2⟩
  norule h0 := (h'.face 0).trans (h.norule h0)

theorem Pushes.same {f : Face} (h : SameControl m m₁) (h' : Pushes m₁ m' name f) :
    Pushes m m' name f where
  toMoves := h'.toMoves.same h
  phase := h'.phase
  stack := by rw [h'.stack, h.cur, h.stack]
  fresh := (h.face _).symm.trans h'.fresh
  started := h'.started
  waits := h.cur ▸ h'.waits

theorem pushes_push (r : Rule α) (name : RuleName) (hr : m.rules.cell m.cur = some r₀)
    (hn : r.name = r₀.name) : Pushes m (m.push r name) name r.face := by
  have hw : (m.push r name).face m.cur = some { r.face with child := m.rules.last + 1 } :=
    face_eq (cell_push_cur hr)
  refine ⟨moves_of_keeps keeps_push hr hw hn fun h0 => norule_modify (norule_alloc h0), rfl, rfl, ?_,
    face_eq (cell_push_child hr), hw⟩
  exact face_eq_none.2 m.rules.cell_next

/-- A rule starts for what is left of the tokens. -/
theorem pushes_withTokens (r : Rule α) (name : RuleName) (hr : m.rules.cell m.cur = some r₀)
    (hn : r.name = r₀.name) (ts : List (Sym Op α)) :
    Pushes m ((m.push r name).withTokens ts) name r.face :=
  have h := pushes_push r name hr hn
  ⟨⟨h.keeps, h.named, h.norule⟩, h.phase, h.stack, h.fresh, h.started, h.waits⟩

/-- The current rule's record is written. -/
theorem moves_put (r : Rule α) (hr : m.rules.cell m.cur = some r₀) (hn : r.name = r₀.name)
    (hm : m'.rules = (m.put r).rules) : Moves m m' ∧ m'.face m.cur = some r.face := by
  have hf : m'.face m.cur = some r.face := by
    rw [face, hm]
    exact face_eq (cell_put_cur hr)
  exact ⟨moves_of_keeps (hm ▸ keeps_put) hr hf hn fun h0 => hm ▸ norule_modify h0, hf⟩

theorem moves_put_same (r' : Rule α) (hc : SameControl m m₁) (hr : m.rules.cell m.cur = some r)
    (hn : r'.name = r.name) (hm : m'.rules = (m₁.put r').rules) :
    Moves m m' ∧ m'.face m.cur = some r'.face := by
  obtain ⟨r₀, hr₀, he⟩ := Option.map_eq_some_iff.1
    (show m₁.face m₁.cur = some r.face by rw [hc.cur, hc.face, face_eq hr])
  obtain ⟨hm, hw⟩ := moves_put r' hr₀ (hn.trans (congrArg Face.name he).symm) hm
  exact ⟨hm.same hc, hc.cur ▸ hw⟩

/-- An action of the current rule that starts a `val` for an operand. -/
theorem pushes_val (n : Counters) (v : Val α) (p : ℕ) (ts : List (Sym Op α))
    (hc : SameControl m m₁) (hr : m.rules.cell m.cur = some r) :
    Pushes m ((m₁.push { r with n := n, node := v, parent := p } .val).withTokens ts) .val
      ⟨r.name, n, r.child⟩ := by
  obtain ⟨r₁, hr₁, he⟩ := Option.map_eq_some_iff.1
    (show m₁.face m₁.cur = some r.face by rw [hc.cur, hc.face, face_eq hr])
  have hn : r.name = r₁.name := (congrArg Face.name he).symm
  exact (pushes_withTokens { r with n := n, node := v, parent := p } .val hr₁ hn ts).same hc

end Moves

theorem before_ne_opening : Phase.before ≠ .opening := by decide

theorem closing_ne_opening : Phase.closing ≠ .opening := by decide

/-! ## Names and counters -/

section Names

variable (m : Machine σ α)

/-- The rule has the name. -/
def Named (i : ℕ) (name : RuleName) : Prop := ∃ f, m.face i = some f ∧ f.name = name

/-- A rule that hands the next token on when it closes: a `val` inside an expression, the rule of a
prefix operator, or that of a paren. -/
def Inner (i : ℕ) : Prop :=
  ∃ f, m.face i = some f ∧ (f.name = .val ∧ f.n.expr ≠ 0 ∨
    f.name = .expr ∧ (f.n.exprPrefix ≠ 0 ∨ Named m f.child .paren))

variable {m} {m' : Machine σ α} {i : ℕ} {name n n' : RuleName} {r : Rule α}

theorem Named.face_ne_none (h : Named m i name) : m.face i ≠ none := by
  obtain ⟨f, hf, -⟩ := h
  simp [hf]

theorem Inner.face_ne_none (h : Inner m i) : m.face i ≠ none := by
  obtain ⟨f, hf, -⟩ := h
  simp [hf]

theorem Named.eq (h : Named m i n) (h' : Named m i n') : n = n' := by
  obtain ⟨f, hf, rfl⟩ := h
  obtain ⟨f', hf', rfl⟩ := h'
  rw [Option.some.inj (hf.symm.trans hf')]

theorem named_cur (hr : m.rules.cell m.cur = some r) : Named m m.cur r.name := ⟨_, face_eq hr, rfl⟩

theorem face_cur_ne_none (hr : m.rules.cell m.cur = some r) : m.face m.cur ≠ none :=
  (named_cur hr).face_ne_none

theorem Named.moves (h : Moves m m') (hi : Named m i name) : Named m' i name := by
  by_cases hc : i = m.cur
  · obtain ⟨f, hf, rfl⟩ := hi
    subst hc
    exact h.named f hf
  · obtain ⟨f, hf, hn⟩ := hi
    exact ⟨f, (h.keeps i hc (by simp [hf])).trans hf, hn⟩

theorem Inner.moves (h : Moves m m') (hc : i ≠ m.cur) (hi : Inner m i) : Inner m' i := by
  obtain ⟨f, hf, hk⟩ := hi
  refine ⟨f, (h.keeps i hc (by simp [hf])).trans hf, ?_⟩
  exact hk.imp_right fun hx => ⟨hx.1, hx.2.imp_right (Named.moves h)⟩

theorem not_inner_of_val (hr : m.rules.cell m.cur = some r) (hn : r.name = .val)
    (he : r.n.expr = 0) : ¬ Inner m m.cur := by
  rintro ⟨f, hf, hk⟩
  obtain rfl : r.face = f := Option.some.inj ((face_eq hr).symm.trans hf)
  rcases hk with ⟨-, hk⟩ | ⟨hk, -⟩
  · exact hk he
  · exact absurd (hn.symm.trans hk) (by decide)

theorem not_inner_of_expr (hr : m.rules.cell m.cur = some r) (hn : r.name = .expr)
    (he : r.n.exprPrefix = 0) (hc : (m.rules.cell r.child).map Rule.name ≠ some .paren) :
    ¬ Inner m m.cur := by
  rintro ⟨f, hf, hk⟩
  obtain rfl : r.face = f := Option.some.inj ((face_eq hr).symm.trans hf)
  rcases hk with ⟨hk, -⟩ | ⟨-, hk | ⟨g, hg, hgn⟩⟩
  · exact absurd (hn.symm.trans hk) (by decide)
  · exact hk he
  · obtain ⟨rc, hrc, rfl⟩ := Option.map_eq_some_iff.1 hg
    exact hc ((congrArg (Option.map Rule.name) hrc).trans (congrArg some hgn))

end Names

/-! ## What a step does -/

/-- What an `expr` rule does when it opens. -/
inductive OpensExpr (m : Machine σ α) (r : Rule α) : Machine σ α → Prop
  | paren {p : Op} {ts} : m.tokens = .opn p :: ts → OpensExpr m r (m.push r .paren)
  | pre {p : Op} {ts m₁ v} : m.tokens = .pre p :: ts → r.n.exprPrefix ≠ 0 → SameControl m m₁ →
      OpensExpr m r ((m₁.push { r with n := { r.n with expr := r.n.expr + 1 }, node := v }
        .val).withTokens ts)
  | inf {o : Op} {ts m₁ v i} : m.tokens = .inf o :: ts → SameControl m m₁ →
      OpensExpr m r ((m₁.push { r with n := Counters.more r.n, node := v, parent := i }
        .val).withTokens ts)
  | suf {o : Op} {ts m₁ r₁} : m.tokens = .suf o :: ts → SameControl m m₁ → r₁.name = r.name →
      OpensExpr m r ((m₁.stay r₁).withTokens ts)

/-- What a rule that is no paren's does when it closes: it is done, or an `expr` rule takes over for an
operator. -/
def Departs (m : Machine σ α) (r : Rule α) (m' : Machine σ α) : Prop :=
  (∃ r₁, r₁.name = r.name ∧ SameControl (m.pop r₁) m') ∨
  ∃ r₁ o ts, r₁.name = r.name ∧ ¬ Inner m m.cur ∧ (m.tokens = .inf o :: ts ∨ m.tokens = .suf o :: ts) ∧
    SameControl (m.replace r₁ .expr) m'

namespace Machine

variable {m m' : Machine σ α} {r : Rule α}

theorem openVal_cases (h : m.openVal r = some m') :
    (∃ r₁ p ts, r₁.name = r.name ∧ r₁.n.expr = r.n.expr ∧
      (m.tokens = .pre p :: ts ∨ m.tokens = .opn p :: ts) ∧ m' = m.push r₁ .expr) ∨
    ∃ r₁ ts, r₁.face = r.face ∧ ((∃ a, m.tokens = .leaf a :: ts) ∨ m.tokens = [] ∧ ts = []) ∧
      m' = (m.stay r₁).withTokens ts := by
  unfold openVal at h
  split at h
  · next p ts ht => exact Or.inl ⟨_, p, ts, by rfl, by rfl, Or.inl ht, (Option.some.inj h).symm⟩
  · next p ts ht => exact Or.inl ⟨_, p, ts, rfl, rfl, Or.inr ht, (Option.some.inj h).symm⟩
  · next a ts ht => exact Or.inr ⟨_, ts, by rfl, Or.inl ⟨a, ht⟩, (Option.some.inj h).symm⟩
  · next ht =>
    refine Or.inr ⟨r, [], rfl, Or.inr ⟨ht, rfl⟩, ?_⟩
    obtain rfl := Option.some.inj h
    simp [withTokens, stay, put, ht]
  · cases h

theorem opensExpr (h : m.openExpr r = some m') : OpensExpr m r m' := by
  unfold openExpr at h
  split at h
  · next p ts ht => exact Option.some.inj h ▸ .paren ht
  · next p ts ht =>
    split at h
    · cases h
    · next hpre =>
      split at h
      · obtain ⟨⟨m₁, v⟩, h₁, h₂⟩ := Option.bind_eq_some_iff.1 h
        exact Option.some.inj h₂ ▸ .pre ht hpre (.prattify h₁)
      · exact Option.some.inj h ▸ .pre ht hpre (.prior m _ _)
  · next o ts ht =>
    simp only [Option.bind_eq_bind] at h
    split at h
    · obtain ⟨⟨m₁, v⟩, h₁, h₂⟩ := Option.bind_eq_some_iff.1 h
      exact Option.some.inj h₂ ▸ .inf (i := r.parent) ht (.prattify h₁)
    · split at h
      · obtain ⟨⟨m₁, v⟩, h₁, h₂⟩ := Option.bind_eq_some_iff.1 h
        exact Option.some.inj h₂ ▸ .inf ht (.prattify h₁)
      · exact Option.some.inj h ▸ .inf ht (.prior m _ _)
  · next o ts ht =>
    split at h
    · obtain ⟨⟨m₁, v⟩, h₁, h₂⟩ := Option.bind_eq_some_iff.1 h
      exact Option.some.inj h₂ ▸ .suf ht (.prattify h₁) (by rfl)
    · exact Option.some.inj h ▸ .suf ht (.prior m _ _) (by rfl)
  · cases h

theorem openParenRule_cases (h : m.openParenRule r = some m') :
    ∃ r₁ p ts, r₁.name = r.name ∧ m.tokens = .opn p :: ts ∧
      (m' = (m.push r₁ .val).withTokens ts ∨
        ∃ q us, ts = .cls q :: us ∧ m' = (m.stay r₁).withTokens ts) := by
  unfold openParenRule at h
  split at h
  · next p q ts ht =>
    split_ifs at h
    exact ⟨_, p, _, by rfl, ht, Or.inr ⟨q, ts, rfl, (Option.some.inj h).symm⟩⟩
  · next p ts _ ht => exact ⟨_, p, ts, by rfl, ht, Or.inl (Option.some.inj h).symm⟩
  · cases h

theorem closeVal_departs (hr : m.rules.cell m.cur = some r) (hn : r.name = .val)
    (h : m.closeVal r = some m') : Departs m r m' := by
  unfold closeVal at h
  split at h
  · next o ts ht =>
    obtain rfl := Option.some.inj h
    split_ifs with he
    · exact Or.inr ⟨_, o, ts, by rfl, not_inner_of_val hr hn he, Or.inl ht, .refl _⟩
    · exact Or.inl ⟨_, by rfl, .refl _⟩
  · next o ts ht =>
    obtain rfl := Option.some.inj h
    split_ifs with he
    · exact Or.inr ⟨_, o, ts, by rfl, not_inner_of_val hr hn he, Or.inr ht, .refl _⟩
    · exact Or.inl ⟨_, by rfl, .refl _⟩
  · split_ifs at h
    exact Or.inl ⟨r, rfl, Option.some.inj h ▸ .refl _⟩
  · exact Or.inl ⟨r, rfl, Option.some.inj h ▸ .refl _⟩
  · cases h

theorem closeExpr_departs (hr : m.rules.cell m.cur = some r) (hn : r.name = .expr)
    (h : m.closeExpr r evaluate = some m') : Departs m r m' := by
  have hend (he : m.endExpr r evaluate = some m') : Departs m r m' :=
    Or.inl ⟨{ r with n := { r.n with expr := 0 } }, rfl, .afterExpr he⟩
  have hpop (he : (m.pop r).afterExpr evaluate m.cur r = some m') : Departs m r m' :=
    Or.inl ⟨r, rfl, .afterExpr he⟩
  unfold closeExpr at h
  split at h
  · exact hend h
  · next hchild =>
    split at h
    · next o ts ht =>
      split_ifs at h with he
      · exact Or.inr ⟨r, o, ts, rfl, not_inner_of_expr hr hn he hchild, Or.inl ht, .afterExpr h⟩
      · exact hpop h
    · next o ts ht =>
      split_ifs at h with he
      · exact Or.inr ⟨r, o, ts, rfl, not_inner_of_expr hr hn he hchild, Or.inr ht, .afterExpr h⟩
      · exact hend h
    · split_ifs at h
      · exact hpop h
      · exact hend h
    · split_ifs at h
      exact hend h
    · cases h

theorem closeParenRule_cases (h : m.closeParenRule r = some m') :
    ∃ q ts r₁ m₁, m.tokens = .cls q :: ts ∧ SameControl m m₁ ∧ r₁.name = r.name ∧
      SameControl ((m₁.pop r₁).withTokens ts) m' := by
  unfold closeParenRule at h
  split at h
  · next q ts ht =>
    split_ifs at h
    exact ⟨q, ts, { r with node := (m.closeParen r q).2 }, (m.closeParen r q).1, ht,
      .closeParen m r q, rfl, Option.some.inj h ▸ (SameControl.setNode _ _ _).trans (.setNode _ _ _)⟩
  · cases h

end Machine

section StepMoves

variable {m m' : Machine σ α} {r : Rule α}

theorem moves_of_pop (r₁ : Rule α) (hr : m.rules.cell m.cur = some r) (hn : r₁.name = r.name)
    (hc : SameControl (m.pop r₁) m') : Moves m m' :=
  (moves_put r₁ hr hn (rfl : (m.pop r₁).rules = _)).1.trans_same hc

theorem moves_of_replace (r₁ : Rule α) (hr : m.rules.cell m.cur = some r) (hn : r₁.name = r.name)
    (hc : SameControl (m.replace r₁ .expr) m') : Moves m m' :=
  (moves_of_keeps keeps_replace hr (face_eq (cell_replace_cur hr)) hn
    fun h0 => norule_alloc (norule_modify h0)).trans_same hc

/-- Every step is a move of the current rule. -/
theorem moves_step (h : m.step evaluate = some m') : Moves m m' := by
  obtain ⟨r, hr⟩ := rule_of_step h
  unfold Machine.step at h
  simp only [hr] at h
  have hdeparts (hd : Departs m r m') : Moves m m' := by
    obtain ⟨r₁, hn₁, hc⟩ | ⟨r₁, o, ts, hn₁, -, -, hc⟩ := hd
    · exact moves_of_pop r₁ hr hn₁ hc
    · exact moves_of_replace r₁ hr hn₁ hc
  split at h
  · obtain ⟨r₁, p, ts, hn₁, -, -, rfl⟩ | ⟨r₁, ts, he₁, -, rfl⟩ := openVal_cases h
    · exact (pushes_push r₁ .expr hr hn₁).toMoves
    · exact (moves_put r₁ hr (congrArg Face.name he₁) (rfl : ((m.stay r₁).withTokens ts).rules = _)).1
  · cases opensExpr h with
    | paren => exact (pushes_push r .paren hr rfl).toMoves
    | pre _ _ hc => exact (pushes_val { r.n with expr := r.n.expr + 1 } _ r.parent _ hc hr).toMoves
    | inf _ hc => exact (pushes_val (Counters.more r.n) _ _ _ hc hr).toMoves
    | @suf o ts m₁ r₁ _ hc hn₁ =>
      exact (moves_put_same r₁ hc hr hn₁ (rfl : ((m₁.stay r₁).withTokens ts).rules = _)).1
  · obtain ⟨r₁, p, ts, hn₁, -, rfl | ⟨q, us, -, rfl⟩⟩ := openParenRule_cases h
    · exact (pushes_withTokens r₁ .val hr hn₁ ts).toMoves
    · exact (moves_put r₁ hr hn₁ (rfl : ((m.stay r₁).withTokens ts).rules = _)).1
  · obtain rfl := Option.some.inj h
    let r₁ := { r with node := coalesce r.node (m.node r.child) r.token }
    exact (moves_put r₁ hr rfl (rfl : (m.beforeVal r).rules = _)).1
  · have hm : Moves m { m with phase := .closing } :=
      ⟨fun _ _ _ => rfl, fun f hf => ⟨f, hf, rfl⟩, fun h0 => h0⟩
    exact hm.trans_same (Option.some.inj h ▸ .beforeExpr m r)
  · exact Option.some.inj h ▸ ⟨fun _ _ _ => rfl, fun f hf => ⟨f, hf, rfl⟩, fun h0 => h0⟩
  · next hn => exact hdeparts (closeVal_departs hr hn h)
  · next hn => exact hdeparts (closeExpr_departs hr hn h)
  · obtain ⟨q, ts, r₁, m₁, -, hc₁, hn₁, hc⟩ := closeParenRule_cases h
    exact (moves_put_same r₁ hc₁ hr hn₁ (rfl : ((m₁.pop r₁).withTokens ts).rules = _)).1.trans_same hc

end StepMoves

end TabnasExpr.Rules
