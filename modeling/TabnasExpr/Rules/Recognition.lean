import TabnasExpr.Rules.Control
import TabnasExpr.Rules.Grammar

/-!
# The rules accept nothing but expressions

Which rule the engine goes to next depends on the names and counters of the rules on its stack.  In
every state of a run these rules stand for the parens and the operators a reader of expressions has
left open (`Matches`), whatever the nodes hold, so a run that comes to its end has read an expression,
or operators whose last operand is missing (`Reading.run`).
-/

namespace TabnasExpr.Rules

open OpTree Machine

universe u v

variable {σ : Type v} {α : Type u} {evaluate : Option (Evaluator σ α)}

/-! ## Open parens and operators on the stack -/

variable (m : Machine σ α)

/-- The rules of a reader's open parens, or, when an operand is due, those of the prefix operators and
of the operator before it as well, the innermost first. -/
inductive Holds : Context α → Option (Option (Expr α × Op) × List Op) → List ℕ → Prop
  | top : Holds .top none []
  | paren {p L head ps P X S} : Named m P .paren → Inner m X → Holds L (some (head, ps)) S →
      Holds (.paren p L head ps) none (P :: X :: S)
  | first {L W S} : Named m W .val → Holds L none S → Holds L (some (none, [])) (W :: S)
  | operator {L eo W Y S} : Inner m W → Named m Y .expr → Holds L none S →
      Holds L (some (some eo, [])) (W :: Y :: S)
  | pre {L head ps p W X S} : Inner m W → Inner m X → Holds L (some (head, ps)) S →
      Holds L (some (head, ps ++ [p])) (W :: X :: S)

/-- The rules that are still to close after an expression, above those of the parens it is in. -/
inductive Unwinds (L : Context α) : List ℕ → Prop
  | done {S} : Holds m L none S → Unwinds L S
  | base {i name S} : Named m i name → name ≠ .paren → Holds m L none S → Unwinds L (i :: S)
  | inner {i S} : Inner m i → Unwinds L S → Unwinds L (i :: S)

/-- A reader no rule of which is to take another operand: it has read an expression, or the source has
ended where an operand is due. -/
inductive Rests (toks : List (Sym Op α)) (L : Context α) : Config α → Prop
  | after {e} : Rests toks L (.after L e)
  | operand {head ps} : toks = [] → Rests toks L (.operand L head ps)

/-- The rules stand for where the reader is. -/
inductive Matches : Config α → Prop
  | operand {L head ps} : m.phase = .opening → Named m m.cur .val →
      Holds m L (some (head, ps)) (m.cur :: m.stack) → Matches (.operand L head ps)
  /-- The `expr` rule of a prefix operator or of a paren has started. -/
  | enters {L head ps} : m.phase = .opening → Named m m.cur .expr →
      (∃ p ts, m.tokens = .pre p :: ts ∨ m.tokens = .opn p :: ts) →
      Holds m L (some (head, ps)) m.stack → Matches (.operand L head ps)
  | opens {L head ps X S} : m.phase = .opening → Named m m.cur .paren → m.stack = X :: S →
      Inner m X → Holds m L (some (head, ps)) S → Matches (.operand L head ps)
  /-- The `expr` rule of an infix or suffix operator has started. -/
  | follows {L e} : m.phase = .opening → Named m m.cur .expr →
      (∃ o ts, m.tokens = .inf o :: ts ∨ m.tokens = .suf o :: ts) →
      Holds m L none m.stack → Matches (.after L e)
  | closes {L c S} : m.phase ≠ .opening → Rests m.tokens L c → Unwinds m L S → m.cur = S.headD 0 →
      m.stack = S.tail → Matches c

variable {m}

section Frames

variable {m' : Machine σ α} {L : Context α} {o : Option (Option (Expr α × Op) × List Op)}
  {S : List ℕ} {i : ℕ} {name : RuleName}

theorem Holds.mono (hN : ∀ i name, Named m i name → Named m' i name)
    (hI : ∀ i ∈ S, Inner m i → Inner m' i) (hS : Holds m L o S) : Holds m' L o S := by
  induction hS with
  | top => exact .top
  | paren hP hX _ ih =>
    simp only [List.mem_cons, forall_eq_or_imp] at hI
    exact .paren (hN _ _ hP) (hI.2.1 hX) (ih hI.2.2)
  | first hW _ ih =>
    simp only [List.mem_cons, forall_eq_or_imp] at hI
    exact .first (hN _ _ hW) (ih hI.2)
  | operator hW hY _ ih =>
    simp only [List.mem_cons, forall_eq_or_imp] at hI
    exact .operator (hI.1 hW) (hN _ _ hY) (ih hI.2.2)
  | pre hW hX _ ih =>
    simp only [List.mem_cons, forall_eq_or_imp] at hI
    exact .pre (hI.1 hW) (hI.2.1 hX) (ih hI.2.2)

theorem Unwinds.mono (hN : ∀ i name, Named m i name → Named m' i name)
    (hI : ∀ i ∈ S, Inner m i → Inner m' i) (hS : Unwinds m L S) : Unwinds m' L S := by
  induction hS with
  | done hS => exact .done (hS.mono hN hI)
  | base hi hn hS => exact .base (hN _ _ hi) hn (hS.mono hN fun i hm => hI i (List.mem_cons_of_mem _ hm))
  | inner hi _ ih =>
    simp only [List.mem_cons, forall_eq_or_imp] at hI
    exact .inner (hI.1 hi) (ih hI.2)

theorem Holds.moves (h : Moves m m') (hc : m.cur ∉ S) (hS : Holds m L o S) : Holds m' L o S :=
  hS.mono (fun _ _ => Named.moves h) fun _ hi => Inner.moves h fun he => hc (he ▸ hi)

/-- The current rule is still to hand on what it was to hand on. -/
theorem Holds.moves_head (h : Moves m m') (hc : m.cur ∉ S) (hi : Inner m m.cur → Inner m' m.cur)
    (hS : Holds m L o (m.cur :: S)) : Holds m' L o (m.cur :: S) := by
  refine hS.mono (fun _ _ => Named.moves h) fun i hm => ?_
  obtain rfl | hm := List.mem_cons.1 hm
  · exact hi
  · exact Inner.moves h fun he => hc (he ▸ hm)

theorem Unwinds.moves (h : Moves m m') (hc : m.cur ∉ S) (hS : Unwinds m L S) : Unwinds m' L S :=
  hS.mono (fun _ _ => Named.moves h) fun _ hi => Inner.moves h fun he => hc (he ▸ hi)

/-- A rule that is no paren's closes onto the rules below it. -/
theorem Unwinds.tail (hS : Unwinds m L (i :: S)) (hi : ¬ Named m i .paren) : Unwinds m L S := by
  cases hS with
  | done hS =>
    cases hS with
    | paren hP => exact absurd hP hi
  | base _ _ hS => exact .done hS
  | inner _ hS => exact hS

/-- A rule that does not hand the next token on stands right above the open parens. -/
theorem Unwinds.holds (hS : Unwinds m L (i :: S)) (hi : ¬ Named m i .paren) (hin : ¬ Inner m i) :
    Holds m L none S := by
  cases hS with
  | done hS =>
    cases hS with
    | paren hP => exact absurd hP hi
  | base _ _ hS => exact hS
  | inner hi => exact absurd hi hin

/-- Once the operand is read, the rules above the parens close one after another. -/
theorem Holds.unwinds (h : Holds m L o S) : Unwinds m L S := by
  induction h with
  | top => exact .done .top
  | paren hP hX h => exact .done (.paren hP hX h)
  | first hW h => exact .base hW (by decide) h
  | operator hW hY h => exact .inner hW (.base hY (by decide) h)
  | pre hW hX _ ih => exact .inner hW (.inner hX ih)

end Frames

/-! ## Steps -/

/-- A state of a run on the tokens `ts`, with the reader of these tokens. -/
structure Reading (ts : List (Sym Op α)) (m : Machine σ α) (c : Config α) : Prop where
  text : c.text ++ m.tokens = ts
  here : Matches m c
  nodup : (m.cur :: m.stack).Nodup
  alloc : ∀ i ∈ m.stack, m.face i ≠ none
  norule : m.face 0 = none

/-- Where a step leads: the reader takes the token the rules take, if any. -/
def Leads (ts : List (Sym Op α)) (c : Config α) (m' : Machine σ α) : Prop :=
  ∃ us c', c.read us = some c' ∧ Reading ts m' c'

/-- Every close paren is of the operator of every open paren. -/
def OneParen (ts : List (Sym Op α)) : Prop :=
  ∀ p q, .opn p ∈ ts → .cls q ∈ ts → q = p

/-- No open paren is closed at once. -/
def NoEmpty (ts : List (Sym Op α)) : Prop :=
  ∀ us p q vs, ts ≠ us ++ .opn p :: .cls q :: vs

section Steps

variable {ts : List (Sym Op α)} {m m₁ m' : Machine σ α} {c c' : Config α} {r r₀ : Rule α} {i : ℕ}
  {name : RuleName} {f : Face} {tok : Sym Op α} {rest : List (Sym Op α)}

theorem Reading.leads (h : Reading ts m c) (us : List (Sym Op α)) (hm : Moves m m')
    (hr : m.face m.cur ≠ none) (hread : c.read us = some c') (ht : m.tokens = us ++ m'.tokens)
    (hM : Matches m' c') (hnodup : (m'.cur :: m'.stack).Nodup) (hs : ∀ i ∈ m'.stack, i ∈ m.cur :: m.stack) :
    Leads ts c m' := by
  refine ⟨us, c', hread, ?_, hM, hnodup, ?_, hm.norule h.norule⟩
  · rw [Config.text_read hread, List.append_assoc, ← ht, h.text]
  · intro i hi
    by_cases hc : i = m.cur
    · obtain ⟨f, hf⟩ := Option.ne_none_iff_exists'.1 hr
      obtain ⟨f', hf', -⟩ := hm.named f hf
      rw [hc, hf']
      exact Option.some_ne_none _
    · have hi := h.alloc i ((List.mem_cons.1 (hs i hi)).resolve_left hc)
      rw [hm.keeps i hc hi]
      exact hi

theorem Reading.cur_not_mem (h : Reading ts m c) : m.cur ∉ m.stack := (List.nodup_cons.1 h.nodup).1

/-- A rule starts above the current one. -/
theorem Reading.pushes (h : Reading ts m c) (us : List (Sym Op α)) (hm : Pushes m m' name f)
    (hr : m.face m.cur ≠ none) (hread : c.read us = some c') (ht : m.tokens = us ++ m'.tokens)
    (hM : Matches m' c') : Leads ts c m' := by
  refine h.leads us hm.toMoves hr hread ht hM ?_ fun i hi => hm.stack ▸ hi
  rw [hm.stack]
  refine List.nodup_cons.2 ⟨fun hi => ?_, h.nodup⟩
  obtain he | hi := List.mem_cons.1 hi
  · exact hr (he ▸ hm.fresh)
  · exact h.alloc _ hi hm.fresh

/-- The current rule goes on to its close. -/
theorem Reading.stays (h : Reading ts m c) (us : List (Sym Op α)) (hm : Moves m m')
    (hr : m.face m.cur ≠ none) (hc : m'.cur = m.cur) (hs : m'.stack = m.stack) (hread : c.read us = some c')
    (ht : m.tokens = us ++ m'.tokens) (hM : Matches m' c') : Leads ts c m' := by
  refine h.leads us hm hr hread ht hM ?_ fun i hi => List.mem_cons_of_mem _ (hs ▸ hi)
  rw [hc, hs]
  exact h.nodup

/-- The current rule is done. -/
theorem Reading.pops (h : Reading ts m c) (us : List (Sym Op α)) (hm : Moves m m')
    (hr : m.face m.cur ≠ none) (hc : m'.cur = m.stack.headD 0) (hs : m'.stack = m.stack.tail)
    (hread : c.read us = some c') (ht : m.tokens = us ++ m'.tokens) (hM : Matches m' c') : Leads ts c m' := by
  refine h.leads us hm hr hread ht hM ?_ fun i hi =>
    List.mem_cons_of_mem _ (List.mem_of_mem_tail (hs ▸ hi))
  have hn := (List.nodup_cons.1 h.nodup).2
  rw [hc, hs]
  cases hS : m.stack with
  | nil => exact List.nodup_singleton 0
  | cons i S => exact hS ▸ hn

/-- A rule takes over from the current one. -/
theorem Reading.replaces (h : Reading ts m c) (us : List (Sym Op α)) (hm : Moves m m')
    (hr : m.face m.cur ≠ none) (hc : m.face m'.cur = none) (hs : m'.stack = m.stack)
    (hread : c.read us = some c') (ht : m.tokens = us ++ m'.tokens) (hM : Matches m' c') : Leads ts c m' := by
  refine h.leads us hm hr hread ht hM ?_ fun i hi => List.mem_cons_of_mem _ (hs ▸ hi)
  rw [hs]
  exact List.nodup_cons.2 ⟨fun hi => h.alloc _ hi hc, (List.nodup_cons.1 h.nodup).2⟩

/-! ### The rule `val` -/

/-- A `val` hands the next token on or not by a counter it keeps. -/
theorem inner_of_val (hr : m.rules.cell m.cur = some r) (hn : r.name = .val)
    (hf : m'.face m.cur = some f) (hfn : f.name = .val) (hfe : f.n.expr = r.n.expr)
    (hi : Inner m m.cur) : Inner m' m.cur := by
  obtain ⟨g, hg, hk⟩ := hi
  obtain rfl : r.face = g := Option.some.inj ((face_eq hr).symm.trans hg)
  rcases hk with ⟨-, he⟩ | ⟨he, -⟩
  · exact ⟨f, hf, Or.inl ⟨hfn, hfe ▸ he⟩⟩
  · exact absurd (hn.symm.trans he) (by decide)

theorem Matches.of_val (h : Matches m c) (hp : m.phase = .opening) (hn : Named m m.cur .val) :
    ∃ L head ps, c = .operand L head ps ∧ Holds m L (some (head, ps)) (m.cur :: m.stack) := by
  cases h with
  | operand _ _ hH => exact ⟨_, _, _, rfl, hH⟩
  | enters _ hn' | opens _ hn' | follows _ hn' => cases hn.eq hn'
  | closes hp' => exact absurd hp hp'

theorem Reading.openVal (h : Reading ts m c) (hp : m.phase = .opening)
    (hr : m.rules.cell m.cur = some r) (hn : r.name = .val) (hstep : m.openVal r = some m') :
    Leads ts c m' := by
  obtain ⟨L, head, ps, rfl, hH⟩ := h.here.of_val hp (hn ▸ named_cur hr)
  have hf := face_cur_ne_none hr
  obtain ⟨r₁, p, rest, hn₁, he₁, ht, rfl⟩ | ⟨r₁, rest, he₁, ht, rfl⟩ := openVal_cases hstep
  · -- A prefix operator or a paren opens an expression.
    have hm := pushes_push r₁ .expr hr hn₁
    refine h.pushes [] hm hf rfl rfl (.enters hm.phase ⟨_, hm.started, rfl⟩ ⟨p, rest, ht⟩ ?_)
    rw [hm.stack]
    exact hH.moves_head hm.toMoves h.cur_not_mem (inner_of_val hr hn hm.waits (hn₁.trans hn) he₁)
  · -- The operand is a value, or missing.
    obtain ⟨hm, hw⟩ := moves_put r₁ hr (congrArg Face.name he₁)
      (rfl : ((m.stay r₁).withTokens rest).rules = _)
    rw [he₁] at hw
    have hU := (hH.moves_head hm h.cur_not_mem (inner_of_val hr hn hw hn rfl)).unwinds
    obtain ⟨a, ht⟩ | ⟨ht, rfl⟩ := ht
    · exact h.stays [.leaf a] hm hf rfl rfl rfl ht (.closes before_ne_opening .after hU rfl rfl)
    · exact h.stays [] hm hf rfl rfl rfl ht (.closes before_ne_opening (.operand rfl) hU rfl rfl)

/-! ### The rules `expr` and `paren` -/

theorem Matches.operand_of_expr (h : Matches m c) (hp : m.phase = .opening)
    (hn : Named m m.cur .expr) {p : Op} (ht : m.tokens = .pre p :: rest ∨ m.tokens = .opn p :: rest) :
    ∃ L head ps, c = .operand L head ps ∧ Holds m L (some (head, ps)) m.stack := by
  cases h with
  | enters _ _ _ hH => exact ⟨_, _, _, rfl, hH⟩
  | follows _ _ ht' =>
    obtain ⟨o, ts, ht' | ht'⟩ := ht' <;> rw [ht'] at ht <;> simp at ht
  | operand _ hn' | opens _ hn' => cases hn.eq hn'
  | closes hp' => exact absurd hp hp'

theorem Matches.after_of_expr (h : Matches m c) (hp : m.phase = .opening)
    (hn : Named m m.cur .expr) {o : Op} (ht : m.tokens = .inf o :: rest ∨ m.tokens = .suf o :: rest) :
    ∃ L e, c = .after L e ∧ Holds m L none m.stack := by
  cases h with
  | enters _ _ ht' =>
    obtain ⟨p, ts, ht' | ht'⟩ := ht' <;> rw [ht'] at ht <;> simp at ht
  | follows _ _ _ hH => exact ⟨_, _, rfl, hH⟩
  | operand _ hn' | opens _ hn' => cases hn.eq hn'
  | closes hp' => exact absurd hp hp'

/-- A `val` that an action of the current rule starts is inside an expression. -/
theorem Pushes.inner_val {n : Counters} {k : RuleName} {j : ℕ} (hm : Pushes m m' .val ⟨k, n, j⟩)
    (hn : n.expr ≠ 0) : Inner m' m'.cur := ⟨_, hm.started, Or.inl ⟨rfl, hn⟩⟩

theorem Reading.openExpr (h : Reading ts m c) (hp : m.phase = .opening)
    (hr : m.rules.cell m.cur = some r) (hn : r.name = .expr) (hstep : m.openExpr r = some m') :
    Leads ts c m' := by
  have hf := face_cur_ne_none hr
  have hname : Named m m.cur .expr := hn ▸ named_cur hr
  cases opensExpr hstep with
  | @paren p rest ht =>
    obtain ⟨L, head, ps, rfl, hH⟩ := h.here.operand_of_expr hp hname (.inr ht)
    have hm := pushes_push r .paren hr rfl
    refine h.pushes [] hm hf rfl rfl (.opens hm.phase ⟨_, hm.started, rfl⟩ hm.stack ?_ ?_)
    · exact ⟨_, hm.waits, Or.inr ⟨hn, Or.inr ⟨_, hm.started, rfl⟩⟩⟩
    · exact hH.moves hm.toMoves h.cur_not_mem
  | @pre p rest m₁ v ht hpre hc =>
    obtain ⟨L, head, ps, rfl, hH⟩ := h.here.operand_of_expr hp hname (.inl ht)
    have hm := pushes_val { r.n with expr := r.n.expr + 1 } v r.parent rest hc hr
    refine h.pushes [.pre p] hm hf rfl ht (.operand hm.phase ⟨_, hm.started, rfl⟩ ?_)
    rw [hm.stack]
    refine .pre (hm.inner_val (Nat.succ_ne_zero _)) ⟨_, hm.waits, Or.inr ⟨hn, Or.inl hpre⟩⟩ ?_
    exact hH.moves hm.toMoves h.cur_not_mem
  | @inf o rest m₁ v i ht hc =>
    obtain ⟨L, e, rfl, hH⟩ := h.here.after_of_expr hp hname (.inl ht)
    have hm := pushes_val (Counters.more r.n) v i rest hc hr
    refine h.pushes [.inf o] hm hf rfl ht (.operand hm.phase ⟨_, hm.started, rfl⟩ ?_)
    rw [hm.stack]
    refine .operator (hm.inner_val (Nat.succ_ne_zero _)) ⟨_, hm.waits, hn⟩ ?_
    exact hH.moves hm.toMoves h.cur_not_mem
  | @suf o rest m₁ r₁ ht hc hn₁ =>
    obtain ⟨L, e, rfl, hH⟩ := h.here.after_of_expr hp hname (.inr ht)
    obtain ⟨hm, hw⟩ := moves_put_same r₁ hc hr hn₁ (rfl : ((m₁.stay r₁).withTokens rest).rules = _)
    have hU : Unwinds ((m₁.stay r₁).withTokens rest) L (m.cur :: m.stack) :=
      .base ⟨_, hw, hn₁.trans hn⟩ (by decide) (hH.moves hm h.cur_not_mem)
    exact h.stays [.suf o] hm hf hc.cur hc.stack rfl ht
      (.closes before_ne_opening .after hU hc.cur hc.stack)

theorem Reading.openParenRule (h : Reading ts m c) (hne : NoEmpty ts) (hp : m.phase = .opening)
    (hr : m.rules.cell m.cur = some r) (hn : r.name = .paren)
    (hstep : m.openParenRule r = some m') : Leads ts c m' := by
  have hf := face_cur_ne_none hr
  have hname : Named m m.cur .paren := hn ▸ named_cur hr
  obtain ⟨L, head, ps, X, S, rfl, hS, hX, hH⟩ : ∃ L head ps X S, c = .operand L head ps ∧
      m.stack = X :: S ∧ Inner m X ∧ Holds m L (some (head, ps)) S := by
    cases h.here with
    | opens _ _ hS hX hH => exact ⟨_, _, _, _, _, rfl, hS, hX, hH⟩
    | operand _ hn' | enters _ hn' | follows _ hn' => cases hname.eq hn'
    | closes hp' => exact absurd hp hp'
  have hc := h.cur_not_mem
  rw [hS, List.mem_cons, not_or] at hc
  obtain ⟨r₁, p, rest, hn₁, ht, rfl | ⟨q, us, rfl, -⟩⟩ := openParenRule_cases hstep
  · have hm := pushes_withTokens r₁ .val hr hn₁ rest
    refine h.pushes [.opn p] hm hf rfl ht (.operand hm.phase ⟨_, hm.started, rfl⟩ ?_)
    rw [hm.stack, hS]
    exact .first ⟨_, hm.started, rfl⟩ (.paren (hname.moves hm.toMoves)
      (hX.moves hm.toMoves (Ne.symm hc.1)) (hH.moves hm.toMoves hc.2))
  · exact absurd (ht ▸ h.text).symm (hne _ p q us)

/-! ### Closing -/

theorem Matches.of_close (h : Matches m c) (hp : m.phase ≠ .opening) (h0 : m.face 0 = none)
    (hr : m.face m.cur ≠ none) : ∃ L, Rests m.tokens L c ∧ Unwinds m L (m.cur :: m.stack) := by
  cases h with
  | operand hp' | enters hp' | opens hp' | follows hp' => exact absurd hp' hp
  | @closes L _ S _ hR hU hc hs =>
    cases S with
    | nil => exact absurd (hc ▸ h0) hr
    | cons i S => exact ⟨L, hR, by rwa [hc, hs]⟩

/-- Where a token is left an expression has been read. -/
theorem Rests.eq_after {L : Context α} (h : Rests (tok :: rest) L c) : ∃ e, c = .after L e := by
  cases h with
  | after => exact ⟨_, rfl⟩
  | operand ht => cases ht

/-- The before-close action. -/
theorem Reading.beforeClose (h : Reading ts m c) (hp : m.phase ≠ .opening)
    (hr : m.rules.cell m.cur = some r) (hc : ∀ i, m'.face i = m.face i) (hcur : m'.cur = m.cur)
    (hs : m'.stack = m.stack) (ht : m'.tokens = m.tokens) (hp' : m'.phase ≠ .opening) :
    Leads ts c m' := by
  have hf := face_cur_ne_none hr
  obtain ⟨L, hR, hU⟩ := h.here.of_close hp h.norule hf
  have hm : Moves m m' :=
    ⟨fun i _ _ => hc i, fun f hf => ⟨f, (hc _).trans hf, rfl⟩, fun h0 => (hc 0).trans h0⟩
  have hN : ∀ i name, Named m i name → Named m' i name := fun _ _ => Named.moves hm
  have hI : ∀ i, Inner m i → Inner m' i := fun i ⟨f, hf, hk⟩ =>
    ⟨f, (hc i).trans hf, hk.imp_right fun hx => ⟨hx.1, hx.2.imp_right (hN _ _)⟩⟩
  exact h.stays [] hm hf hcur hs rfl ht.symm
    (.closes hp' (ht.symm ▸ hR) (hU.mono hN fun i _ => hI i) hcur hs)

/-- A rule that is no paren's closes, and the rule below it goes on. -/
theorem Reading.closes (h : Reading ts m c) (hp : m.phase ≠ .opening)
    (hr : m.rules.cell m.cur = some r) (hn : r.name ≠ .paren) (r₁ : Rule α) (hn₁ : r₁.name = r.name)
    (hc : SameControl (m.pop r₁) m') : Leads ts c m' := by
  have hf := face_cur_ne_none hr
  obtain ⟨L, hR, hU⟩ := h.here.of_close hp h.norule hf
  obtain ⟨hm, -⟩ := moves_put r₁ hr hn₁ (rfl : (m.pop r₁).rules = _)
  have hm := hm.trans_same hc
  have hU' := (hU.tail fun hn' => hn ((named_cur hr).eq hn')).moves hm h.cur_not_mem
  refine h.pops [] hm hf hc.cur hc.stack rfl hc.tokens.symm
    (.closes ?_ (hc.tokens.symm ▸ hR) hU' hc.cur hc.stack)
  rw [hc.phase]
  exact before_ne_opening

/-- An `expr` rule takes over for an infix or suffix operator. -/
theorem Reading.succeeds (h : Reading ts m c) (hp : m.phase ≠ .opening)
    (hr : m.rules.cell m.cur = some r) (hn : r.name ≠ .paren) (hi : ¬ Inner m m.cur) (r₁ : Rule α)
    (hn₁ : r₁.name = r.name) (ht : ∃ o rest, m.tokens = .inf o :: rest ∨ m.tokens = .suf o :: rest)
    (hc : SameControl (m.replace r₁ .expr) m') : Leads ts c m' := by
  have hf := face_cur_ne_none hr
  obtain ⟨L, hR, hU⟩ := h.here.of_close hp h.norule hf
  obtain ⟨e, rfl⟩ : ∃ e, c = .after L e := by
    obtain ⟨o, rest, ht | ht⟩ := ht <;> rw [ht] at hR <;> exact hR.eq_after
  have hm : Moves m (m.replace r₁ .expr) := moves_of_keeps keeps_replace hr
    (face_eq (cell_replace_cur hr)) hn₁ fun h0 => norule_alloc (norule_modify h0)
  have hm := hm.trans_same hc
  have hH := (hU.holds (fun hn' => hn ((named_cur hr).eq hn')) hi).moves hm h.cur_not_mem
  have hcur : m'.cur = m.rules.last + 1 := hc.cur
  have hstack : m'.stack = m.stack := hc.stack
  have hstart : m'.face m'.cur = some ⟨.expr, r₁.n, 0⟩ := by
    rw [hc.face, hcur]
    exact face_eq cell_replace_next
  refine h.replaces [] hm hf ?_ hstack rfl hc.tokens.symm
    (.follows hc.phase ⟨_, hstart, rfl⟩ ?_ (hstack ▸ hH))
  · rw [hcur]
    exact face_eq_none.2 m.rules.cell_next
  · rw [hc.tokens]
    exact ht

theorem Reading.departs (h : Reading ts m c) (hp : m.phase ≠ .opening)
    (hr : m.rules.cell m.cur = some r) (hn : r.name ≠ .paren) (hd : Departs m r m') : Leads ts c m' := by
  obtain ⟨r₁, hn₁, hc⟩ | ⟨r₁, o, rest, hn₁, hi, ht, hc⟩ := hd
  · exact h.closes hp hr hn r₁ hn₁ hc
  · exact h.succeeds hp hr hn hi r₁ hn₁ ⟨o, rest, ht⟩ hc

theorem Unwinds.of_paren {L : Context α} {S : List ℕ} (hU : Unwinds m L (i :: S))
    (hi : Named m i .paren) : ∃ p L' head ps X S', L = .paren p L' head ps ∧ S = X :: S' ∧
      Inner m X ∧ Holds m L' (some (head, ps)) S' := by
  cases hU with
  | done hS =>
    cases hS with
    | paren _ hX hH => exact ⟨_, _, _, _, _, _, rfl, rfl, hX, hH⟩
  | base hi' hn => exact absurd (hi'.eq hi) hn
  | inner hi' =>
    obtain ⟨f, hf, hk⟩ := hi'
    obtain ⟨f', hf', hn⟩ := hi
    obtain rfl : f = f' := Option.some.inj (hf.symm.trans hf')
    rcases hk with ⟨hk, -⟩ | ⟨hk, -⟩ <;> exact absurd (hk.symm.trans hn) (by decide)

theorem Reading.closeParenRule (h : Reading ts m c) (hone : OneParen ts) (hp : m.phase ≠ .opening)
    (hr : m.rules.cell m.cur = some r) (hn : r.name = .paren)
    (hstep : m.closeParenRule r = some m') : Leads ts c m' := by
  have hf := face_cur_ne_none hr
  obtain ⟨L, hR, hU⟩ := h.here.of_close hp h.norule hf
  obtain ⟨p, L, head, ps, X, S, rfl, hS, hX, hH⟩ := hU.of_paren (hn ▸ named_cur hr)
  have hcur := h.cur_not_mem
  rw [hS, List.mem_cons, not_or] at hcur
  obtain ⟨q, rest, r₁, m₁, ht, hc₁, hn₁, hc⟩ := closeParenRule_cases hstep
  rw [ht] at hR
  obtain ⟨e, rfl⟩ := hR.eq_after
  -- The token is of the operator of the paren that is open.
  obtain rfl : q = p := hone p q (by simp [← h.text, Config.text, Context.text])
    (by simp [← h.text, ht])
  obtain ⟨hm, -⟩ := moves_put_same r₁ hc₁ hr hn₁ (rfl : ((m₁.pop r₁).withTokens rest).rules = _)
  have hm := hm.trans_same hc
  have hcur' : m'.cur = m.stack.headD 0 := by
    rw [hc.cur, ← hc₁.stack]
    rfl
  have hstack' : m'.stack = m.stack.tail := by
    rw [hc.stack, ← hc₁.stack]
    rfl
  have hU' : Unwinds m' L (X :: S) :=
    .inner (hX.moves hm (Ne.symm hcur.1)) (hH.moves hm hcur.2).unwinds
  refine h.pops [.cls q] hm hf hcur' hstack' (Config.read_cons_of_next (Config.next_cls q L head ps e) [])
    ?_ (.closes ?_ .after hU' ?_ ?_)
  · rw [ht, hc.tokens]
    rfl
  · rw [hc.phase]
    exact before_ne_opening
  · rw [hcur', hS]
  · rw [hstack', hS]

/-- Every step of the rules is one of the reader, or leaves it where it is. -/
theorem Reading.step (h : Reading ts m c) (hone : OneParen ts) (hne : NoEmpty ts)
    (hstep : m.step evaluate = some m') : Leads ts c m' := by
  obtain ⟨r, hr⟩ := rule_of_step hstep
  have hbefore (hp : m.phase = .before) : m.phase ≠ .opening := hp ▸ before_ne_opening
  have hclosing (hp : m.phase = .closing) : m.phase ≠ .opening := hp ▸ closing_ne_opening
  unfold Machine.step at hstep
  simp only [hr] at hstep
  split at hstep
  · next hp hn => exact h.openVal hp hr hn hstep
  · next hp hn => exact h.openExpr hp hr hn hstep
  · next hp hn => exact h.openParenRule hne hp hr hn hstep
  · next hp _ =>
    exact Option.some.inj hstep ▸ h.beforeClose (hbefore hp) hr (fun _ => face_put hr rfl) rfl rfl rfl
      closing_ne_opening
  · next hp _ =>
    have hc := SameControl.beforeExpr m r
    exact Option.some.inj hstep ▸ h.beforeClose (hbefore hp) hr hc.face hc.cur hc.stack hc.tokens
      (hc.phase ▸ closing_ne_opening)
  · next hp _ =>
    exact Option.some.inj hstep ▸ h.beforeClose (hbefore hp) hr (fun _ => rfl) rfl rfl rfl
      closing_ne_opening
  · next hp hn => exact h.departs (hclosing hp) hr (by rw [hn]; decide) (closeVal_departs hr hn hstep)
  · next hp hn => exact h.departs (hclosing hp) hr (by rw [hn]; decide) (closeExpr_departs hr hn hstep)
  · next hp hn => exact h.closeParenRule hone (hclosing hp) hr hn hstep

/-- When no rule and no token is left, the reader has come to the end of an expression, or an operand is
due. -/
theorem Reading.ends (h : Reading ts m c) (hr : m.rules.cell m.cur = none) (ht : m.tokens = []) :
    (∃ e : Expr α, e.text = ts) ∨ ∃ head ps, danglingText head ps = ts := by
  have hf : m.face m.cur = none := face_eq_none.2 hr
  have htext : c.text = ts := by simpa [ht] using h.text
  cases h.here with
  | operand _ hn | enters _ hn | opens _ hn | follows _ hn => exact absurd hf hn.face_ne_none
  | closes _ hR hU hc =>
    have hout (i : ℕ) (hi : m.cur = i) : m.face i = none := hi ▸ hf
    cases hU with
    | done hS =>
      cases hS with
      | top =>
        cases hR with
        | @after e => exact Or.inl ⟨e, htext⟩
        | @operand head ps _ => exact Or.inr ⟨head, ps, htext⟩
      | paren hP => exact (hP.face_ne_none (hout _ hc)).elim
    | base hi => exact (hi.face_ne_none (hout _ hc)).elim
    | inner hi => exact (hi.face_ne_none (hout _ hc)).elim

/-- A run that comes to its end has read an expression, or operators without a last operand. -/
theorem Reading.run (hone : OneParen ts) (hne : NoEmpty ts) {fuel : ℕ} (h : Reading ts m c)
    (hrun : run evaluate fuel m = some m') :
    (∃ e : Expr α, e.text = ts) ∨ ∃ head ps, danglingText head ps = ts := by
  induction fuel generalizing m c with
  | zero => cases hrun
  | succ fuel ih =>
    cases hr : m.rules.cell m.cur with
    | none =>
      cases ht : m.tokens with
      | nil => exact h.ends hr ht
      | cons tok toks => simp [Rules.run, hr, ht] at hrun
    | some r =>
      cases hstep : m.step evaluate with
      | none => simp [Rules.run, hr, hstep] at hrun
      | some m₁ =>
        obtain ⟨_, _, -, h₁⟩ := h.step hone hne hstep
        exact ih h₁ ((run_step hstep fuel).symm.trans hrun)

end Steps

theorem reading_start (env : σ) (ts : List (Sym Op α)) : Reading ts (start env ts) .start where
  text := rfl
  here := .operand rfl ⟨_, rfl, rfl⟩ (.first ⟨_, rfl, rfl⟩ .top)
  nodup := List.nodup_singleton 1
  alloc _ hi := absurd hi List.not_mem_nil
  norule := rfl

end TabnasExpr.Rules
