import TabnasExpr.Defaults
import TabnasExpr.Rules.Built

/-!
# How often the evaluator is called

The after-close action of an `expr` rule is meant for the root of an expression, where the counter
`expr` is zero.  The last close alternate sets the counter of every rule it closes to zero, and a
prefix operator that the expression ends after closes there too: the node above it is evaluated, and
again when the rule of that node closes.  The calls are one for each operator exactly when no prefix
operator below another operator stands before a suffix operator or at the end of the source.
-/

namespace TabnasExpr.Rules

open OpTree OpTree.Tree Ts Machine

universe u v

variable {σ : Type v} {α : Type u}

/-! ## The calls -/

/-- Every call has an operand for each slot of the operator. -/
def Full (cs : List (Call α)) : Prop := ∀ c ∈ cs, c.terms.length = c.op.terms

theorem Full.append {cs cs' : List (Call α)} (h : Full cs) (h' : Full cs') : Full (cs ++ cs') := by
  intro c hc
  rcases List.mem_append.1 hc with hc | hc
  · exact h c hc
  · exact h' c hc

theorem full_nil : Full ([] : List (Call α)) := fun _ hc => absurd hc List.not_mem_nil

section Calls

variable {E : Evaluator σ α} {T T' : Tree Op (Val α)} {v : Val α} {cs : List (Call α)} {ends : Bool}
  {ps : List Op} {d : ℕ}

/-- A tree is folded by one call for each operator in it. -/
theorem Folds.calls (h : Folds E T v cs) (hk : Slotted T) :
    (cs.map Call.op).Perm (operators T) ∧ Full cs := by
  induction T generalizing v cs with
  | hole => exact h.elim
  | leaf u =>
    obtain ⟨-, rfl⟩ := h
    exact ⟨List.Perm.refl _, full_nil⟩
  | pre o x ih =>
    obtain ⟨u, cs', hx, -, rfl⟩ := h
    obtain ⟨hperm, hfull⟩ := ih hx hk.2
    refine ⟨?_, hfull.append ?_⟩
    · simpa using (List.perm_append_singleton o _).trans (hperm.cons o)
    · simp [Full, (terms_front hk.1).1]
  | suf o x ih =>
    obtain ⟨u, cs', hx, -, rfl⟩ := h
    obtain ⟨hperm, hfull⟩ := ih hx hk.2
    refine ⟨?_, hfull.append ?_⟩
    · simpa using hperm.append_right [o]
    · simp [Full, Op.terms, hk.1]
  | grp o x ih =>
    obtain ⟨u, cs', hx, -, rfl⟩ := h
    obtain ⟨hperm, hfull⟩ := ih hx hk.2.2
    refine ⟨?_, hfull.append ?_⟩
    · simpa using (List.perm_append_singleton o _).trans (hperm.cons o)
    · simp [Full, Op.terms, hk.1]
  | inf o l r ihl ihr =>
    obtain ⟨u, cs₁, u', cs₂, hl, hr, -, rfl⟩ := h
    obtain ⟨hperm₁, hfull₁⟩ := ihl hl hk.2.1
    obtain ⟨hperm₂, hfull₂⟩ := ihr hr hk.2.2
    refine ⟨?_, (hfull₁.append hfull₂).append ?_⟩
    · have hr' : (cs₂.map Call.op ++ [o]).Perm (o :: operators r) :=
        (List.perm_append_singleton o _).trans (hperm₂.cons o)
      simpa using hperm₁.append hr'
    · simp [Full, Op.terms, hk.1]

/-- What is left of a tree has the operators that were not called. -/
theorem Left.calls (h : Left (some E) T cs T') (hk : Slotted T) :
    (cs.map Call.op ++ operators T').Perm (operators T) ∧ Full cs := by
  obtain ⟨v, hfold, rfl⟩ := h
  simpa using hfold.calls hk

theorem Closes.calls (h : Closes (some E) ends T cs T') (hk : Slotted T) :
    (cs.map Call.op ++ operators T').Perm (operators T) ∧ Full cs := by
  cases ends with
  | true => exact Left.calls h hk
  | false =>
    obtain ⟨rfl, rfl⟩ := h
    exact ⟨List.Perm.refl _, full_nil⟩

/-- An expression with an operator is not evaluated without a call. -/
theorem Left.calls_ne_nil (h : Left (some E) T cs T') (hk : Slotted T) (hT : operators T ≠ []) :
    cs ≠ [] := by
  rintro rfl
  obtain ⟨v, hfold, rfl⟩ := h
  exact hT (hfold.calls hk).1.symm.eq_nil

theorem Repeats.full (h : Repeats (some E) ends ps d T cs) (hk : Slotted T) : Full cs := by
  induction ps generalizing d cs with
  | nil =>
    obtain rfl : cs = [] := h
    exact full_nil
  | cons p ps ih =>
    obtain ⟨cs₁, cs₂, T', hrep, hcl, rfl⟩ := h
    exact (ih hrep).append (hcl.calls (kinded_edgeAt hk)).2

/-- A prefix operator that closes where the expression ends calls the evaluator on the node above
it. -/
theorem Repeats.eq_nil_iff (h : Repeats (some E) ends ps d T cs) (hk : Slotted T)
    (hT : operators (edgeAt d T) ≠ []) : cs = [] ↔ (ends = true → ps = []) := by
  cases ends with
  | false =>
    refine ⟨fun _ hends => absurd hends Bool.false_ne_true, fun _ => ?_⟩
    clear hT
    induction ps generalizing d cs with
    | nil => exact h
    | cons p ps ih =>
      obtain ⟨cs₁, cs₂, T', hrep, ⟨rfl, -⟩, rfl⟩ := h
      simpa using ih hrep
  | true =>
    cases ps with
    | nil => exact ⟨fun _ _ => rfl, fun _ => h⟩
    | cons p ps =>
      obtain ⟨cs₁, cs₂, T', -, hcl, rfl⟩ := h
      have hne := Left.calls_ne_nil hcl (kinded_edgeAt hk) hT
      simp [hne]

end Calls

/-! ## Which sequences are evaluated once -/

mutual

/-- No operator of the operand is evaluated again. -/
def Operand.NoRepeat : Operand α → Prop
  | .atom _ => True
  | .paren _ e => e.NoRepeat false

/-- No operator is evaluated again: where the expression may end, at a suffix operator or at the end
of the source, no prefix operator stands below another operator.  `ends` is about the token after the
expression. -/
def Expr.NoRepeat : Expr α → Bool → Prop
  | .lead ps x, ends => x.NoRepeat ∧ (ends = true → ps.length ≤ 1)
  | .more e _ ps x, ends => e.NoRepeat false ∧ x.NoRepeat ∧ (ends = true → ps = [])
  | .suffixed e _, _ => e.NoRepeat true

end

/-- The calls made for tokens with the operators `ops`, when the tree `T` is still to be evaluated:
the operators of calls that were made again are in excess. -/
def Accounts (ops : List Op) (cs : List (Call α)) (T : Tree Op (Val α)) (once : Prop) : Prop :=
  ∃ extra : List Op, (cs.map Call.op ++ operators T).Perm (ops ++ extra) ∧ Full cs ∧
    (extra = [] ↔ once)

section Accounts

variable {E : Evaluator σ α}

mutual

theorem Operand.Reads.accounts : {x : Operand α} → {cs : List (Call α)} → {y : Tree Op (Val α)} →
    x.Reads (some E) cs y → x.Kinded → Accounts (ops x.text) cs y x.NoRepeat
  | .atom _, _, _, ⟨hcs, hy⟩, _ => by
    subst hcs hy
    exact ⟨[], by simp [Operand.text, ops], full_nil, by simp [Operand.NoRepeat]⟩
  | .paren p e, _, _, ⟨cs₁, T, _, cs₂, he, hleft, hcs⟩, hk => by
    subst hcs
    obtain ⟨extra, hperm, hfull, hnil⟩ := he.accounts hk.2.2
    obtain ⟨hperm', hfull'⟩ := hleft.calls ((he.formed hk.2.2).closed hk.1 hk.2.1).slotted
    refine ⟨extra, ?_, hfull.append hfull', hnil⟩
    rw [List.perm_iff_count] at hperm hperm' ⊢
    intro o
    have h₁ := hperm o
    have h₂ := hperm' o
    simp [Operand.text, ops, List.count_append, List.count_cons] at h₁ h₂ ⊢
    omega

/-- Every operator of the tokens is called once, or is still in the tree, but for the prefix operators
that repeat calls. -/
theorem Expr.Reads.accounts : {e : Expr α} → {ends : Bool} → {cs : List (Call α)} →
    {T : Tree Op (Val α)} → {d : ℕ} → e.Reads (some E) ends cs T d → e.Kinded →
    Accounts (ops e.text) cs T (e.NoRepeat ends)
  | .lead [] x, _, _, _, _, ⟨_, hx⟩, hk => by
    obtain ⟨extra, hperm, hfull, hnil⟩ := hx.accounts hk.2
    exact ⟨extra, by simpa [Expr.text] using hperm, hfull, by simp [hnil, Expr.NoRepeat]⟩
  | .lead (p :: ps) x, ends, _, T, _, ⟨_, cs₁, y, cs₂, cs₃, hx, hrep, hcl, hcs⟩, hk => by
    subst hcs
    obtain ⟨extra, hperm, hfull, hnil⟩ := hx.accounts hk.2
    have hkind := ((hx.formed hk.2).prefixes hk.1).slotted
    obtain ⟨hperm', hfull'⟩ := hcl.calls hkind
    refine ⟨extra ++ cs₂.map Call.op, ?_, (hfull.append (hrep.full hkind)).append hfull', ?_⟩
    · rw [List.perm_iff_count] at hperm hperm' ⊢
      intro o
      have h₁ := hperm o
      have h₂ := hperm' o
      simp [Expr.text, ops, operators_prefixes, List.count_append, List.count_cons] at h₁ h₂ ⊢
      omega
    · have hrep' := hrep.eq_nil_iff hkind (by simp [edgeAt, prefixes])
      simp [hnil, hrep', Expr.NoRepeat]
  | .more e o ps x, ends, _, T, _, ⟨cs₁, T₁, _, cs₂, y, cs₃, he, hx, hT, hd, hrep, hcs⟩, hk => by
    subst hT hd hcs
    obtain ⟨extra₁, hperm₁, hfull₁, hnil₁⟩ := he.accounts hk.1
    obtain ⟨extra₂, hperm₂, hfull₂, hnil₂⟩ := hx.accounts hk.2.2.2
    have hform := he.formed hk.1
    have hyform := (hx.formed hk.2.2.2).prefixes hk.2.2.1
    have hkind := (hform.more hyform hk.2.1).slotted
    have hopen := open_attach o hform.complete
    refine ⟨extra₁ ++ extra₂ ++ cs₃.map Call.op, ?_, (hfull₁.append hfull₂).append (hrep.full hkind),
      ?_⟩
    · rw [List.perm_iff_count] at hperm₁ hperm₂ ⊢
      intro q
      have h₁ := hperm₁ q
      have h₂ := hperm₂ q
      simp [Expr.text, ops, operators_prefixes, operators_fill hopen, operators_attach,
        List.count_append, List.count_cons] at h₁ h₂ ⊢
      omega
    · have hnode : operators (edgeAt (attachDepth o T₁) (fill (prefixes ps y) (attach o T₁))) ≠ [] := by
        obtain ⟨l, hl⟩ := edgeAt_attach o T₁
        rw [edgeAt_fill (onEdge_attach o T₁), hl]
        simp [fill]
      have hrep' := hrep.eq_nil_iff hkind hnode
      simp [hnil₁, hnil₂, hrep', Expr.NoRepeat]
  | .suffixed e s, _, _, T, _, ⟨T₁, he, hT⟩, hk => by
    subst hT
    obtain ⟨extra, hperm, hfull, hnil⟩ := he.accounts hk.1
    refine ⟨extra, ?_, hfull, hnil⟩
    rw [List.perm_iff_count] at hperm ⊢
    intro o
    have h := hperm o
    simp [Expr.text, ops, operators_suffixed (he.formed hk.1).onEdge, List.count_append,
      List.count_cons] at h ⊢
    omega

end

end Accounts

/-- A run calls the evaluator once for each operator of the tokens, with an operand for each slot of
the operator. -/
def EvaluatesOnce (E : Evaluator σ α) (env : σ) (tokens : List (Sym Op α)) : Prop :=
  ∃ fuel m, run (some E) fuel (start env tokens) = some m ∧
    (m.world.calls.map Call.op).Perm (ops tokens) ∧ Full m.world.calls

theorem perm_append_iff {ops extra : List Op} : (ops ++ extra).Perm ops ↔ extra = [] := by
  refine ⟨fun h => ?_, fun h => by simp [h]⟩
  have := h.length_eq
  simpa using this

/-- For every evaluator that leaves the nodes of the rules alone and every sequence of tokens: where
nothing that it returns is in the way, the calls are one for each operator exactly when no prefix operator
repeats them; and the operators are those of the tree that is built without an evaluator. -/
theorem evaluatesOnce_iff {E : Evaluator σ α} {owns : σ → ℕ → Prop} (hE : Sparing E owns) {env : σ}
    (howns : ∀ i, ¬ owns env i) {e : Expr α} (hk : e.Kinded) :
    (∃ T, Builds e.text T ∧ operators T = ops e.text) ∧
      (Safe (some E) (start env e.text) → (EvaluatesOnce E env e.text ↔ e.NoRepeat true)) := by
  refine ⟨⟨_, Expr.builds hk, by rw [operators_group, e.operators_flat hk]⟩, fun hsafe => ?_⟩
  obtain ⟨fuel, m, t, T, cs, cs', hrun, -, -, hcalls, ⟨d, hreads⟩, hleft⟩ :=
    Expr.run_start (some E) (by simpa using hE) hk env howns hsafe
  obtain ⟨extra, hperm, hfull, hnil⟩ := hreads.accounts hk
  obtain ⟨hperm', hfull'⟩ := hleft.calls (hreads.formed hk).slotted
  have hall : (m.world.calls.map Call.op).Perm (ops e.text ++ extra) := by
    obtain ⟨v, hfold, -⟩ := hleft
    have h := (hfold.calls (hreads.formed hk).slotted).1
    rw [hcalls, List.map_append]
    exact (h.append_left _).trans hperm
  rw [← hnil]
  constructor
  · rintro ⟨fuel', m', hrun', honce, -⟩
    obtain rfl := run_unique hrun hrun'
    exact perm_append_iff.1 (hall.symm.trans honce)
  · rintro rfl
    refine ⟨fuel, m, hrun, by simpa using hall, ?_⟩
    rw [hcalls]
    exact hfull.append hfull'

/-! ## Two evaluators -/

/-- A callback that returns the number of its operands. -/
def countTerms : Evaluator Unit ℕ := fun _ terms heap env => (heap, env, .atom terms.length)

/-- A callback that returns a new expression with the operator and the operands. -/
def echo : Evaluator Unit ℕ := fun op terms heap env =>
  let (heap, i) := newNode heap op terms
  (heap, env, .node i)

theorem sparing_echo : Sparing echo fun _ _ => False := by
  refine ⟨fun op terms heap env i hi _ _ => Store.cell_alloc_of_ne_none hi, fun op terms heap env i hi => ?_,
    fun _ _ _ _ _ hi => hi.elim, fun op terms heap env i hi => Or.inr (Or.inr ?_)⟩
  · have hcell : (echo op terms heap env).1.cell i = heap.cell i := Store.cell_alloc_of_ne_none hi
    rwa [hcell]
  · obtain rfl : heap.last + 1 = i := Val.node.inj hi
    exact ⟨heap.cell_next, by simp [echo, newNode]⟩

instance [DecidableEq α] (m : Machine σ α) : Decidable m.Sound :=
  match h : m.rules.cell m.cur with
  | none => isTrue fun r hr => by simp [h] at hr
  | some r => decidable_of_iff ((m.phase = .opening → r.name = .expr → ∀ i ∈ m.entered r,
      i ∉ m.world.evaluated) ∧ (m.phase = .closing → r.name = .paren →
      parenValue m.world.heap (m.node r.child) r.node ≠ .undefined)) (by simp [Machine.Sound, h])

/-- All states of a run are sound that ends within so many steps. -/
def soundRun [DecidableEq α] (evaluate : Option (Evaluator σ α)) : ℕ → Machine σ α → Bool
  | 0, _ => false
  | fuel + 1, m => decide m.Sound && (m.step evaluate).all (soundRun evaluate fuel)

theorem safe_of_soundRun [DecidableEq α] {evaluate : Option (Evaluator σ α)} {m : Machine σ α}
    (fuel : ℕ) (h : soundRun evaluate fuel m) : Safe evaluate m := by
  refine Or.inr fun m' hs => ?_
  induction hs using Relation.ReflTransGen.head_induction_on generalizing fuel with
  | refl =>
    cases fuel with
    | zero => cases h
    | succ fuel => exact of_decide_eq_true (Bool.and_eq_true_iff.1 h).1
  | head hstep _ ih =>
    cases fuel with
    | zero => cases h
    | succ fuel =>
      have hall := (Bool.and_eq_true_iff.1 h).2
      rw [hstep, Option.all_some] at hall
      exact ih fuel hall

/-- `-1*(2+3)`: the value of the paren is an expression, which nothing goes into. -/
theorem evaluatesOnce_product : EvaluatesOnce echo () (Expr.text
    (.more (.lead [negative] (.atom 1)) multiplication []
      (.paren plain (.more (.lead [] (.atom 2)) addition [] (.atom 3))))) := by
  refine ((evaluatesOnce_iff sparing_echo (fun _ => id) ?_).2 ?_).2 ?_
  · simp [Expr.Kinded, Operand.Kinded, plain, parenDef, negative, prefixDef, addition, multiplication,
      infixDef]
  · exact safe_of_soundRun 60 (by decide +kernel)
  · simp [Expr.NoRepeat, Operand.NoRepeat]

/-- `1+-2`. -/
def sumOfNegative : Expr ℕ := .more (.lead [] (.atom 1)) addition [negative] (.atom 2)

/-- The prefix operator closes first and has the sum evaluated, which its own rule does again. -/
theorem sumOfNegative_evaluated_twice :
    (run (some countTerms) 100 (start () sumOfNegative.text)).map (·.world.calls.map Call.op) =
      some [negative, addition, negative, addition] ∧
    ¬ EvaluatesOnce countTerms () sumOfNegative.text := by
  have hcalls : (run (some countTerms) 100 (start () sumOfNegative.text)).map
      (·.world.calls.map Call.op) = some [negative, addition, negative, addition] := by
    decide +kernel
  refine ⟨hcalls, ?_⟩
  rintro ⟨fuel, m, hrun, hperm, -⟩
  obtain ⟨m', hrun', hm'⟩ := Option.map_eq_some_iff.1 hcalls
  obtain rfl := run_unique hrun hrun'
  have hlen := hperm.length_eq
  rw [hm'] at hlen
  exact absurd hlen (by decide)

end TabnasExpr.Rules
