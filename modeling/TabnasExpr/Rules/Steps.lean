import TabnasExpr.Rules.Expression
import TabnasExpr.Ts.Prattify

/-!
# Single steps of the rule machine

What each alternate does to the rules, one lemma for each, from a state given by its control fields
(`At`) and the records of the rules the alternate reads.
-/

namespace TabnasExpr.Rules

open OpTree OpTree.Tree Ts

universe u v

variable {σ : Type v} {α : Type u}

/-- The machine steps from one state to another. -/
abbrev Steps (evaluate : Option (Evaluator σ α)) : Machine σ α → Machine σ α → Prop :=
  Relation.ReflTransGen fun m m' => m.step evaluate = some m'

theorem Steps.of_step {evaluate : Option (Evaluator σ α)} {m m' : Machine σ α}
    (h : m.step evaluate = some m') : Steps evaluate m m' :=
  Relation.ReflTransGen.single h

/-- The nodes that the descent of the operator at the next token goes through. -/
def Machine.entered (m : Machine σ α) (r : Rule α) : List ℕ :=
  match m.tokens with
  | .inf op :: _ =>
    ((opAt m.world.heap (m.node r.parent)).or (opAt m.world.heap (m.node r.prev))).elim []
      fun q => descent m.world.heap op (m.world.heap.last + 1) q.1
  | .suf op :: _ =>
    (opAt m.world.heap (m.node r.prev)).elim []
      fun q => descent m.world.heap op (m.world.heap.last + 1) q.1
  | _ => []

/-- What the evaluator returned is not in the way of the next step: no infix or suffix operator goes
into a node of `EVALUATED`, and no paren closes over `undefined`. -/
def Machine.Sound (m : Machine σ α) : Prop :=
  ∀ r, m.rules.cell m.cur = some r →
    (m.phase = .opening → r.name = .expr → ∀ i ∈ m.entered r, i ∉ m.world.evaluated) ∧
    (m.phase = .closing → r.name = .paren →
      parenValue m.world.heap (m.node r.child) r.node ≠ .undefined)

/-- The evaluator, if there is one, returns scalars. -/
def Scalar (evaluate : Option (Evaluator σ α)) : Prop := ∀ E ∈ evaluate, ScalarValued E

theorem scalar_none : Scalar (none : Option (Evaluator σ α)) :=
  fun _ hE => absurd hE (Option.not_mem_none _)

/-- In no state from here on is what the evaluator returned in the way; scalars never are. -/
def Safe (evaluate : Option (Evaluator σ α)) (m : Machine σ α) : Prop :=
  Scalar evaluate ∨ ∀ m', Steps evaluate m m' → m'.Sound

theorem Safe.steps {evaluate : Option (Evaluator σ α)} {m m' : Machine σ α} (h : Safe evaluate m)
    (hs : Steps evaluate m m') : Safe evaluate m' :=
  h.imp_right fun h' m'' hs' => h' m'' (hs.trans hs')

/-- The control fields of a state. -/
structure At (m : Machine σ α) (cur : ℕ) (phase : Phase) (stack : List ℕ)
    (tokens : List (Sym Op α)) : Prop where
  cur : m.cur = cur
  phase : m.phase = phase
  stack : m.stack = stack
  tokens : m.tokens = tokens
  norule : m.rules.cell 0 = none

/-- Every rule but one has the record it had. -/
def Keeps (base rules : Store (Rule α)) (j : ℕ) : Prop :=
  ∀ i r, i ≠ j → base.cell i = some r → rules.cell i = some r

/-- The token that may follow an expression, in a paren or not. -/
def Follows (exprParen : ℕ) : List (Sym Op α) → Prop
  | [] => exprParen = 0
  | .inf _ :: _ => True
  | .suf _ :: _ => True
  | .cls _ :: _ => exprParen ≠ 0
  | _ => False

/-- The expression rule of a prefix operator ends at the next token. -/
def endsAt : List (Sym Op α) → Bool
  | [] => true
  | .suf _ :: _ => true
  | _ => false

section Keeps

variable {base rules rules' : Store (Rule α)} {i j k : ℕ} {r : Rule α}

/-- A part of the run that works on a rule of its own. -/
theorem Keeps.trans (h : Keeps base rules j) (h' : Keeps rules rules' k)
    (hk : k = j ∨ base.cell k = none) : Keeps base rules' j := by
  intro i r hi hr
  refine h' i r ?_ (h i r hi hr)
  rintro rfl
  obtain rfl | hk := hk
  · exact hi rfl
  · simp [hk] at hr

theorem keeps_modify (f : Rule α → Rule α) : Keeps rules (rules.modify j f) j :=
  fun _ _ hi hr => (Store.cell_modify_of_ne f hi).trans hr

theorem keeps_alloc : Keeps rules (rules.alloc r).1 j :=
  fun _ _ _ hr => Store.cell_alloc_of_some hr

/-- The rule that starts next is none of those there were. -/
theorem Keeps.next (h : Keeps base rules j) (hj : base.cell j ≠ none → rules.cell j ≠ none) :
    base.cell (rules.last + 1) = none := by
  by_contra hne
  obtain ⟨r, hr⟩ := Option.ne_none_iff_exists'.1 hne
  by_cases he : rules.last + 1 = j
  · exact hj (he ▸ hne) (he ▸ rules.cell_next)
  · simpa [rules.cell_next] using h _ r he hr

end Keeps

/-! ## Evaluating a stored tree -/

section Evaluation

variable {E : Evaluator σ α} {owns : σ → ℕ → Prop} {scalar : Prop} {w w' : World σ α}
  {t x : Tree (ℕ × Op) (Val α)} {p : ℕ × Op} {fuel : ℕ}

/-- An evaluation leads from one world to another and leaves a value that is no node of the rules, with
the calls made. -/
structure Evaluates (E : Evaluator σ α) (owns : σ → ℕ → Prop) (scalar : Prop) (fuel : ℕ)
    (w : World σ α) (u : Val α) (w' : World σ α) (v : Val α) (cs : List (Call α)) : Prop where
  eq : evaluation E fuel w u = some (w', v)
  calls : w'.calls = w.calls ++ cs
  grows : Grows owns w w'
  fit : Fit scalar w' v

/-- A node of the rules is evaluated once its terms are. -/
theorem evaluates_node {terms us : List (Val α)} {op : Op} {i : ℕ} {cs : List (Call α)}
    (hE : Sparing E owns) (hs : scalar → ScalarValued E) (hn : i ∉ w.evaluated)
    (hi : w.heap.cell i = some ⟨some op, terms⟩)
    (hm : mapTerms (evaluation E fuel) w terms = some (w', us)) (hcs : w'.calls = w.calls ++ cs)
    (hg : Grows owns w w') (hus : ∀ u ∈ us, Fit scalar w' u) :
    ∃ w'' v, Evaluates E owns scalar (fuel + 1) w (.node i) w'' v (cs ++ [⟨op, us⟩]) ∧
      Returns E op us v := by
  obtain ⟨hgrows, hfit⟩ := grows_call op hE hs hg.marked hus
  refine ⟨_, _, ⟨?_, ?_, hg.trans hgrows, hfit⟩, w'.heap, w'.env, _, _, rfl⟩
  · have hval : ((w'.call E op us).1.finish (w'.call E op us).2).2 = (w'.call E op us).2 := by
      cases (w'.call E op us).2 <;> rfl
    simp [evaluation, hn, hi, hm, Prod.ext_iff, hval]
  · obtain ⟨l, hl, -⟩ := finish_eq (w'.call E op us).1 (w'.call E op us).2
    rw [hl]
    simp [World.call, hcs]

/-- A tree on nodes of the rules is folded from its leaves up, each node with all its terms. -/
theorem evaluates_handle (hE : Sparing E owns) (hs : scalar → ScalarValued E) (hm : w.Marked owns)
    (ht : Stores layout w.heap t) (hclear : ∀ i ∈ ids t, ¬ w.Given owns i)
    (hl : Leaves (Fit scalar w) (erase t)) (hc : Complete t) (hf : (ids t).length < fuel) :
    ∃ w' v cs, Evaluates E owns scalar fuel w (handle t) w' v cs ∧ Folds E (erase t) v cs := by
  induction t generalizing w fuel with
  | hole => exact hc.elim
  | leaf v =>
    obtain ⟨fuel, rfl⟩ := Nat.exists_eq_succ_of_ne_zero (Nat.ne_of_gt hf)
    refine ⟨w, v, [], ⟨?_, (List.append_nil _).symm, .refl hm, hl⟩, rfl, rfl⟩
    cases v with
    | node i => simp [handle, evaluation, hl.1 i rfl]
    | undefined | atom => rfl
  | pre p x ih | suf p x ih | grp p x ih =>
    obtain ⟨fuel, rfl⟩ := Nat.exists_eq_succ_of_ne_zero (Nat.ne_zero_of_lt hf)
    obtain ⟨w₁, u, cs, hx, hfold⟩ := ih hm ht.2 (fun i hi => hclear i (List.mem_cons_of_mem _ hi)) hl hc
      (by simpa [ids] using hf)
    have hi := ht.1
    rw [slots_of_complete (x := x) hc] at hi
    have hmap : mapTerms (evaluation E fuel) w [handle x] = some (w₁, [u]) := by
      simp [mapTerms, hx.eq]
    obtain ⟨w₂, v, he, hr⟩ := evaluates_node hE hs (fun h => hclear p.1 List.mem_cons_self (Or.inl h)) hi
      hmap hx.calls hx.grows (by simpa using hx.fit)
    exact ⟨w₂, v, _, he, u, cs, hfold, hr, rfl⟩
  | inf p l r ihl ihr =>
    obtain ⟨fuel, rfl⟩ := Nat.exists_eq_succ_of_ne_zero (Nat.ne_zero_of_lt hf)
    simp only [ids, List.length_cons, List.length_append] at hf
    have hclear₁ : ∀ i ∈ ids l, ¬ w.Given owns i := fun i hi =>
      hclear i (List.mem_cons_of_mem _ (List.mem_append_left _ hi))
    have hclear₂ : ∀ i ∈ ids r, ¬ w.Given owns i := fun i hi =>
      hclear i (List.mem_cons_of_mem _ (List.mem_append_right _ hi))
    have hf₁ : (ids l).length < fuel := by omega
    have hf₂ : (ids r).length < fuel := by omega
    obtain ⟨w₁, u, cs₁, hx, hfold⟩ := ihl hm ht.2.1 hclear₁ hl.1 hc.1 hf₁
    -- The evaluation of the left operand leaves the right one as it is.
    have hr₁ : Stores layout w₁.heap r := ht.2.2.congr fun i hi =>
      hx.grows.same i (ht.2.2.cell_ne_none hi) (hclear₂ i hi)
    obtain ⟨w₂, u', cs₂, hy, hfold'⟩ := ihr hx.grows.marked hr₁ (fun i hi hn =>
      (hx.grows.given i hn).elim (hclear₂ i hi) (ht.2.2.cell_ne_none hi))
      (hl.2.mono fun _ hv => hv.grows hx.grows) hc.2 hf₂
    have hi := ht.1
    rw [slots_of_complete hc.1, slots_of_complete hc.2] at hi
    have hmap : mapTerms (evaluation E fuel) w [handle l, handle r] = some (w₂, [u, u']) := by
      simp [mapTerms, hx.eq, hy.eq]
    have hcalls : w₂.calls = w.calls ++ (cs₁ ++ cs₂) := by
      rw [hy.calls, hx.calls, List.append_assoc]
    obtain ⟨w₃, v, he, hret⟩ := evaluates_node hE hs
      (fun h => hclear p.1 List.mem_cons_self (Or.inl h)) hi hmap hcalls (hx.grows.trans hy.grows)
      (by simpa using ⟨hx.fit.grows hy.grows, hy.fit⟩)
    exact ⟨w₃, v, _, he, u, cs₁, u', cs₂, hfold, hfold', hret, rfl⟩

end Evaluation

namespace Machine

variable {m : Machine σ α} {r r₀ : Rule α} {name : RuleName} {i W : ℕ} {S : List ℕ}
  {tokens : List (Sym Op α)} {evaluate : Option (Evaluator σ α)}

theorem node_eq {i : ℕ} (h : m.rules.cell i = some r) : m.node i = r.node := by
  simp [node, h]

theorem node_norule (h : m.rules.cell 0 = none) : m.node 0 = .undefined := by
  simp [node, h]

theorem norule_modify {rules : Store (Rule α)} {j : ℕ} {f : Rule α → Rule α}
    (h : rules.cell 0 = none) : (rules.modify j f).cell 0 = none := by
  by_cases hj : 0 = j
  · subst hj
    simp [h]
  · rw [Store.cell_modify_of_ne _ hj, h]

theorem norule_alloc {rules : Store (Rule α)} (h : rules.cell 0 = none) :
    (rules.alloc r).1.cell 0 = none := by
  simp [Store.cell_alloc, h]

/-! ### Moving between rules -/

theorem next_ne (h : m.rules.cell i = some r) : m.rules.last + 1 ≠ i := by
  have := Store.le_last h
  omega

theorem cell_push_child (h : m.rules.cell m.cur = some r₀) :
    (m.push r name).rules.cell (m.rules.last + 1) =
      some (.start name r.node r.n m.cur 0) := by
  simp [push, Store.cell_modify_of_ne _ (next_ne h)]

theorem cell_push_cur (h : m.rules.cell m.cur = some r₀) :
    (m.push r name).rules.cell m.cur = some { r with child := m.rules.last + 1 } := by
  simp [push, Store.cell_alloc_of_some h]

theorem keeps_push : Keeps m.rules (m.push r name).rules m.cur :=
  keeps_alloc.trans (keeps_modify _) (Or.inl rfl)

theorem cell_replace_next :
    (m.replace r name).rules.cell (m.rules.last + 1) =
      some (.start name r.node r.n r.parent m.cur) := by
  simp [replace, put, Store.cell_alloc]

theorem cell_replace_cur (h : m.rules.cell m.cur = some r₀) :
    (m.replace r name).rules.cell m.cur = some r := by
  have hc : (m.put r).rules.cell m.cur = some r := by simp [put, h]
  exact Store.cell_alloc_of_some hc

theorem keeps_replace : Keeps m.rules (m.replace r name).rules m.cur :=
  (keeps_modify _).trans keeps_alloc (Or.inl rfl)

variable (name) in
/-- A rule that takes over starts from the node and the counters of the rule it replaces. -/
theorem at_replace {phase : Phase} (h : At m i phase S tokens) (hr : m.rules.cell i = some r₀) :
    At (m.replace r name) (m.rules.last + 1) .opening S tokens ∧
      (m.replace r name).rules.cell (m.rules.last + 1) =
        some (.start name r.node r.n r.parent i) ∧
      (m.replace r name).rules.cell i = some r ∧ Keeps m.rules (m.replace r name).rules i := by
  obtain ⟨rfl, -, rfl, rfl, h0⟩ := h
  exact ⟨⟨rfl, rfl, rfl, rfl, norule_alloc (norule_modify h0)⟩, cell_replace_next,
    cell_replace_cur hr, keeps_replace⟩

theorem cell_put_cur (h : m.rules.cell m.cur = some r₀) :
    (m.put r).rules.cell m.cur = some r := by
  simp [put, h]

theorem keeps_put : Keeps m.rules (m.put r).rules m.cur := keeps_modify _

theorem cell_setNode_self {v : Val α} (h : m.rules.cell i = some r) :
    (m.setNode i v).rules.cell i = some { r with node := v } := by
  simp [setNode, h]

theorem cell_setNode_of_ne {j : ℕ} (h : j ≠ i) (v : Val α) :
    (m.setNode i v).rules.cell j = m.rules.cell j :=
  Store.cell_modify_of_ne _ h

variable (name) in
/-- A push leaves the current rule waiting for a rule of its own. -/
theorem at_push (h : At m i .opening S tokens) (hr : m.rules.cell i = some r₀) :
    At (m.push r name) (m.rules.last + 1) .opening (i :: S) tokens ∧
      (m.push r name).rules.cell (m.rules.last + 1) = some (.start name r.node r.n i 0) ∧
      (m.push r name).rules.cell i = some { r with child := m.rules.last + 1 } ∧
      Keeps m.rules (m.push r name).rules i := by
  obtain ⟨rfl, -, rfl, rfl, h0⟩ := h
  exact ⟨⟨rfl, rfl, rfl, rfl, norule_modify (norule_alloc h0)⟩, cell_push_child hr,
    cell_push_cur hr, keeps_push⟩

/-! ### The rule `val` -/

section Val

variable {n : Counters} {v : Val α} {p : ℕ} {rest : List (Sym Op α)}

@[simp] theorem last_push : (m.push r name).rules.last = m.rules.last + 1 := rfl

theorem step_val (h : At m W .opening S tokens) (hr : m.rules.cell W = some r)
    (hn : r.name = .val) : m.step evaluate = m.openVal r := by
  simp only [step, h.cur, hr, h.phase, hn]

variable (evaluate) in
/-- A prefix operator opens an expression. -/
theorem step_val_pre {op : Op} (h : At m W .opening S (.pre op :: rest))
    (hr : m.rules.cell W = some r) (hn : r.name = .val) :
    m.step evaluate = some (m.push
      { r with n := { r.n with exprPrefix := r.n.exprPrefix + 1, exprSuffix := 0 } } .expr) := by
  rw [step_val h hr hn, openVal, h.tokens]

variable (evaluate) in
/-- An open paren opens an expression. -/
theorem step_val_opn {op : Op} (h : At m W .opening S (.opn op :: rest))
    (hr : m.rules.cell W = some r) (hn : r.name = .val) :
    m.step evaluate = some (m.push r .expr) := by
  rw [step_val h hr hn, openVal, h.tokens]

variable (evaluate) in
/-- The before-close action of a `val` rule. -/
theorem step_val_before (h : At m W .before S tokens) (hr : m.rules.cell W = some r)
    (hn : r.name = .val) :
    ∃ m', m.step evaluate = some m' ∧ At m' W .closing S tokens ∧
      m'.rules.cell W = some { r with node := coalesce r.node (m.node r.child) r.token } ∧
      Keeps m.rules m'.rules W ∧ m'.world = m.world := by
  obtain ⟨rfl, hp, rfl, rfl, h0⟩ := h
  refine ⟨m.beforeVal r, ?_, ⟨rfl, rfl, rfl, rfl, norule_modify h0⟩, ?_, keeps_put, rfl⟩
  · simp only [step, hr, hp, hn]
  · exact cell_put_cur hr

/-- A value is read. -/
theorem steps_leaf {a : α} (h : At m W .opening S (.leaf a :: rest))
    (hr : m.rules.cell W = some (.start .val v n p 0)) :
    ∃ m', Steps evaluate m m' ∧ At m' W .closing S rest ∧
      m'.rules.cell W = some { Rule.start .val (.atom a) n p 0 with token := .atom a } ∧
      Keeps m.rules m'.rules W ∧ m'.world = m.world := by
  let r₁ : Rule α := { Rule.start .val .undefined n p 0 with token := .atom a }
  have hstep : m.step evaluate = some ((m.stay r₁).withTokens rest) := by
    rw [step_val h hr rfl, openVal, h.tokens]
    rfl
  obtain ⟨rfl, -, rfl, -, h0⟩ := h
  have hat : At ((m.stay r₁).withTokens rest) m.cur .before m.stack rest :=
    ⟨rfl, rfl, rfl, rfl, norule_modify h0⟩
  have h₁ : (m.put r₁).rules.cell m.cur = some r₁ := cell_put_cur hr
  obtain ⟨m', hm, hat', hc, hk, hw⟩ := step_val_before evaluate hat h₁ rfl
  have hchild := node_norule hat.norule
  refine ⟨m', (Steps.of_step hstep).trans (Steps.of_step hm), hat', ?_,
    Keeps.trans keeps_put hk (Or.inl rfl), hw⟩
  rw [hc, show r₁.child = 0 from rfl, hchild]
  rfl

/-- A `val` rule inside an expression hands the next token on. -/
theorem closeVal_of_expr (ht : m.tokens = tokens) (hexpr : r.n.expr ≠ 0)
    (hf : Follows r.n.exprParen tokens) :
    ∃ n, m.closeVal r = some (m.pop { r with n := n }) := by
  rw [closeVal, ht]
  cases tokens with
  | nil => exact ⟨r.n, rfl⟩
  | cons tok tokens =>
    cases tok with
    | inf o => exact ⟨{ r.n with exprPrefix := 0, exprSuffix := 0 }, congrArg some (if_neg hexpr)⟩
    | suf o =>
      exact ⟨{ r.n with exprPrefix := 0, exprSuffix := r.n.exprSuffix + 1 },
        congrArg some (if_neg hexpr)⟩
    | cls o => exact ⟨r.n, if_pos hf⟩
    | leaf | pre | opn => exact hf.elim

theorem at_pop (h : At m W .closing (i :: S) tokens) (hr : m.rules.cell W = some r₀) :
    At (m.pop r) i .before S tokens ∧ (m.pop r).rules.cell W = some r ∧
      Keeps m.rules (m.pop r).rules W := by
  obtain ⟨rfl, -, hs, ht, h0⟩ := h
  exact ⟨⟨by simp [pop, hs], rfl, by simp [pop, hs], ht, norule_modify h0⟩, cell_put_cur hr,
    keeps_put⟩

variable (evaluate) in
theorem step_val_closing (h : At m W .closing (i :: S) tokens) (hr : m.rules.cell W = some r)
    (hn : r.name = .val) (hexpr : r.n.expr ≠ 0) (hf : Follows r.n.exprParen tokens) :
    ∃ m' n, m.step evaluate = some m' ∧ At m' i .before S tokens ∧
      m'.rules.cell W = some { r with n := n } ∧ Keeps m.rules m'.rules W ∧
      m'.world = m.world := by
  obtain ⟨n, hn'⟩ := closeVal_of_expr h.tokens hexpr hf
  obtain ⟨hat, hc, hk⟩ := at_pop (r := { r with n := n }) h hr
  refine ⟨m.pop { r with n := n }, n, ?_, hat, hc, hk, rfl⟩
  rw [← hn']
  simp only [step, h.cur, hr, h.phase, hn]

end Val

/-! ### The rule `expr` -/

section Expr

variable {X V : ℕ} {op : Op} {heap : Heap α} {out j : ℕ} {q : ℕ × Op} {rest : List (Sym Op α)}

theorem step_expr (h : At m X .opening S tokens) (hr : m.rules.cell X = some r)
    (hn : r.name = .expr) : m.step evaluate = m.openExpr r := by
  simp only [step, h.cur, hr, h.phase, hn]

variable (evaluate) in
/-- An open paren in an expression. -/
theorem step_expr_opn (h : At m X .opening S (.opn op :: rest)) (hr : m.rules.cell X = some r)
    (hn : r.name = .expr) : m.step evaluate = some (m.push r .paren) := by
  rw [step_expr h hr hn, openExpr, h.tokens]

@[simp] theorem rules_setHeap (heap : Heap α) : (m.setHeap heap).rules = m.rules := rfl

theorem at_setHeap {phase : Phase} (h : At m X phase S tokens) (heap : Heap α) :
    At (m.setHeap heap) X phase S tokens :=
  ⟨h.cur, h.phase, h.stack, h.tokens, h.norule⟩

theorem at_setNode {phase : Phase} (h : At m X phase S tokens) (i : ℕ) (v : Val α) :
    At (m.setNode i v) X phase S tokens :=
  ⟨h.cur, h.phase, h.stack, h.tokens, norule_modify h.norule⟩

theorem prattify_node (h : Ts.prattify m.world.heap j op = some (heap, out)) :
    m.prattify (.node j) op = some (m.setHeap heap, .node out) := by
  simp [prattify, h]

/-- An operator whose operand is due takes its token and opens the rule of the operand. -/
theorem at_pushVal (h : At m X .opening S tokens) (hr : m.rules.cell X = some r₀)
    (rest : List (Sym Op α)) :
    At ((m.push r .val).withTokens rest) (m.rules.last + 1) .opening (X :: S) rest ∧
      (m.push r .val).rules.cell (m.rules.last + 1) = some (.start .val r.node r.n X 0) ∧
      (m.push r .val).rules.cell X = some { r with child := m.rules.last + 1 } ∧
      Keeps m.rules (m.push r .val).rules X := by
  obtain ⟨hat, hc, hx, hk⟩ := at_push .val (r := r) h hr
  exact ⟨⟨hat.cur, hat.phase, hat.stack, rfl, hat.norule⟩, hc, hx, hk⟩

variable (evaluate) in
/-- A prefix operator in an expression it belongs to. -/
theorem step_expr_pre (h : At m X .opening S (.pre op :: rest)) (hr : m.rules.cell X = some r)
    (hn : r.name = .expr) (hpre : r.n.exprPrefix ≠ 0) (hv : m.node r.parent = .node j)
    (hj : opAt m.world.heap (.node j) = some q) (hq : q.2.kind ≠ .parenOp)
    (hp : Ts.prattify m.world.heap j op = some (heap, out)) :
    m.step evaluate = some (((m.setHeap heap).push
      { r with n := { r.n with expr := r.n.expr + 1 }, node := .node out } .val).withTokens rest) := by
  rw [step_expr h hr hn, openExpr, h.tokens]
  simp [hpre, hv, hj, hq, prattify_node hp, Option.filter]

variable (evaluate) in
/-- The first prefix operator. -/
theorem step_expr_pre_first (h : At m X .opening S (.pre op :: rest))
    (hr : m.rules.cell X = some r) (hn : r.name = .expr) (hpre : r.n.exprPrefix ≠ 0)
    (hv : m.node r.parent = .undefined) (hop : op.kind = .prefixOp) :
    m.step evaluate = some ((((m.setHeap (newNode m.world.heap op []).1).setNode r.parent
      (.node (m.world.heap.last + 1))).push { r with
        n := { r.n with expr := r.n.expr + 1 }
        node := .node (m.world.heap.last + 1) } .val).withTokens rest) := by
  rw [step_expr h hr hn, openExpr, h.tokens]
  simp [hpre, hv, opAt, prior, hop, newNode]

variable (evaluate) in
/-- An infix operator after another operator. -/
theorem step_expr_inf (h : At m X .opening S (.inf op :: rest)) (hr : m.rules.cell X = some r)
    (hn : r.name = .expr) (hv : m.node r.parent = .node j)
    (hj : opAt m.world.heap (.node j) = some q)
    (hp : Ts.prattify m.world.heap j op = some (heap, out)) :
    m.step evaluate = some (((m.setHeap heap).push
      { r with n := Counters.more r.n, node := .node out } .val).withTokens rest) := by
  rw [step_expr h hr hn, openExpr, h.tokens]
  simp [hv, hj, prattify_node hp]

variable (evaluate) in
/-- An infix operator whose first term is an expression. -/
theorem step_expr_inf_unary (h : At m X .opening S (.inf op :: rest))
    (hr : m.rules.cell X = some r) (hn : r.name = .expr) (hv : m.node r.parent = .undefined)
    (hw : m.node r.prev = .node j) (hj : opAt m.world.heap (.node j) = some q)
    (hp : Ts.prattify m.world.heap j op = some (heap, out)) :
    m.step evaluate = some (((m.setHeap heap).push
      { r with
        n := Counters.more r.n, node := .node out, parent := r.prev } .val).withTokens rest) := by
  rw [step_expr h hr hn, openExpr, h.tokens]
  simp [hv, hw, hj, opAt.eq_2, prattify_node hp]

variable (evaluate) in
/-- An infix operator whose first term is a plain value. -/
theorem step_expr_inf_first {v : Val α} (h : At m X .opening S (.inf op :: rest))
    (hr : m.rules.cell X = some r) (hn : r.name = .expr) (hp : m.node r.parent = .undefined)
    (hw : m.node r.prev = v) (hv : opAt m.world.heap v = none) (hop : op.kind = .infixOp) :
    m.step evaluate = some ((((m.setHeap (newNode m.world.heap op [v]).1).setNode r.prev
      (.node (m.world.heap.last + 1))).push { r with
        n := Counters.more r.n
        node := .node (m.world.heap.last + 1)
        parent := r.prev } .val).withTokens rest) := by
  have hu : opAt m.world.heap (.undefined : Val α) = none := rfl
  rw [step_expr h hr hn, openExpr, h.tokens]
  simp [hp, hw, hu, hv, prior, hop, newNode]

variable (evaluate) in
/-- A suffix operator after an expression. -/
theorem step_expr_suf (h : At m X .opening S (.suf op :: rest)) (hr : m.rules.cell X = some r)
    (hn : r.name = .expr) (hw : m.node r.prev = .node j)
    (hj : opAt m.world.heap (.node j) = some q)
    (hp : Ts.prattify m.world.heap j op = some (heap, out)) :
    m.step evaluate = some (((m.setHeap heap).stay
      { r with n := Counters.more r.n, node := .node out }).withTokens rest) := by
  rw [step_expr h hr hn, openExpr, h.tokens]
  simp [hw, hj, prattify_node hp]

variable (evaluate) in
/-- A suffix operator after a plain value. -/
theorem step_expr_suf_first {v : Val α} (h : At m X .opening S (.suf op :: rest))
    (hr : m.rules.cell X = some r) (hn : r.name = .expr) (hw : m.node r.prev = v)
    (hv : opAt m.world.heap v = none) (hop : op.kind = .suffixOp) :
    m.step evaluate = some ((((m.setHeap (newNode m.world.heap op [v]).1).setNode r.prev
      (.node (m.world.heap.last + 1))).stay { r with
        n := Counters.more r.n
        node := .node (m.world.heap.last + 1)
        parent := r.prev }).withTokens rest) := by
  rw [step_expr h hr hn, openExpr, h.tokens]
  simp [hw, hv, prior, hop, newNode]

variable (evaluate) in
/-- Append final term to expression. -/
theorem step_expr_fill {terms : List (Val α)} (h : At m X .before S tokens)
    (hr : m.rules.cell X = some r) (hn : r.name = .expr) (hv : r.node = .node j)
    (hj : m.world.heap.cell j = some ⟨some op, terms⟩) (hlt : terms.length < op.terms)
    (hne : nodeId (m.node r.child) ≠ some j) :
    m.step evaluate = some ({ m with phase := .closing }.setHeap
      (Ts.push m.world.heap j (m.node r.child))) := by
  have hstep : m.step evaluate = some (m.beforeExpr r) := by
    simp only [step, h.cur, hr, h.phase, hn]
  rw [hstep, beforeExpr]
  simp only [hv, hj]
  exact congrArg some (if_pos ⟨hlt, hne⟩)

variable (evaluate) in
/-- An expression that has its terms. -/
theorem step_expr_full {terms : List (Val α)} (h : At m X .before S tokens)
    (hr : m.rules.cell X = some r) (hn : r.name = .expr) (hv : r.node = .node j)
    (hj : m.world.heap.cell j = some ⟨some op, terms⟩) (hle : op.terms ≤ terms.length) :
    m.step evaluate = some { m with phase := .closing } := by
  have hstep : m.step evaluate = some (m.beforeExpr r) := by
    simp only [step, h.cur, hr, h.phase, hn]
  rw [hstep, beforeExpr]
  simp only [hv, hj]
  exact congrArg some (if_neg fun hlt => hlt.1.not_ge hle)

end Expr

/-! ### The close of an expression -/

section Close

variable {m' : Machine σ α} {X p : ℕ} {u u' : Tree (ℕ × Op) (Val α)} {cs : List (Call α)}
  {rp : Rule α} {ends : Bool} {owns : σ → ℕ → Prop} {scalar : Prop} {q : ℕ × Op}

/-- The rule `i` closed under `p`, whose tree was `u`: the tree is `u'` now, and the calls were made. -/
structure Closed (scalar : Prop) (owns : σ → ℕ → Prop) (m m' : Machine σ α) (p i : ℕ)
    (u u' : Tree (ℕ × Op) (Val α)) (cs : List (Call α)) : Prop where
  grows : Grows owns m.world m'.world
  stands : Stands scalar owns m'.world u'
  ids : ∀ j ∈ ids u', j ∈ ids u
  calls : m'.world.calls = m.world.calls ++ cs
  parent : ∀ r, m.rules.cell p = some r → m'.rules.cell p = some { r with node := handle u' }
  own : ∀ r, m.rules.cell i = some r → ∃ n v, m'.rules.cell i = some { r with n := n, node := v } ∧
    (r.node = handle u → v = handle u')
  other : ∀ j, j ≠ p → j ≠ i → m'.rules.cell j = m.rules.cell j

/-- Nothing is evaluated. -/
theorem closed_pop (hr : m.rules.cell m.cur = some r) (hp : m.rules.cell p = some rp)
    (hne : p ≠ m.cur) (hv : rp.node = handle u) (hm : m.world.Marked owns)
    (hu : Stands scalar owns m.world u) (n : Counters) :
    Closed scalar owns m (m.pop { r with n := n }) p m.cur u u [] := by
  refine ⟨.refl hm, hu, fun _ => id, (List.append_nil _).symm, fun r' hr' => ?_, fun r' hr' => ?_,
    fun j _ hj => Store.cell_modify_of_ne _ hj⟩
  · cases hp.symm.trans hr'
    have : (m.put { r with n := n }).rules.cell p = some rp := keeps_put p rp hne hp
    rw [← hv]
    exact this
  · cases hr.symm.trans hr'
    exact ⟨n, r.node, cell_put_cur hr, id⟩

/-- The value that stands for a tree with an operator is no plain list. -/
theorem listOf_handle {heap : Heap α} (hu : Stores layout heap u) (hq : rootOp u = some q) :
    listOf heap (handle u) = none := by
  have hj : handle u = .node q.1 := handle_of_rootId (rootId_of_root hq)
  simp [hj, listOf, opOf_root hu hq]

/-- The value that stands for the tree of the parent takes its place when an evaluator is there. -/
theorem afterExpr_evaluates {E : Evaluator σ α} (hE : Sparing E owns) (hs : scalar → ScalarValued E)
    (h0 : r.n.expr = 0) (hv : m.node r.parent = handle u) (hm : m.world.Marked owns)
    (hu : Stands scalar owns m.world u) (hc : Complete u) (hq : rootOp u = some q) :
    ∃ w v cs, m.afterExpr (some E) i r =
        some (({ m with world := w }.setNode r.parent v).setNode i v) ∧
      Evaluates E owns scalar (m.world.heap.last + 2) m.world (handle u) w v cs ∧
      Folds E (erase u) v cs := by
  have hf : (ids u).length < m.world.heap.last + 2 := Nat.lt_succ_of_le hu.held.length_ids_le
  obtain ⟨w, v, cs, heval, hfold⟩ := evaluates_handle hE hs hm hu.held.stores hu.clear hu.leaves hc hf
  refine ⟨w, v, cs, ?_, heval, hfold⟩
  simp [afterExpr, h0, hv, listOf_handle hu.held.stores hq, heval.eq]

/-- The expression ends: the parent keeps its tree, or the value of it when an evaluator is there. -/
theorem endExpr_closed (hE : ∀ E ∈ evaluate, Sparing E owns) (h : At m X .closing S tokens)
    (hr : m.rules.cell X = some r) (hp : m.rules.cell r.parent = some rp) (hne : r.parent ≠ X)
    (hv : rp.node = handle u) (hm : m.world.Marked owns) (hu : Stands (Scalar evaluate) owns m.world u)
    (hc : Complete u) (hq : rootOp u = some q) :
    ∃ m' u' cs, m.endExpr r evaluate = some m' ∧
      Closed (Scalar evaluate) owns m m' r.parent X u u' cs ∧
      Left evaluate (erase u) cs (erase u') ∧ At m' (S.headD 0) .before S.tail tokens := by
  obtain ⟨rfl, -, rfl, rfl, h0⟩ := h
  let n : Counters := { r.n with expr := 0 }
  have hpop := closed_pop hr hp hne hv hm hu n
  have hat : At (m.pop { r with n := n }) (m.stack.headD 0) .before m.stack.tail m.tokens :=
    ⟨rfl, rfl, rfl, rfl, norule_modify h0⟩
  cases evaluate with
  | none => exact ⟨_, u, [], rfl, hpop, ⟨rfl, rfl⟩, hat⟩
  | some E =>
    have hparent := hpop.parent rp hp
    obtain ⟨w, v, cs, hafter, heval, hfold⟩ := afterExpr_evaluates (m := m.pop { r with n := n })
      (r := { r with n := n }) (i := m.cur) (hE E rfl) (fun hs : Scalar (some E) => hs E rfl) rfl
      (node_eq hparent) hm hu hc hq
    refine ⟨_, leaf v, cs, hafter, ⟨heval.grows, stands_leaf heval.fit,
      fun _ hj => absurd hj List.not_mem_nil, heval.calls, fun r' hr' => ?_, fun r' hr' => ?_,
      fun j hjp hj => ?_⟩, ⟨v, hfold, rfl⟩,
      at_setNode (at_setNode (m := { m.pop { r with n := n } with world := w })
        ⟨rfl, rfl, rfl, rfl, norule_modify h0⟩ _ _) _ _⟩
    · cases hp.symm.trans hr'
      refine (Store.cell_modify_of_ne _ hne).trans ?_
      refine (Store.cell_modify_self _).trans ?_
      rw [hparent]
      rfl
    · cases hr.symm.trans hr'
      refine ⟨n, v, (Store.cell_modify_self _).trans ?_, fun _ => rfl⟩
      have hown : ((m.pop { r with n := n }).rules.modify r.parent fun r => { r with node := v
          }).cell m.cur = some { r with n := n } :=
        (Store.cell_modify_of_ne _ hne.symm).trans (cell_put_cur hr)
      exact congrArg _ hown
    · refine (Store.cell_modify_of_ne _ hj).trans ((Store.cell_modify_of_ne _ hjp).trans ?_)
      exact hpop.other j hjp hj

theorem afterExpr_of_expr (h : r.n.expr ≠ 0) : m.afterExpr evaluate i r = some m := by
  cases evaluate with
  | none => rfl
  | some E => exact if_pos h

theorem step_expr_close (h : At m X .closing S tokens) (hr : m.rules.cell X = some r)
    (hn : r.name = .expr) : m.step evaluate = m.closeExpr r evaluate := by
  simp only [step, h.cur, hr, h.phase, hn]

theorem not_paren {rules : Store (Rule α)} {c : ℕ} {r : Rule α} (h : rules.cell c = some r)
    (hn : r.name = .val) : (rules.cell c).map Rule.name ≠ some .paren := by
  simp [h, hn]

/-- The expression of a paren ends with it. -/
theorem step_expr_paren (hE : ∀ E ∈ evaluate, Sparing E owns) (h : At m X .closing (i :: S) tokens)
    (hr : m.rules.cell X = some r) (hn : r.name = .expr)
    (hchild : (m.rules.cell r.child).map Rule.name = some .paren)
    (hp : m.rules.cell r.parent = some rp) (hne : r.parent ≠ X) (hv : rp.node = handle u)
    (hm : m.world.Marked owns) (hu : Stands (Scalar evaluate) owns m.world u) (hc : Complete u)
    (hq : rootOp u = some q) :
    ∃ m' u' cs, m.step evaluate = some m' ∧
      Closed (Scalar evaluate) owns m m' r.parent X u u' cs ∧
      Left evaluate (erase u) cs (erase u') ∧ At m' i .before S tokens := by
  rw [step_expr_close h hr hn, closeExpr, if_pos hchild]
  exact endExpr_closed hE h hr hp hne hv hm hu hc hq

/-- The expression of a prefix operator closes: it ends unless an infix operator or a close paren is
next. -/
theorem step_expr_prefix (hE : ∀ E ∈ evaluate, Sparing E owns) (h : At m X .closing (i :: S) tokens)
    (hr : m.rules.cell X = some r) (hn : r.name = .expr)
    (hchild : (m.rules.cell r.child).map Rule.name ≠ some .paren) (hpre : r.n.exprPrefix ≠ 0)
    (hexpr : r.n.expr ≠ 0) (hf : Follows r.n.exprParen tokens)
    (hp : m.rules.cell r.parent = some rp) (hne : r.parent ≠ X) (hv : rp.node = handle u)
    (hm : m.world.Marked owns) (hu : Stands (Scalar evaluate) owns m.world u) (hc : Complete u)
    (hq : rootOp u = some q) :
    ∃ m' u' cs, m.step evaluate = some m' ∧
      Closed (Scalar evaluate) owns m m' r.parent X u u' cs ∧
      Closes evaluate (endsAt tokens) (erase u) cs (erase u') ∧ At m' i .before S tokens := by
  have hend := endExpr_closed hE h hr hp hne hv hm hu hc hq
  have hpop : ∃ m' u' cs, (m.pop r).afterExpr evaluate m.cur r = some m' ∧
      Closed (Scalar evaluate) owns m m' r.parent X u u' cs ∧ (cs = [] ∧ erase u' = erase u) ∧
      At m' i .before S tokens := by
    rw [afterExpr_of_expr hexpr]
    have hx : m.rules.cell m.cur = some r := h.cur ▸ hr
    exact ⟨_, u, [], rfl, h.cur ▸ closed_pop hx hp (h.cur ▸ hne) hv hm hu r.n, ⟨rfl, rfl⟩,
      (at_pop h hr).1⟩
  rw [step_expr_close h hr hn, closeExpr, if_neg hchild, h.tokens]
  cases tokens with
  | nil =>
    have hparen : r.n.exprParen = 0 ∨ r.n.exprSuffix ≠ 0 := Or.inl hf
    dsimp only
    rw [if_pos hparen]
    exact hend
  | cons tok tokens =>
    cases tok with
    | inf o =>
      dsimp only
      rw [if_neg hpre]
      exact hpop
    | suf o =>
      dsimp only
      rw [if_neg hpre]
      exact hend
    | cls o =>
      have hparen : r.n.exprParen ≠ 0 := hf
      dsimp only
      rw [if_pos hparen]
      exact hpop
    | leaf | pre | opn => exact hf.elim

/-- After an infix or suffix operator, the next one takes over. -/
theorem step_expr_next {op : Op} {rest : List (Sym Op α)} (h : At m X .closing S tokens)
    (hr : m.rules.cell X = some r) (hn : r.name = .expr)
    (hchild : (m.rules.cell r.child).map Rule.name ≠ some .paren) (hpre : r.n.exprPrefix = 0)
    (hexpr : r.n.expr ≠ 0) (ht : tokens = .inf op :: rest ∨ tokens = .suf op :: rest) :
    m.step evaluate = some (m.replace r .expr) := by
  rw [step_expr_close h hr hn, closeExpr, if_neg hchild, h.tokens]
  rcases ht with rfl | rfl
  · exact (if_pos hpre).trans (afterExpr_of_expr hexpr)
  · exact (if_pos hpre).trans (afterExpr_of_expr hexpr)

/-- A close paren ends the rules inside it. -/
theorem step_expr_cls {op : Op} {rest : List (Sym Op α)} (h : At m X .closing S (.cls op :: rest))
    (hr : m.rules.cell X = some r) (hn : r.name = .expr)
    (hchild : (m.rules.cell r.child).map Rule.name ≠ some .paren) (hexpr : r.n.expr ≠ 0)
    (hparen : r.n.exprParen ≠ 0) : m.step evaluate = some (m.pop r) := by
  rw [step_expr_close h hr hn, closeExpr, if_neg hchild, h.tokens]
  exact (if_pos hparen).trans (afterExpr_of_expr hexpr)

/-- The end of the source ends the expression. -/
theorem step_expr_end (h : At m X .closing S []) (hr : m.rules.cell X = some r)
    (hn : r.name = .expr) (hchild : (m.rules.cell r.child).map Rule.name ≠ some .paren)
    (hparen : r.n.exprParen = 0) : m.step evaluate = m.endExpr r evaluate := by
  rw [step_expr_close h hr hn, closeExpr, if_neg hchild, h.tokens]
  exact if_pos (Or.inl hparen)

theorem step_val_close (h : At m W .closing S tokens) (hr : m.rules.cell W = some r)
    (hn : r.name = .val) : m.step evaluate = m.closeVal r := by
  simp only [step, h.cur, hr, h.phase, hn]

variable (evaluate) in
/-- The first operator after the first term takes over. -/
theorem step_val_next {op : Op} {rest : List (Sym Op α)} (h : At m W .closing S tokens)
    (hr : m.rules.cell W = some r) (hn : r.name = .val) (hexpr : r.n.expr = 0)
    (ht : tokens = .inf op :: rest ∨ tokens = .suf op :: rest) :
    ∃ n : Counters, n.exprPrefix = 0 ∧ n.exprParen = r.n.exprParen ∧
      m.step evaluate = some (m.replace { r with n := n } .expr) := by
  rw [step_val_close h hr hn, closeVal, h.tokens]
  rcases ht with rfl | rfl
  · exact ⟨{ r.n with exprPrefix := 0, exprSuffix := 0 }, rfl, rfl, congrArg some (if_pos hexpr)⟩
  · exact ⟨{ r.n with exprPrefix := 0, exprSuffix := r.n.exprSuffix + 1 }, rfl, rfl,
      congrArg some (if_pos hexpr)⟩

/-- A term alone ends at a close paren or at the end of the source. -/
theorem step_val_last (h : At m W .closing S tokens) (hr : m.rules.cell W = some r)
    (hn : r.name = .val) (hf : Follows r.n.exprParen tokens)
    (ht : tokens = [] ∨ ∃ op rest, tokens = .cls op :: rest) : m.step evaluate = some (m.pop r) := by
  rw [step_val_close h hr hn, closeVal, h.tokens]
  rcases ht with rfl | ⟨op, rest, rfl⟩
  · rfl
  · exact if_pos hf

end Close

/-! ### The rule `paren` -/

section Paren

variable {P : ℕ} {p : Op} {rest : List (Sym Op α)}

variable (evaluate) in
/-- An open paren with something in it. -/
theorem step_paren_open (h : At m P .opening S (.opn p :: rest)) (hr : m.rules.cell P = some r)
    (hn : r.name = .paren) (hrest : ∀ q ts, rest ≠ .cls q :: ts) :
    m.step evaluate = some ((m.push (openParen { r with n := { r.n with
      exprParen := r.n.exprParen + 1, expr := 0, exprPrefix := 0, exprSuffix := 0 } } p)
      .val).withTokens rest) := by
  have hstep : m.step evaluate = m.openParenRule r := by
    simp only [step, h.cur, hr, h.phase, hn]
  rw [hstep, openParenRule, h.tokens]
  cases rest with
  | nil => rfl
  | cons tok ts =>
    cases tok with
    | cls q => exact absurd rfl (hrest q ts)
    | leaf | pre | suf | inf | opn => rfl

variable (evaluate) in
theorem step_paren_before (h : At m P .before S tokens) (hr : m.rules.cell P = some r)
    (hn : r.name = .paren) : m.step evaluate = some { m with phase := .closing } := by
  simp only [step, h.cur, hr, h.phase, hn]

variable (evaluate) in
/-- The close of a paren makes a node of the value in it, and hands it to the two rules above. -/
theorem step_paren_close {v : Val α} (h : At m P .closing S (.cls p :: rest))
    (hr : m.rules.cell P = some r) (hn : r.name = .paren) (hnode : r.node = .undefined)
    (hdepth : r.depth p.name = r.n.exprParenDepth p.name) (hopen : r.n.exprParenDepth p.name ≠ 0)
    (hv : m.node r.child = v) (hne : v ≠ .undefined) :
    m.step evaluate = some (((((m.setHeap (newNode m.world.heap p [v]).1).pop
      { r with node := .node (m.world.heap.last + 1) }).withTokens rest).setNode r.parent
        (.node (m.world.heap.last + 1))).setNode (m.grandparent r)
        (.node (m.world.heap.last + 1))) := by
  have hstep : m.step evaluate = m.closeParenRule r := by
    simp only [step, h.cur, hr, h.phase, hn]
  have hclose : m.closeParen r p =
      (m.setHeap (newNode m.world.heap p [v]).1, .node (m.world.heap.last + 1)) := by
    have hvalue : parenValue m.world.heap v r.node = v := by
      rw [hnode]
      cases hop : opAt m.world.heap v <;> simp [parenValue, hop]
    have hpresent : present v = [v] := by
      cases v with
      | undefined => exact absurd rfl hne
      | atom | node => rfl
    simp only [closeParen, hdepth, if_true, hv, hvalue, hpresent]
    rfl
  rw [hstep, closeParenRule, h.tokens]
  simp only [if_neg hopen, hclose]
  rfl

end Paren

end Machine

end TabnasExpr.Rules
