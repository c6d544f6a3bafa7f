import TabnasExpr.Rules.Steps

/-!
# The rules read an expression as a tree

From the `val` rule an expression starts with, the machine reaches the close of the last of its rules
with the tree of `Expr.Reads` on the nodes (`Expr.runs`).  Every rule that was there before keeps its
record, and every node that was there keeps its terms.
-/

namespace TabnasExpr.Rules

open OpTree OpTree.Tree Ts Machine

universe u v

variable {σ : Type v} {α : Type u} {evaluate : Option (Evaluator σ α)} {owns : σ → ℕ → Prop}

/-! ## Runs of an operand and of an expression -/

/-- Where reading an operand leads: its `val` rule is about to close with the value of it. -/
def Operand.Runs (evaluate : Option (Evaluator σ α)) (owns : σ → ℕ → Prop) (x : Operand α) : Prop :=
  ∀ (m : Machine σ α) (W : ℕ) (S : List ℕ) (rest : List (Sym Op α)) (v : Val α) (n : Counters)
    (p : ℕ), At m W .opening S (x.text ++ rest) → m.rules.cell W = some (.start .val v n p 0) →
    m.world.Marked owns → Safe evaluate m →
  ∃ m' y cs c tok, Steps evaluate m m' ∧ At m' W .closing S rest ∧
    m'.rules.cell W = some { Rule.start .val (handle y) n p 0 with child := c, token := tok } ∧
    Keeps m.rules m'.rules W ∧ m'.world.calls = m.world.calls ++ cs ∧
    x.Reads evaluate cs (erase y) ∧ Since owns m.world m'.world y ∧
    Stands (Scalar evaluate) owns m'.world y

/-- The rule above an expression holds nothing yet: it is a paren's, or there is none. -/
def Blank (rules : Store (Rule α)) (p : ℕ) : Prop :=
  p = 0 ∨ ∃ r, rules.cell p = some r ∧ r.node = .undefined

/-- The rule that is about to close after an expression: the `val` rule of its first term, or the
`expr` rule of its last infix or suffix operator.  The parent of that one holds the tree, unless a
suffix operator followed a first term that is a node.  With an evaluator a first term that the
expression may end after is a value. -/
def Last (evaluate : Option (Evaluator σ α)) (m : Machine σ α) (V : ℕ) (R : ℕ) (r : Rule α)
    (rest : List (Sym Op α)) (t : Tree (ℕ × Op) (Val α)) (d : ℕ) : Prop :=
  (R = V ∧ r.name = .val ∧ r.n.expr = 0 ∧ d = 0 ∧ Blank m.rules r.parent ∧ r.parent ≠ V ∧
    (evaluate ≠ none → endsAt rest = true → ∃ v, t = leaf v)) ∨
  (r.name = .expr ∧ r.n.expr ≠ 0 ∧ r.n.exprPrefix = 0 ∧ R ≠ V ∧ r.parent ≠ R ∧
    (m.rules.cell r.child).map Rule.name ≠ some .paren ∧ (∃ q, rootOp (edgeAt d t) = some q) ∧
    ((m.node r.parent = handle t ∧ (evaluate ≠ none → r.parent = V)) ∨
      (evaluate = none ∧ Blank m.rules r.parent ∧ r.parent ≠ V ∧ d = 0)))

/-- Between two tokens of an expression that the rule `V` started, or after its last one: the tree `t`
is on the nodes, and the attachment node is `d` steps down its right edge. -/
structure Level (evaluate : Option (Evaluator σ α)) (owns : σ → ℕ → Prop) (base : Store (Rule α))
    (m : Machine σ α) (V c : ℕ) (S : List ℕ) (rest : List (Sym Op α)) (t : Tree (ℕ × Op) (Val α))
    (d : ℕ) : Prop where
  keeps : Keeps base m.rules V
  first : ∃ r, m.rules.cell V = some r ∧ r.name = .val ∧ r.node = handle t
  stands : Stands (Scalar evaluate) owns m.world t
  last : ∃ R r, At m R .closing S rest ∧ m.rules.cell R = some r ∧
    (R = V ∨ base.cell R = none) ∧ r.node = handle (edgeAt d t) ∧ r.n.exprParen = c ∧
    Last evaluate m V R r rest t d

/-- Where reading an expression leads. -/
def Expr.Runs (evaluate : Option (Evaluator σ α)) (owns : σ → ℕ → Prop) (e : Expr α) : Prop :=
  ∀ (m : Machine σ α) (V : ℕ) (S : List ℕ) (rest : List (Sym Op α)) (n : Counters) (p : ℕ),
    At m V .opening S (e.text ++ rest) →
    m.rules.cell V = some (.start .val .undefined n p 0) → n.expr = 0 → Blank m.rules p → p ≠ V →
    Follows n.exprParen rest → m.world.Marked owns → Safe evaluate m →
  ∃ m' t d cs, Steps evaluate m m' ∧ Level evaluate owns m.rules m' V n.exprParen S rest t d ∧
    m'.world.calls = m.world.calls ++ cs ∧ e.Reads evaluate (endsAt rest) cs (erase t) d ∧
    Since owns m.world m'.world t

theorem Blank.keeps {base rules : Store (Rule α)} {p j : ℕ} (h : Blank base p)
    (hk : Keeps base rules j) (hp : p ≠ j) : Blank rules p := by
  rcases h with h | ⟨r, hr, hnode⟩
  · exact Or.inl h
  · exact Or.inr ⟨r, hk p r hp hr, hnode⟩

theorem Blank.node {m : Machine σ α} {p : ℕ} (h : Blank m.rules p) (h0 : m.rules.cell 0 = none) :
    m.node p = .undefined := by
  rcases h with rfl | ⟨r, hr, hnode⟩
  · exact node_norule h0
  · rw [node_eq hr, hnode]

theorem Blank.ne_next {rules : Store (Rule α)} {p : ℕ} (h : Blank rules p) : p ≠ rules.last + 1 := by
  rcases h with rfl | ⟨r, hr, -⟩
  · exact (Nat.succ_ne_zero _).symm
  · rintro rfl
    simp [rules.cell_next] at hr

theorem eq_leaf_of_erase {t : Tree (ℕ × Op) (Val α)} {v : Val α} (h : erase t = leaf v) :
    t = leaf v := by
  cases t with
  | leaf => exact congrArg leaf (leaf.inj h)
  | hole | pre | suf | inf | grp => cases h

/-- A rule that holds an expression. -/
theorem exists_rule {m : Machine σ α} {p : ℕ} {t : Tree (ℕ × Op) (Val α)}
    (h : m.node p = handle t) (ht : ∃ q, rootOp t = some q) :
    ∃ r, m.rules.cell p = some r ∧ r.node = handle t := by
  obtain ⟨q, hq⟩ := ht
  cases hr : m.rules.cell p with
  | none => simp [Machine.node, hr, handle_of_rootId (rootId_of_root hq)] at h
  | some r => exact ⟨r, rfl, by rw [← h, node_eq hr]⟩

/-! ## Nodes of the right edge -/

section Nodes

variable {heap : Heap α} {t : Tree (ℕ × Op) (Val α)} {d i : ℕ}

/-- The node that waits lacks its last term. -/
theorem due_cell (h : DueAt d i t) (ht : Held layout heap t) :
    ∃ op vs, heap.cell i = some ⟨some op, vs⟩ ∧ vs.length < op.terms ∧ op.kind ≠ .parenOp := by
  obtain ⟨p, l?, rfl, hl, hk, he⟩ := h
  have hu : Held layout heap (spine p l? hole) := he ▸ ht.edgeAt
  obtain ⟨hp, -, -⟩ := stores_spine.1 hu.stores
  refine ⟨p.2, _, hp, ?_, hk ▸ edgeKind_ne⟩
  simp [terms_due layout hl hk]

/-- A complete node has all its terms. -/
theorem full_cell (ht : Held layout heap t) (hc : Complete t) (hk : Slotted (erase t))
    (hr : rootId t = some i) : ∃ op vs, heap.cell i = some ⟨some op, vs⟩ ∧ op.terms ≤ vs.length := by
  cases t with
  | hole | leaf => cases hr
  | pre p x =>
    cases hr
    refine ⟨p.2, _, ht.stores.1, ?_⟩
    simp [slots_of_complete (x := x) hc, (terms_front hk.1).1]
  | suf p x | grp p x =>
    cases hr
    refine ⟨p.2, _, ht.stores.1, ?_⟩
    simp [slots_of_complete (x := x) hc, Op.terms, hk.1]
  | inf p l r =>
    cases hr
    refine ⟨p.2, _, ht.stores.1, ?_⟩
    simp [slots_of_complete hc.1, slots_of_complete hc.2, Op.terms, hk.1]

end Nodes

/-! ## Operands -/

section Operands

variable {m : Machine σ α} {W : ℕ} {S : List ℕ} {rest toks : List (Sym Op α)} {v : Val α}
  {n : Counters} {q : ℕ} {p : Op}

theorem runs_atom (a : α) : (Operand.atom a).Runs evaluate owns := by
  intro m W S rest v n p h hr hm _
  obtain ⟨m', hs, hat, hc, hk, hw⟩ := steps_leaf h hr
  exact ⟨m', leaf (.atom a), [], 0, .atom a, hs, hat, hc, hk, by simp [hw], ⟨rfl, rfl⟩,
    by rw [hw]; exact since_refl hm rfl, stands_leaf (fit_atom a)⟩

/-- The rules of a paren and of the expression in it, above the `val` rule `W` that met the paren. -/
structure Opened (m m' : Machine σ α) (W X P V : ℕ) (S : List ℕ) (toks : List (Sym Op α)) (p : Op)
    (rW : Rule α) (n' : Counters) : Prop where
  at_opening : At m' V .opening (P :: X :: W :: S) toks
  val : m'.rules.cell V = some (.start .val .undefined n' P 0)
  paren : ∃ r, m'.rules.cell P = some r ∧ r.name = .paren ∧ r.node = .undefined ∧ r.parent = X ∧
    r.child = V ∧ r.depth p.name = r.n.exprParenDepth p.name ∧ r.n.exprParenDepth p.name ≠ 0
  expr : ∃ r, m'.rules.cell X = some r ∧ r.name = .expr ∧ r.parent = W ∧ r.child = P
  operand : m'.rules.cell W = some { rW with child := X }
  expr_eq : n'.expr = 0
  exprParen_ne : n'.exprParen ≠ 0
  fresh : m.rules.cell X = none ∧ m.rules.cell P = none ∧ m.rules.cell V = none
  ne : X ≠ W ∧ P ≠ W ∧ V ≠ W ∧ P ≠ X ∧ V ≠ X ∧ V ≠ P
  keeps : Keeps m.rules m'.rules W
  world : m'.world = m.world

variable (evaluate) in
/-- An open paren opens three rules. -/
theorem steps_opn {rW : Rule α} (h : At m W .opening S (.opn p :: toks))
    (hr : m.rules.cell W = some rW) (hn : rW.name = .val) (htoks : ∀ q ts, toks ≠ .cls q :: ts) :
    ∃ m' X P V n', Steps evaluate m m' ∧ Opened m m' W X P V S toks p rW n' := by
  have hlt := Store.le_last hr
  obtain ⟨hat₁, hX₁, hW₁, hk₁⟩ := at_push .expr (r := rW) h hr
  have hs₁ := step_val_opn evaluate h hr hn
  obtain ⟨hat₂, hP₂, hX₂, hk₂⟩ := at_push .paren (r := .start .expr rW.node rW.n W 0) hat₁
    hX₁
  have hs₂ := step_expr_opn evaluate hat₁ hX₁ rfl
  obtain ⟨hat₃, hV₃, hP₃, hk₃⟩ := at_pushVal
    (r := openParen { Rule.start .paren rW.node rW.n (m.rules.last + 1) 0 with n := { rW.n with
      exprParen := rW.n.exprParen + 1, expr := 0, exprPrefix := 0, exprSuffix := 0 } } p) hat₂ hP₂ toks
  have hs₃ := step_paren_open evaluate hat₂ hP₂ rfl htoks
  have hW₂ := hk₂ W _ (by omega) hW₁
  have hW₃ := hk₃ W _ (by rw [last_push]; omega) hW₂
  have hX₃ := hk₃ _ _ (by rw [last_push]; omega) hX₂
  refine ⟨_, m.rules.last + 1, m.rules.last + 1 + 1, m.rules.last + 1 + 1 + 1, _,
    ((Steps.of_step hs₁).trans (Steps.of_step hs₂)).trans (Steps.of_step hs₃), hat₃, hV₃,
    ⟨_, hP₃, rfl, rfl, rfl, rfl, by simp [openParen], by simp [openParen]⟩, ⟨_, hX₃, rfl, rfl, rfl⟩,
      hW₃,
    rfl, Nat.succ_ne_zero _, ⟨m.rules.cell_next, m.rules.fresh _ (by omega),
      m.rules.fresh _ (by omega)⟩, by omega, ?_, rfl⟩
  refine (hk₁.trans hk₂ (Or.inr m.rules.cell_next)).trans hk₃ (Or.inr ?_)
  exact m.rules.fresh _ (by rw [last_push]; omega)

/-- A close paren ends the expression before it. -/
theorem Level.closes {base : Store (Rule α)} {V c P : ℕ} {t : Tree (ℕ × Op) (Val α)} {d : ℕ}
    (h : Level evaluate owns base m V c (P :: S) (.cls p :: rest) t d) (hc : c ≠ 0) :
    ∃ m', m.step evaluate = some m' ∧ At m' P .before S (.cls p :: rest) ∧
      Keeps base m'.rules V ∧ m'.node V = handle t ∧ m'.world = m.world := by
  obtain ⟨hk, ⟨rV, hV, -, hnode⟩, -, R, r, hat, hr, hR, -, rfl, hlast⟩ := h
  have hstep : m.step evaluate = some (m.pop r) := by
    rcases hlast with ⟨-, hn, -⟩ | ⟨hn, hexpr, -, -, -, hchild, -⟩
    · exact step_val_last hat hr hn hc (Or.inr ⟨p, rest, rfl⟩)
    · exact step_expr_cls hat hr hn hchild hexpr hc
  obtain ⟨hat', hr', hk'⟩ := at_pop (r := r) hat hr
  refine ⟨m.pop r, hstep, hat', hk.trans hk' hR, ?_, rfl⟩
  by_cases hRV : V = R
  · subst hRV
    cases hr.symm.trans hV
    rw [node_eq hr', hnode]
  · rw [node_eq (hk' V rV hRV hV), hnode]

theorem coalesce_self (v : Val α) : coalesce v v .undefined = v := by
  cases v <;> rfl

/-- What a paren closes over is a value. -/
theorem handle_ne_undefined {P : ℕ} {t : Tree (ℕ × Op) (Val α)} {r : Rule α}
    (hat : At m P .closing S toks) (hr : m.rules.cell P = some r) (hn : r.name = .paren)
    (hnode : r.node = .undefined) (hsafe : Safe evaluate m) (hv : m.node r.child = handle t)
    (hc : Complete t) (hl : Leaves (Fit (Scalar evaluate) m.world) (erase t)) :
    handle t ≠ .undefined := by
  rcases hsafe with hscalar | hsound
  · obtain ⟨a, rfl⟩ | ⟨q, hq⟩ := leaf_or_root hc (hl.mono fun _ hv => hv.2 hscalar)
    · simp [handle]
    · simp [handle_of_rootId (rootId_of_root hq)]
  · have h := ((hsound m .refl) r (hat.cur.symm ▸ hr)).2 hat.phase hn
    rw [hnode, hv] at h
    intro hundef
    rw [hundef] at h
    exact h rfl

/-- A paren node is held as soon as it is made. -/
theorem held_paren {heap : Heap α} {t : Tree (ℕ × Op) (Val α)} (ht : Held layout heap t)
    (hc : Complete t) : Held layout (newNode heap p [handle t]).1 (pre (heap.last + 1, p) t) := by
  refine ⟨⟨?_, (held_newNode ht p _).stores⟩, ?_⟩
  · simp [newNode, ← slots_of_complete hc]
  · simpa [ids] using ⟨not_mem_ids_of_held ht, ht.nodup⟩

/-- The close of a paren: its node goes to the expression and to the operand, and what the expression
ends with is what the operand closes with. -/
theorem steps_cls (hE : ∀ E ∈ evaluate, Sparing E owns) {X P V : ℕ} {rW rX rP : Rule α}
    {t : Tree (ℕ × Op) (Val α)} {d : ℕ} (h : At m P .before (X :: W :: S) (.cls p :: rest))
    (hP : m.rules.cell P = some rP) (hPn : rP.name = .paren) (hPnode : rP.node = .undefined)
    (hPX : rP.parent = X) (hPV : rP.child = V) (hdepth : rP.depth p.name = rP.n.exprParenDepth p.name)
    (hopen : rP.n.exprParenDepth p.name ≠ 0) (hX : m.rules.cell X = some rX) (hXn : rX.name = .expr)
    (hXW : rX.parent = W) (hXP : rX.child = P) (hW : m.rules.cell W = some rW) (hWn : rW.name = .val)
    (hWX : rW.child = X) (hWtok : rW.token = .undefined) (hne : X ≠ W ∧ P ≠ W ∧ P ≠ X)
    (hV : m.node V = handle t) (hm : m.world.Marked owns) (hsafe : Safe evaluate m) (ht : Stands (Scalar evaluate) owns m.world t)
    (hform : Formed (erase t) d) (hp : p.kind = .parenOp) :
    ∃ m' y cs, Steps evaluate m m' ∧ At m' W .closing S rest ∧
      m'.rules.cell W = some { rW with node := handle y } ∧
      (∀ i r, i ≠ W → i ≠ X → i ≠ P → m.rules.cell i = some r → m'.rules.cell i = some r) ∧
      m'.world.calls = m.world.calls ++ cs ∧ Left evaluate (pre p (erase t)) cs (erase y) ∧
      Grows owns { m.world with heap := (newNode m.world.heap p [handle t]).1 } m'.world ∧
      Stands (Scalar evaluate) owns m'.world y ∧
      ∀ i ∈ ids y, i = m.world.heap.last + 1 ∨ i ∈ ids t := by
  obtain ⟨hXW', hPW, hPX'⟩ := hne
  subst hPX
  have hc := complete_erase.1 hform.complete
  let j := m.world.heap.last + 1
  let u : Tree (ℕ × Op) (Val α) := pre (j, p) t
  have hs₁ := step_paren_before evaluate h hP hPn
  have hat₁ : At { m with phase := .closing } P .closing (rP.parent :: W :: S) (.cls p :: rest) :=
    ⟨h.cur, rfl, h.stack, h.tokens, h.norule⟩
  have hchildV : { m with phase := .closing }.node rP.child = handle t := by rw [hPV]; exact hV
  have hs₂ := step_paren_close evaluate hat₁ hP hPn hPnode hdepth hopen hchildV
    (handle_ne_undefined hat₁ hP hPn hPnode (hsafe.steps (Steps.of_step hs₁)) hchildV hc ht.leaves)
  have hgrand : { m with phase := .closing }.grandparent rP = W := by
    simp [grandparent, hX, hXW]
  rw [hgrand] at hs₂
  let w : World σ α := { m.world with heap := (newNode m.world.heap p [handle t]).1 }
  have hu : Stands (Scalar evaluate) owns w u :=
    ht.alloc hm (held_paren ht.held hc) (fun i hi => (List.mem_cons.1 hi).symm) ht.leaves
  have hw : w.Marked owns := hm.alloc ⟨some p, [handle t]⟩
  have huc : Complete u := hc
  -- The two rules above the paren hold its node.
  let m₂ : Machine σ α := (((({ m with phase := .closing }.setHeap
    (newNode m.world.heap p [handle t]).1).pop { rP with node := .node j }).withTokens rest).setNode
      rP.parent (.node j)).setNode W (.node j)
  have hat₂ : At m₂ rP.parent .before (W :: S) rest := by
    refine at_setNode (at_setNode ?_ _ _) _ _
    refine ⟨?_, rfl, ?_, rfl, norule_modify h.norule⟩
    · exact congrArg (List.headD · 0) h.stack
    · exact congrArg List.tail h.stack
  have hcell : ∀ i r, i ≠ W → i ≠ rP.parent → i ≠ P →
      m.rules.cell i = some r → m₂.rules.cell i = some r :=
    fun i r hiW hiX hiP hr => (cell_setNode_of_ne hiW _).trans ((cell_setNode_of_ne hiX _).trans
      ((Store.cell_modify_of_ne _ (h.cur ▸ hiP)).trans hr))
  have hX₂ : m₂.rules.cell rP.parent = some { rX with node := .node j } := by
    refine (cell_setNode_of_ne hXW' _).trans (cell_setNode_self ?_)
    exact (Store.cell_modify_of_ne _ (h.cur ▸ hPX'.symm)).trans hX
  have hW₂ : m₂.rules.cell W = some { rW with node := .node j } := by
    refine cell_setNode_self ((cell_setNode_of_ne hXW'.symm _).trans ?_)
    exact (Store.cell_modify_of_ne _ (h.cur ▸ hPW.symm)).trans hW
  have hP₂ : m₂.rules.cell P = some { rP with node := .node j } := by
    refine (cell_setNode_of_ne hPW _).trans ((cell_setNode_of_ne hPX' _).trans ?_)
    have hcur : m.rules.cell m.cur = some rP := h.cur ▸ hP
    have := cell_put_cur (r := { rP with node := .node j }) hcur
    rwa [h.cur] at this
  -- The paren node has its term.
  have hs₃ := step_expr_full evaluate hat₂ hX₂ hXn rfl hu.held.stores.1
    (by simp [Op.terms, hp, slots_of_complete hc])
  have hat₃ : At { m₂ with phase := .closing } rP.parent .closing (W :: S) rest :=
    ⟨hat₂.cur, rfl, hat₂.stack, hat₂.tokens, hat₂.norule⟩
  obtain ⟨m₄, y, cs, hs₄, hcl, hleft, hat₄⟩ := step_expr_paren hE hat₃ hX₂ hXn
    (by rw [hXP]; exact congrArg (Option.map Rule.name) hP₂ |>.trans (congrArg some hPn))
    (by rw [hXW]; exact hW₂) (by rw [hXW]; exact hXW'.symm) (u := u) rfl hw hu huc (q := (j, p)) rfl
  rw [hXW] at hcl
  have hW₄ := hcl.parent _ hW₂
  obtain ⟨nX, vX, hX₄, hvX⟩ := hcl.own _ hX₂
  obtain ⟨m₅, hs₅, hat₅, hW₅, hk₅, hw₅⟩ := step_val_before evaluate hat₄ hW₄ hWn
  have hchild : m₄.node rP.parent = handle y := by rw [node_eq hX₄]; exact hvX rfl
  refine ⟨m₅, y, cs, ?_, hat₅, ?_, fun i r hiW hiX hiP hr => ?_, ?_, hleft, ?_, ?_, fun i hi => ?_⟩
  · exact (((Steps.of_step hs₁).trans (Steps.of_step hs₂)).trans ((Steps.of_step hs₃).trans
      (Steps.of_step hs₄))).trans (Steps.of_step hs₅)
  · rw [hW₅]
    simp only [hWX, hchild, hWtok, coalesce_self]
  · exact hk₅ i r hiW ((hcl.other i hiW hiX).trans (hcell i r hiW hiX hiP hr))
  · rw [hw₅]
    exact hcl.calls
  · rw [hw₅]
    exact hcl.grows
  · rw [hw₅]
    exact hcl.stands
  · exact (List.mem_cons.1 (hcl.ids i hi))

/-- No expression starts with a close paren. -/
theorem text_ne_cls : (e : Expr α) → (us : List (Sym Op α)) → ∀ q ts, e.text ++ us ≠ .cls q :: ts
  | .lead [] (.atom _), _, _, _ => by simp [Expr.text, Operand.text]
  | .lead [] (.paren _ _), _, _, _ => by simp [Expr.text, Operand.text]
  | .lead (_ :: _) _, _, _, _ => by simp [Expr.text]
  | .more e o ps x, us, q, ts => by
    rw [Expr.text, List.append_assoc]
    exact text_ne_cls e _ q ts
  | .suffixed e s, us, q, ts => by
    rw [Expr.text, List.append_assoc]
    exact text_ne_cls e _ q ts

/-- An expression in parens is an operand. -/
theorem runs_paren (hE : ∀ E ∈ evaluate, Sparing E owns) {e : Expr α} (he : e.Runs evaluate owns)
    (hk : (Operand.paren p e).Kinded) : (Operand.paren p e).Runs evaluate owns := by
  intro m W S rest v n q h hr hm hsafe
  have htext : (Operand.paren p e).text ++ rest = .opn p :: (e.text ++ .cls p :: rest) := by
    simp [Operand.text]
  rw [htext] at h
  obtain ⟨m₁, X, P, V, n', hs₁, ho⟩ := steps_opn evaluate h hr rfl
    (text_ne_cls e (.cls p :: rest))
  obtain ⟨rP, hP, hPn, hPnode, hPX, hPV, hdepth, hopen⟩ := ho.paren
  obtain ⟨rX, hX, hXn, hXW, hXP⟩ := ho.expr
  obtain ⟨hXW', hPW, hVW, hPX', hVX, hVP⟩ := ho.ne
  obtain ⟨hXf, hPf, hVf⟩ := ho.fresh
  have hsafe₁ := hsafe.steps hs₁
  obtain ⟨m₂, t, d, cs₁, hs₂, hlevel, hcalls₁, hreads, hsince⟩ := he m₁ V (P :: X :: W :: S)
    (.cls p :: rest) n' P ho.at_opening ho.val ho.expr_eq (Or.inr ⟨rP, hP, hPnode⟩) hVP.symm
    ho.exprParen_ne (ho.world.symm ▸ hm) hsafe₁
  obtain ⟨m₃, hs₃, hat₃, hk₃, hV₃, hw₃⟩ := hlevel.closes ho.exprParen_ne
  have hsafe₃ := (hsafe₁.steps hs₂).steps (Steps.of_step hs₃)
  rw [ho.world, ← hw₃] at hsince
  obtain ⟨m₄, y, cs₂, hs₄, hat₄, hW₄, hk₄, hcalls₂, hleft, hgrows, hstands, hids⟩ := steps_cls hE hat₃
    (hk₃ P rP hVP.symm hP) hPn hPnode hPX hPV hdepth hopen (hk₃ X rX hVX.symm hX) hXn hXW hXP
    (hk₃ W _ hVW.symm ho.operand) rfl rfl rfl ⟨hXW', hPW, hPX'⟩ hV₃ hsince.marked hsafe₃
    (hw₃ ▸ hlevel.stands) (hreads.formed hk.2.2) hk.1
  refine ⟨m₄, y, cs₁ ++ cs₂, X, .undefined, ?_, hat₄, hW₄, ?_, ?_, ?_, ?_, hstands⟩
  · exact (hs₁.trans hs₂).trans ((Steps.of_step hs₃).trans hs₄)
  · intro i r hi hri
    have hne : ∀ {k}, m.rules.cell k = none → i ≠ k := fun hkn hik => by simp [hik ▸ hkn] at hri
    exact hk₄ i r hi (hne hXf) (hne hPf) (hk₃ i r (hne hVf) (ho.keeps i r hi hri))
  · rw [hcalls₂, hw₃, hcalls₁, ho.world, List.append_assoc]
  · exact ⟨cs₁, erase t, d, cs₂, hreads, hleft, rfl⟩
  · exact (hsince.alloc _ fun i hi => (hids i hi).symm).grows hgrows

end Operands

/-! ## An operand under prefix operators -/

section Unit

variable {x : Operand α} {ps : List Op} {w₀ : World σ α} {m : Machine σ α} {B W i d : ℕ} {S : List ℕ}
  {rest : List (Sym Op α)} {n : Counters} {rB : Rule α} {t : Tree (ℕ × Op) (Val α)}

/-- The rule of a prefix operator closes under a `val` rule, which is about to close then. -/
theorem steps_prefix_close (hE : ∀ E ∈ evaluate, Sparing E owns) {X : ℕ} {rX rW : Rule α}
    {u : Tree (ℕ × Op) (Val α)} {q : ℕ × Op} (hat : At m X .closing (W :: S) rest)
    (hX : m.rules.cell X = some rX) (hXn : rX.name = .expr) (hXW : rX.parent = W)
    (hchild : (m.rules.cell rX.child).map Rule.name ≠ some .paren) (hpre : rX.n.exprPrefix ≠ 0)
    (hexpr : rX.n.expr ≠ 0) (hf : Follows rX.n.exprParen rest) (hW : m.rules.cell W = some rW)
    (hWn : rW.name = .val) (hWX : rW.child = X) (hWtok : rW.token = .undefined) (hne : W ≠ X)
    (hv : rW.node = handle u) (hm : m.world.Marked owns) (hu : Stands (Scalar evaluate) owns m.world u)
    (hk : Formed (erase u) 0) (hq : rootOp u = some q) :
    ∃ m' u' v cs, Steps evaluate m m' ∧ At m' W .closing S rest ∧
      m'.rules.cell W = some { rW with node := v } ∧ (rX.node = handle u → v = handle u') ∧
      (∀ i r, i ≠ W → i ≠ X → m.rules.cell i = some r → m'.rules.cell i = some r) ∧
      Closes evaluate (endsAt rest) (erase u) cs (erase u') ∧ Grows owns m.world m'.world ∧
      m'.world.calls = m.world.calls ++ cs ∧ Stands (Scalar evaluate) owns m'.world u' ∧
      ∀ i ∈ ids u', i ∈ ids u := by
  obtain ⟨m₁, u', cs, hs₁, hcl, hcloses, hat₁⟩ := step_expr_prefix hE hat hX hXn hchild hpre hexpr hf
    (hXW.symm ▸ hW) (hXW.symm ▸ hne) hv hm hu (complete_erase.1 hk.complete) hq
  rw [hXW] at hcl
  have hW₁ := hcl.parent rW hW
  obtain ⟨nX, vX, hX₁, hvX⟩ := hcl.own rX hX
  obtain ⟨m₂, hs₂, hat₂, hW₂, hk₂, hw₂⟩ := step_val_before evaluate hat₁ hW₁ hWn
  refine ⟨m₂, u', _, cs, (Steps.of_step hs₁).trans (Steps.of_step hs₂), hat₂, hW₂, fun hXu => ?_,
    fun i r hiW hiX hr => hk₂ i r hiW ((hcl.other i hiW hiX).trans hr), hcloses, ?_, ?_, ?_, hcl.ids⟩
  · have hchild' : m₁.node rW.child = handle u' := by
      rw [hWX]
      exact (node_eq hX₁).trans (hvX hXu)
    dsimp only
    rw [hchild', hWtok]
    exact coalesce_self _
  · rw [hw₂]
    exact hcl.grows
  · rw [hw₂, hcl.calls]
  · rw [hw₂]
    exact hcl.stands

/-- The rule `X` of a prefix operator has started under the `val` rule `W`, which holds the value `v`.  Its
node is `j`, and the rule `C` of its own operand starts. -/
structure Prefixed (m m' : Machine σ α) (W X C : ℕ) (v : Val α) (j : ℕ) (r : Rule α) (n : Counters)
    (S : List ℕ) (toks : List (Sym Op α)) : Prop where
  at_opening : At m' C .opening (X :: W :: S) toks
  operand : m'.rules.cell C = some (.start .val (.node j) n X 0)
  expr : ∃ rX, m'.rules.cell X = some rX ∧ rX.name = .expr ∧ rX.node = .node j ∧ rX.n = n ∧
    rX.parent = W ∧ rX.child = C
  val : ∃ n', m'.rules.cell W = some { r with node := v, n := n', child := X } ∧
    n'.expr = r.n.expr ∧ n'.exprParen = r.n.exprParen
  counters : n.expr ≠ 0 ∧ n.exprPrefix ≠ 0 ∧ n.exprParen = r.n.exprParen
  keeps : Keeps m.rules m'.rules W
  fresh : m.rules.cell X = none
  ne : X ≠ W ∧ C ≠ W ∧ C ≠ X

/-- The `expr` rule of a prefix operator takes the operator. -/
theorem prefixed_of_push {m₁ : Machine σ α} {X j : ℕ} {v v' : Val α} {r : Rule α} {n₁ n : Counters}
    {toks : List (Sym Op α)} (hat : At m₁ X .opening (W :: S) toks)
    (hX : m₁.rules.cell X = some (.start .expr v n₁ W 0))
    (hW : m₁.rules.cell W = some { r with node := v', n := n₁, child := X })
    (hn₁ : n₁.expr = r.n.expr ∧ n₁.exprParen = r.n.exprParen)
    (hn : n.expr ≠ 0 ∧ n.exprPrefix ≠ 0 ∧ n.exprParen = r.n.exprParen)
    (hk : Keeps m.rules m₁.rules W) (hXf : m.rules.cell X = none) (hXW : X ≠ W)
    (rest : List (Sym Op α)) :
    ∃ C, m.rules.cell C = none ∧ Prefixed m
      ((m₁.push { Rule.start .expr v n₁ W 0 with n := n, node := .node j } .val).withTokens rest) W X C v' j
      r n S rest := by
  obtain ⟨hat', hC, hX', hk'⟩ := at_pushVal
    (r := { Rule.start .expr v n₁ W 0 with n := n, node := .node j }) hat hX rest
  have hCf : m.rules.cell (m₁.rules.last + 1) = none := hk.next fun _ => by
    rw [hW]
    exact Option.some_ne_none _
  exact ⟨m₁.rules.last + 1, hCf, hat', hC, ⟨_, hX', rfl, rfl, rfl, rfl, rfl⟩,
    ⟨n₁, hk' W _ hXW.symm hW, hn₁⟩, hn, hk.trans hk' (Or.inr hXf), hXf, hXW, next_ne hW, next_ne hX⟩

variable (evaluate) in
/-- A prefix operator at the start of an expression makes a node, which the first rule holds. -/
theorem steps_pre_first {p : Op} {q : ℕ} {toks : List (Sym Op α)}
    (h : At m W .opening S (.pre p :: toks))
    (hr : m.rules.cell W = some (.start .val .undefined n q 0)) (hp : p.kind = .prefixOp) :
    ∃ m' X C n', Steps evaluate m m' ∧ m.rules.cell C = none ∧
      Prefixed m m' W X C (.node (m.world.heap.last + 1)) (m.world.heap.last + 1)
        (.start .val .undefined n q 0) n' S toks ∧
      m'.world = { m.world with heap := (newNode m.world.heap p []).1 } := by
  have hs₁ := step_val_pre evaluate h hr rfl
  obtain ⟨hat₁, hX₁, hW₁, hk₁⟩ := at_push .expr
    (r := { Rule.start .val .undefined n q 0 with
      n := { n with exprPrefix := n.exprPrefix + 1, exprSuffix := 0 } }) h hr
  have hs₂ := step_expr_pre_first evaluate hat₁ hX₁ rfl (Nat.succ_ne_zero _) (node_eq hW₁) hp
  have hXW : m.rules.last + 1 ≠ W := next_ne hr
  obtain ⟨C, hC, hpre⟩ := prefixed_of_push (j := m.world.heap.last + 1)
    (n := { n with expr := n.expr + 1, exprPrefix := n.exprPrefix + 1, exprSuffix := 0 })
    (r := .start .val .undefined n q 0)
    (at_setNode (at_setHeap hat₁ (newNode m.world.heap p []).1) W (.node (m.world.heap.last + 1)))
    ((cell_setNode_of_ne hXW _).trans hX₁) (cell_setNode_self hW₁) ⟨rfl, rfl⟩
    ⟨Nat.succ_ne_zero _, Nat.succ_ne_zero _, rfl⟩ (hk₁.trans (keeps_modify _) (Or.inl rfl))
    m.rules.cell_next hXW toks
  exact ⟨_, _, C, _, (Steps.of_step hs₁).trans (Steps.of_step hs₂), hC, hpre, rfl⟩

variable (evaluate) in
/-- A prefix operator where an operand is due goes into the node that waits for it. -/
theorem steps_pre_due {p : Op} {q : ℕ} {toks : List (Sym Op α)}
    (h : At m W .opening S (.pre p :: toks))
    (hr : m.rules.cell W = some (.start .val (.node i) n q 0)) (hp : p.kind = .prefixOp)
    (ht : Held layout m.world.heap t) (hd : DueAt d i t) :
    ∃ m' X C n' heap, Steps evaluate m m' ∧ m.rules.cell C = none ∧
      Prefixed m m' W X C (.node i) (m.world.heap.last + 1) (.start .val (.node i) n q 0) n' S toks ∧
      m'.world = { m.world with heap := heap } ∧
      Rewrites layout m.world.heap heap [] t (fill (pre (m.world.heap.last + 1, p) hole) t) ∧
      DueAt (d + 1) (m.world.heap.last + 1) (fill (pre (m.world.heap.last + 1, p) hole) t) := by
  have hs₁ := step_val_pre evaluate h hr rfl
  obtain ⟨hat₁, hX₁, hW₁, hk₁⟩ := at_push .expr
    (r := { Rule.start .val (.node i) n q 0 with
      n := { n with exprPrefix := n.exprPrefix + 1, exprSuffix := 0 } }) h hr
  obtain ⟨op, vs, hcell, -, hparen⟩ := due_cell hd ht
  have hop : opAt m.world.heap (.node i) = some (i, op) := by simp [opAt, opOf, hcell]
  obtain ⟨heap, hpr, hrw, hd'⟩ := prattify_prefix ht hd hp
  have hs₂ := step_expr_pre evaluate hat₁ hX₁ rfl (Nat.succ_ne_zero _) (node_eq hW₁) hop hparen hpr
  obtain ⟨C, hC, hpre⟩ := prefixed_of_push (j := m.world.heap.last + 1)
    (n := { n with expr := n.expr + 1, exprPrefix := n.exprPrefix + 1, exprSuffix := 0 })
    (r := .start .val (.node i) n q 0) (at_setHeap hat₁ heap) hX₁ hW₁ ⟨rfl, rfl⟩
    ⟨Nat.succ_ne_zero _, Nat.succ_ne_zero _, rfl⟩ hk₁ m.rules.cell_next (next_ne hr) toks
  exact ⟨_, _, C, _, heap, (Steps.of_step hs₁).trans (Steps.of_step hs₂), hC, hpre, rfl, hrw, hd'⟩

/-- Once the operand of a prefix operator is read its rule closes, and the `val` rule under it is about to
close. -/
theorem Prefixed.closes (hE : ∀ E ∈ evaluate, Sparing E owns) {m₁ m₂ : Machine σ α} {X C j : ℕ}
    {v : Val α} {r : Rule α} {u : Tree (ℕ × Op) (Val α)} {q : ℕ × Op} {toks : List (Sym Op α)}
    (h : Prefixed m m₁ W X C v j r n S toks) (hr : r.name = .val) (hrtok : r.token = .undefined)
    (hCf : m.rules.cell C = none) (hat : At m₂ X .closing (W :: S) rest) (hk : Keeps m₁.rules m₂.rules C)
    (hC : ∃ rC, m₂.rules.cell C = some rC ∧ rC.name = .val) (hf : Follows r.n.exprParen rest)
    (hv : v = handle u) (hm : m₂.world.Marked owns) (hu : Stands (Scalar evaluate) owns m₂.world u)
    (hform : Formed (erase u) 0) (hq : rootOp u = some q) :
    ∃ m' u' v' n' cs, Steps evaluate m₂ m' ∧ At m' W .closing S rest ∧
      m'.rules.cell W = some { r with node := v', n := n', child := X } ∧
      n'.expr = r.n.expr ∧ n'.exprParen = r.n.exprParen ∧ (.node j = handle u → v' = handle u') ∧
      Keeps m.rules m'.rules W ∧ Closes evaluate (endsAt rest) (erase u) cs (erase u') ∧
      Grows owns m₂.world m'.world ∧ m'.world.calls = m₂.world.calls ++ cs ∧
      Stands (Scalar evaluate) owns m'.world u' ∧ ∀ i ∈ ids u', i ∈ ids u := by
  obtain ⟨rX, hX, hXn, hXj, rfl, hXW, hXC⟩ := h.expr
  obtain ⟨n', hW, hexpr, hparen⟩ := h.val
  obtain ⟨hn, hpre, hp⟩ := h.counters
  obtain ⟨rC, hC, hCn⟩ := hC
  have hWX : W ≠ X := h.ne.1.symm
  obtain ⟨m', u', v', cs, hs, hat', hW', hv', hk', hcloses, hheap, hcalls, hu', hids⟩ :=
    steps_prefix_close hE hat (hk X rX h.ne.2.2.symm hX) hXn hXW (not_paren (hXC ▸ hC) hCn) hpre hn
      (hp ▸ hf) (hk W _ h.ne.2.1.symm hW) hr rfl hrtok hWX hv hm hu hform hq
  refine ⟨m', u', v', n', cs, hs, hat', hW', hexpr, hparen, fun hj => hv' (hXj.trans hj), ?_, hcloses,
    hheap, hcalls, hu', hids⟩
  intro i rᵢ hi hri
  have hne : ∀ {k}, m.rules.cell k = none → i ≠ k := fun hkn hik => by simp [hik ▸ hkn] at hri
  exact hk' i rᵢ hi (hne h.fresh) (hk i rᵢ (hne hCf) (h.keeps i rᵢ hi hri))

/-- An operand's rule hands the next token on to the rule of an operator that has its operands. -/
theorem steps_hand_on {rW : Rule α} {op : Op} {terms : List (Val α)}
    (hat : At m W .closing (B :: S) rest) (hW : m.rules.cell W = some rW) (hWn : rW.name = .val)
    (hexpr : rW.n.expr ≠ 0) (hf : Follows rW.n.exprParen rest) (hB : m.rules.cell B = some rB)
    (hBn : rB.name = .expr) (hBi : rB.node = .node i) (hne : B ≠ W)
    (hi : m.world.heap.cell i = some ⟨some op, terms⟩) (hle : op.terms ≤ terms.length) :
    ∃ m', Steps evaluate m m' ∧ At m' B .closing S rest ∧ Keeps m.rules m'.rules W ∧
      (∃ r, m'.rules.cell W = some r ∧ r.name = .val) ∧ m'.world = m.world := by
  obtain ⟨m₁, n, hs₁, hat₁, hW₁, hk, hw⟩ := step_val_closing evaluate hat hW hWn hexpr hf
  have hs₂ := step_expr_full evaluate hat₁ (hk B rB hne hB) hBn hBi (hw ▸ hi) hle
  exact ⟨_, (Steps.of_step hs₁).trans (Steps.of_step hs₂),
    ⟨hat₁.cur, rfl, hat₁.stack, hat₁.tokens, hat₁.norule⟩, hk, ⟨_, hW₁, hWn⟩, hw⟩

/-- Once the operand of a prefix operator is read its rule closes, then the `val` rule under it, and the
rule `B` of the operator before it, whose node `i` is complete, is about to close. -/
theorem Prefixed.returns (hE : ∀ E ∈ evaluate, Sparing E owns) {m₁ m₂ : Machine σ α} {X C j : ℕ}
    {r : Rule α} {T : Tree (ℕ × Op) (Val α)} {toks : List (Sym Op α)}
    (h : Prefixed m m₁ W X C (.node i) j r n (B :: S) toks) (hr : r.name = .val)
    (hrtok : r.token = .undefined) (hCf : m.rules.cell C = none)
    (hat : At m₂ X .closing (W :: B :: S) rest) (hk : Keeps m₁.rules m₂.rules C)
    (hC : ∃ rC, m₂.rules.cell C = some rC ∧ rC.name = .val) (hexpr : r.n.expr ≠ 0)
    (hf : Follows r.n.exprParen rest) (hm : m₂.world.Marked owns)
    (hT : Stands (Scalar evaluate) owns m₂.world T) (hform : Formed (erase (edgeAt d T)) 0)
    (hroot : rootId (edgeAt d T) = some i) (hB : m.rules.cell B = some rB) (hBn : rB.name = .expr)
    (hBi : rB.node = .node i) (hne : B ≠ W) :
    ∃ m' u' cs, Steps evaluate m₂ m' ∧ At m' B .closing S rest ∧ Keeps m.rules m'.rules W ∧
      (∃ r, m'.rules.cell W = some r ∧ r.name = .val) ∧
      Closes evaluate (endsAt rest) (erase (edgeAt d T)) cs (erase u') ∧ Grows owns m₂.world m'.world ∧
      m'.world.calls = m₂.world.calls ++ cs := by
  obtain ⟨q, hq, -⟩ := Option.map_eq_some_iff.1 ((rootId_eq _).symm.trans hroot)
  obtain ⟨m₃, u', v', n', cs, hs, hat₃, hW, hn', hp', -, hk₃, hcloses, hgrows, hcalls, -⟩ :=
    h.closes hE hr hrtok hCf hat hk hC hf (handle_of_rootId hroot).symm hm hT.edgeAt hform hq
  obtain ⟨op, vs, hcell, hle⟩ := full_cell (hT.grows hgrows).held.edgeAt
    (complete_erase.1 hform.complete) hform.slotted hroot
  obtain ⟨m₄, hs₄, hat₄, hk₄, hW₄, hw⟩ := steps_hand_on hat₃ hW hr (hn'.symm ▸ hexpr)
    (hp'.symm ▸ hf) (hk₃ B rB hne hB) hBn hBi hne hcell hle
  refine ⟨m₄, u', cs, hs.trans hs₄, hat₄, hk₃.trans hk₄ (Or.inl rfl), hW₄, hcloses, ?_, ?_⟩
  · rw [hw]
    exact hgrows
  · rw [hw, hcalls]

/-- The value of an operand goes into the node that waits for it. -/
theorem steps_fill {rW : Rule α} {y : Tree (ℕ × Op) (Val α)}
    (hat : At m W .closing (B :: S) rest) (hW : m.rules.cell W = some rW) (hWn : rW.name = .val)
    (hWy : rW.node = handle y) (hexpr : rW.n.expr ≠ 0) (hf : Follows rW.n.exprParen rest)
    (hB : m.rules.cell B = some rB) (hBn : rB.name = .expr) (hBi : rB.node = .node i)
    (hBW : rB.child = W) (hne : B ≠ W) (ht : Stands (Scalar evaluate) owns m.world t)
    (hy : Stands (Scalar evaluate) owns m.world y) (hform : Formed (erase y) 0)
    (hout : ∀ j ∈ ids y, j ∉ ids t) (hd : DueAt d i t) :
    ∃ m' heap, Steps evaluate m m' ∧ At m' B .closing S rest ∧ Keeps m.rules m'.rules W ∧
      (∃ r, m'.rules.cell W = some r ∧ r.name = .val) ∧
      m'.world = { m.world with heap := heap } ∧
      Rewrites layout m.world.heap heap (ids y) t (fill y t) := by
  obtain ⟨m₁, n, hs₁, hat₁, hW₁, hk, hw⟩ := step_val_closing evaluate hat hW hWn hexpr hf
  obtain ⟨op, vs, hcell, hlt, -⟩ := due_cell hd ht.held
  have hc := complete_erase.1 hform.complete
  have hv : m₁.node rB.child = handle y := by
    rw [hBW]
    exact (node_eq hW₁).trans hWy
  -- The operand is no node of the tree, nor one that the evaluator returned in its place.
  have hnot : nodeId (m₁.node rB.child) ≠ some i := by
    rw [hv]
    intro hi
    have hit : i ∈ ids t := by
      obtain ⟨p, l?, hp, -, -, he⟩ := hd
      exact mem_ids_of_edgeAt (d := d) (mem_ids_of_rootId (by rw [he, rootId_spine, hp]))
    cases y with
    | hole => exact hc.elim
    | leaf v =>
      cases v with
      | undefined | atom => cases hi
      | node k =>
        obtain rfl : k = i := Option.some.inj hi
        exact ht.clear k hit (Or.inl (hy.leaves.1 k rfl))
    | pre p | suf p | inf p | grp p =>
      obtain rfl : p.1 = i := Option.some.inj hi
      exact hout p.1 List.mem_cons_self hit
  have hs₂ := step_expr_fill evaluate hat₁ (hk B rB hne hB) hBn hBi (hw ▸ hcell) hlt hnot
  rw [hv, hw] at hs₂
  exact ⟨_, _, (Steps.of_step hs₁).trans (Steps.of_step hs₂),
    ⟨hat₁.cur, rfl, hat₁.stack, hat₁.tokens, hat₁.norule⟩, hk, ⟨_, hW₁, hWn⟩, rfl,
    rewrites_push ht.held hd hy.held hc hout⟩

/-- An operand that is due at the node `i` is read into it: the rule `B` of the operator is about to
close, and every rule but the operand's `W` is as it was. -/
theorem run_due (hE : ∀ E ∈ evaluate, Sparing E owns) (hx : x.Runs evaluate owns) (hxk : x.Kinded)
    (hps : ∀ p ∈ ps, p.kind = .prefixOp) (hat : At m W .opening (B :: S) (ps.map .pre ++ x.text ++ rest))
    (hW : m.rules.cell W = some (.start .val (.node i) n B 0)) (hexpr : n.expr ≠ 0)
    (hf : Follows n.exprParen rest) (hB : m.rules.cell B = some rB) (hBn : rB.name = .expr)
    (hBi : rB.node = .node i) (hBW : rB.child = W) (hne : B ≠ W) (hs₀ : Since owns w₀ m.world t)
    (hsafe : Safe evaluate m) (ht : Stands (Scalar evaluate) owns m.world t) (hk : Pending (erase t))
    (hd : DueAt d i t) :
    ∃ m' z y cs₁ cs₂, Steps evaluate m m' ∧ At m' B .closing S rest ∧ Keeps m.rules m'.rules W ∧
      (∃ r, m'.rules.cell W = some r ∧ r.name = .val) ∧
      m'.world.calls = m.world.calls ++ (cs₁ ++ cs₂) ∧ x.Reads evaluate cs₁ y ∧
      erase z = prefixes ps y ∧ Repeats evaluate (endsAt rest) ps d (erase (fill z t)) cs₂ ∧
      Since owns w₀ m'.world (fill z t) ∧ Stands (Scalar evaluate) owns m'.world (fill z t) := by
  induction ps generalizing m B W i d S n rB t with
  | nil =>
    obtain ⟨m₁, y, cs, c, tok, hs₁, hat₁, hW₁, hk₁, hcalls, hreads, hsince, hy⟩ :=
      hx m W (B :: S) rest (.node i) n B hat hW hs₀.marked hsafe
    have hout : ∀ j ∈ ids y, j ∉ ids t := fun j hj hjt => ht.held.cell_ne_none hjt (hsince.new j hj)
    have ht₁ := ht.grows hsince.toGrows
    obtain ⟨m₂, heap, hs₂, hat₂, hk₂, hW₂, hw₂, hrw⟩ := steps_fill hat₁ hW₁ rfl rfl hexpr hf
      (hk₁ B rB hne hB) hBn hBi hBW hne ht₁ hy (hreads.formed hxk) hout hd
    refine ⟨m₂, y, erase y, cs, [], hs₁.trans hs₂, hat₂, hk₁.trans hk₂ (Or.inl rfl), hW₂, ?_, hreads,
      rfl, rfl, ?_, ?_⟩
    · rw [hw₂, List.append_nil]
      exact hcalls
    · rw [hw₂]
      exact hs₀.takes hsince hrw
    · rw [hw₂]
      refine ht₁.rewrites hsince.marked hrw hy.clear ?_
      rw [erase_fill]
      exact leaves_fill ht₁.leaves hy.leaves
  | cons p ps ih =>
    have hpk := hps p List.mem_cons_self
    have hat' : At m W .opening (B :: S) (.pre p :: (ps.map .pre ++ x.text ++ rest)) := by
      simpa using hat
    -- The prefix operator opens an expression under the operand's rule, and its operand is read.
    obtain ⟨m₁, X, C, n₁, heap, hs₁, hCf, hpre, hw₁, hrw, hd₁⟩ :=
      steps_pre_due evaluate hat' hW hpk ht.held hd
    let j := m.world.heap.last + 1
    let t₁ := fill (pre (j, p) hole) t
    obtain ⟨rX, hX, hXn, hXj, -, -, hXC⟩ := hpre.expr
    have hk₁ : Pending (erase t₁) := by
      rw [erase_fill]
      exact hk.prefixed hpk
    have ht₁ : Stands (Scalar evaluate) owns m₁.world t₁ := by
      rw [hw₁]
      refine ht.rewrites hs₀.marked hrw (by simp) ?_
      rw [erase_fill]
      exact leaves_fill ht.leaves trivial
    obtain ⟨m₂, z, y, cs₁, cs₂, hs₂, hat₂, hk₂, hC₂, hcalls₂, hreads, hz, hrep, hs₀₂, hheld₂⟩ :=
      ih (fun q hq => hps q (List.mem_cons_of_mem _ hq)) hpre.at_opening hpre.operand hpre.counters.1
        (hpre.counters.2.2.symm ▸ hf) hX hXn hXj hXC hpre.ne.2.2.symm
        (by rw [hw₁]; exact hs₀.rewrites hrw) (hsafe.steps hs₁) ht₁ hk₁ hd₁
    have hfill : fill z t₁ = fill (pre (j, p) z) t := fill_fill (open_erase.1 hk.isOpen) _ _
    have hz' : erase (pre (j, p) z) = prefixes (p :: ps) y := congrArg (pre p) hz
    have hform : Formed (erase (fill z t₁)) 0 := by
      rw [hfill, erase_fill, hz']
      exact hk.fill ((hreads.formed hxk).prefixes hps)
    -- The node that waited is complete now.
    obtain ⟨q, l?, rfl, -, -, hedge⟩ := hd
    have hroot : rootId (edgeAt d (fill z t₁)) = some q.1 := by
      rw [hfill]
      refine rootId_edgeAt_fill ?_ _
      rw [hedge, rootId_spine]
    have hon : OnEdge d (fill z t₁) := onEdge_of_edgeAt rfl (ne_hole_of_rootId hroot)
    have hedgeForm : Formed (erase (edgeAt d (fill z t₁))) 0 := by
      rw [erase_edgeAt]
      exact hform.edgeAt (onEdge_erase.2 hon)
    obtain ⟨m₃, u', cs₃, hs₃, hat₃, hk₃, hW₃, hcloses, hgrows₃, hcalls₃⟩ := hpre.returns hE rfl rfl hCf
      hat₂ hk₂ hC₂ hexpr hf hs₀₂.marked hheld₂ hedgeForm hroot hB hBn hBi hne
    refine ⟨m₃, pre (j, p) z, y, cs₁, cs₂ ++ cs₃, (hs₁.trans hs₂).trans hs₃, hat₃, hk₃, hW₃, ?_, hreads,
      hz', ⟨cs₂, cs₃, erase u', ?_, ?_, rfl⟩, ?_, ?_⟩
    · rw [hcalls₃, hcalls₂, hw₁]
      simp only [List.append_assoc]
    · rw [← hfill]
      exact hrep
    · rw [← hfill, ← erase_edgeAt]
      exact hcloses
    · rw [← hfill]
      exact hs₀₂.grows hgrows₃
    · rw [← hfill]
      exact hheld₂.grows hgrows₃

/-- A first operand, under prefix operators or not. -/
theorem runs_lead (hE : ∀ E ∈ evaluate, Sparing E owns) (hx : x.Runs evaluate owns)
    (hk : (Expr.lead ps x).Kinded) : (Expr.lead ps x).Runs evaluate owns := by
  intro m V S rest n p hat hV hexpr hp hpV hf hm hsafe
  cases ps with
  | nil =>
    obtain ⟨m', y, cs, c, tok, hs, hat', hV', hkeep, hcalls, hreads, hsince, hy⟩ :=
      hx m V S rest .undefined n p hat hV hm hsafe
    have hleaf : evaluate ≠ none → endsAt rest = true → ∃ v, y = leaf v := fun hE' _ => by
      obtain ⟨v, hv⟩ := hreads.eq_leaf hE'
      exact ⟨v, eq_leaf_of_erase hv⟩
    exact ⟨m', y, 0, cs, hs, ⟨hkeep, ⟨_, hV', rfl, rfl⟩, hy, V, _, hat', hV', Or.inl rfl, rfl, rfl,
      Or.inl ⟨rfl, rfl, hexpr, rfl, hp.keeps hkeep hpV, hpV, hleaf⟩⟩, hcalls, ⟨rfl, hreads⟩, hsince⟩
  | cons q ps =>
    have hqk := hk.1 q List.mem_cons_self
    have hat' : At m V .opening S (.pre q :: (ps.map .pre ++ x.text ++ rest)) := by
      simpa [Expr.text] using hat
    -- Its node is the root, on the first rule.
    obtain ⟨m₁, X, C, n₁, hs₁, hCf, hpre, hw₁⟩ := steps_pre_first evaluate hat' hV hqk
    let j := m.world.heap.last + 1
    obtain ⟨rX, hX, hXn, hXj, -, -, hXC⟩ := hpre.expr
    have hd : DueAt 0 j (pre (j, q) hole : Tree (ℕ × Op) (Val α)) :=
      ⟨(j, q), none, rfl, by simp [FrontComplete], hqk, rfl⟩
    have hids : ∀ i ∈ ids (pre (j, q) hole : Tree (ℕ × Op) (Val α)),
        i ∈ ids (hole : Tree (ℕ × Op) (Val α)) ∨ i = j := by simp [ids]
    have hsince : Since owns m.world m₁.world (pre (j, q) hole : Tree (ℕ × Op) (Val α)) := by
      rw [hw₁]
      exact (since_refl hm (t := hole) rfl).alloc _ hids
    have ht₁ : Stands (Scalar evaluate) owns m₁.world (pre (j, q) hole : Tree (ℕ × Op) (Val α)) := by
      rw [hw₁]
      exact stands_hole.alloc hm held_newNode_pre hids trivial
    obtain ⟨m₂, z, y, cs₁, cs₂, hs₂, hat₂, hk₂, hC₂, hcalls₂, hreads, hz, hrep, hs₀₂, hheld₂⟩ :=
      run_due (t := pre (j, q) hole) hE hx hk.2 (fun r hr => hk.1 r (List.mem_cons_of_mem _ hr))
        hpre.at_opening hpre.operand
        hpre.counters.1 (hpre.counters.2.2.symm ▸ hf) hX hXn hXj hXC hpre.ne.2.2.symm hsince
        (hsafe.steps hs₁) ht₁ ⟨trivial, ⟨Or.inl hqk, trivial⟩⟩ hd
    have hz' : erase (pre (j, q) z) = prefixes (q :: ps) y := congrArg (pre q) hz
    have hform : Formed (erase (pre (j, q) z)) 0 := by
      rw [hz']
      exact (hreads.formed hk.2).prefixes hk.1
    obtain ⟨m₃, u, v, n', cs₃, hs₃, hat₃, hV₃, hn', hp', hv, hk₃, hcloses, hgrows₃, hcalls₃, hstands₃, hids₃⟩ :=
      hpre.closes hE rfl rfl hCf hat₂ hk₂ hC₂ hf (u := pre (j, q) z) rfl hs₀₂.marked hheld₂ hform rfl
    have hleaf : evaluate ≠ none → endsAt rest = true → ∃ v, u = leaf v := fun hE' hends => by
      rw [Closes, if_pos hends] at hcloses
      obtain ⟨v, hv⟩ := hcloses.eq_leaf hE'
      exact ⟨v, eq_leaf_of_erase hv⟩
    refine ⟨m₃, u, 0, cs₁ ++ cs₂ ++ cs₃, (hs₁.trans hs₂).trans hs₃, ⟨hk₃, ⟨_, hV₃, rfl, hv rfl⟩, hstands₃, V,
      _, hat₃, hV₃, Or.inl rfl, hv rfl, hp', Or.inl ⟨rfl, rfl, hn'.trans hexpr, rfl, hp.keeps hk₃ hpV, hpV,
        hleaf⟩⟩, ?_, ?_, ?_⟩
    · rw [hcalls₃, hcalls₂, hw₁, List.append_assoc]
    · refine ⟨rfl, cs₁, y, cs₂, cs₃, hreads, ?_, hz' ▸ hcloses, rfl⟩
      rw [← hz']
      exact hrep
    · exact (hs₀₂.grows hgrows₃).subset hids₃

end Unit

end TabnasExpr.Rules
