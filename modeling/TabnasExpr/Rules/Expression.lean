import TabnasExpr.Located
import TabnasExpr.Rules.Callback

/-!
# Expressions with parens, and what reading them leaves

An expression is a first operand under prefix operators, followed by infix operators with their
operands and by suffix operators; an operand is a value or an expression in parens.  `Expr.Reads` says
which tree its tokens leave on the nodes of the parse and which calls of the evaluator were made on
the way, with or without an evaluator.  In that tree a closed paren stands as a prefix operator: the node
of either has one operand, and an operator that binds tightly enough goes into it.
-/

namespace TabnasExpr.Rules

open OpTree OpTree.Tree

universe u v

variable {σ : Type v} {α : Type u}

mutual

/-- An operand. -/
inductive Operand (α : Type u) where
  | atom (a : α)
  | paren (p : Op) (e : Expr α)

/-- A sequence of operator tokens and operands. -/
inductive Expr (α : Type u) where
  /-- Prefix operators and the first operand. -/
  | lead (ps : List Op) (x : Operand α)
  /-- An infix operator, prefix operators, and their operand. -/
  | more (e : Expr α) (o : Op) (ps : List Op) (x : Operand α)
  /-- A suffix operator. -/
  | suffixed (e : Expr α) (s : Op)

end

mutual

/-- The tokens of an operand. -/
def Operand.text : Operand α → List (Sym Op α)
  | .atom a => [.leaf a]
  | .paren p e => .opn p :: (e.text ++ [.cls p])

/-- The tokens of an expression. -/
def Expr.text : Expr α → List (Sym Op α)
  | .lead ps x => ps.map .pre ++ x.text
  | .more e o ps x => e.text ++ .inf o :: (ps.map .pre ++ x.text)
  | .suffixed e s => e.text ++ [.suf s]

end

mutual

/-- Every operator of the operand is of the kind it is used as. -/
def Operand.Kinded : Operand α → Prop
  | .atom _ => True
  | .paren p e => p.kind = .parenOp ∧ p.right = maxSafeInteger ∧ e.Kinded

/-- Every operator of the expression is of the kind it is used as. -/
def Expr.Kinded : Expr α → Prop
  | .lead ps x => (∀ p ∈ ps, p.kind = .prefixOp) ∧ x.Kinded
  | .more e o ps x => e.Kinded ∧ o.kind = .infixOp ∧ (∀ p ∈ ps, p.kind = .prefixOp) ∧ x.Kinded
  | .suffixed e s => e.Kinded ∧ s.kind = .suffixOp

end

/-! ## What after-close leaves of a tree -/

/-- A value the callback may return. -/
def Returns (evaluate : Evaluator σ α) (op : Op) (terms : List (Val α)) (v : Val α) : Prop :=
  ∃ heap env heap' env', evaluate op terms heap env = (heap', env', v)

/-- A bottom-up evaluation of a tree: its value, and its calls in order. -/
def Folds (evaluate : Evaluator σ α) : Tree Op (Val α) → Val α → List (Call α) → Prop
  | hole, _, _ => False
  | leaf u, v, cs => v = u ∧ cs = []
  | pre o x, v, cs | suf o x, v, cs | grp o x, v, cs =>
    ∃ u cs', Folds evaluate x u cs' ∧ Returns evaluate o [u] v ∧ cs = cs' ++ [⟨o, [u]⟩]
  | inf o l r, v, cs =>
    ∃ u cs₁ u' cs₂, Folds evaluate l u cs₁ ∧ Folds evaluate r u' cs₂ ∧
      Returns evaluate o [u, u'] v ∧ cs = cs₁ ++ cs₂ ++ [⟨o, [u, u']⟩]

/-- What the after-close action leaves of a tree: its value, or the tree itself when there is no
evaluator. -/
def Left (evaluate : Option (Evaluator σ α)) (T : Tree Op (Val α)) (cs : List (Call α))
    (T' : Tree Op (Val α)) : Prop :=
  match evaluate with
  | none => cs = [] ∧ T' = T
  | some E => ∃ v, Folds E T v cs ∧ T' = leaf v

/-- What the close of a prefix operator leaves of a tree: the expression `ends` there when the next
token is a suffix operator or the end of the source. -/
def Closes (evaluate : Option (Evaluator σ α)) (ends : Bool) (T : Tree Op (Val α))
    (cs : List (Call α)) (T' : Tree Op (Val α)) : Prop :=
  if ends then Left evaluate T cs T' else cs = [] ∧ T' = T

/-- The calls made when prefix operators close, the innermost one first.  Each evaluates the node
above it, the first one the node `d` steps down the right edge, and the values are dropped. -/
def Repeats (evaluate : Option (Evaluator σ α)) (ends : Bool) :
    List Op → ℕ → Tree Op (Val α) → List (Call α) → Prop
  | [], _, _, cs => cs = []
  | _ :: ps, d, T, cs => ∃ cs₁ cs₂ T', Repeats evaluate ends ps (d + 1) T cs₁ ∧
      Closes evaluate ends (edgeAt d T) cs₂ T' ∧ cs = cs₁ ++ cs₂

mutual

/-- What stands for an operand once it is read, and the calls made until then. -/
def Operand.Reads (evaluate : Option (Evaluator σ α)) :
    Operand α → List (Call α) → Tree Op (Val α) → Prop
  | .atom a, cs, y => cs = [] ∧ y = leaf (.atom a)
  | .paren p e, cs, y => ∃ cs₁ T d cs₂, e.Reads evaluate false cs₁ T d ∧
      Left evaluate (pre p T) cs₂ y ∧ cs = cs₁ ++ cs₂

/-- The tree of an expression once it is read, the depth of the attachment node, and the calls made
until then; `ends` is about the token after it. -/
def Expr.Reads (evaluate : Option (Evaluator σ α)) :
    Expr α → Bool → List (Call α) → Tree Op (Val α) → ℕ → Prop
  | .lead [] x, _, cs, T, d => d = 0 ∧ x.Reads evaluate cs T
  | .lead (p :: ps) x, ends, cs, T, d => d = 0 ∧ ∃ cs₁ y cs₂ cs₃, x.Reads evaluate cs₁ y ∧
      Repeats evaluate ends ps 0 (prefixes (p :: ps) y) cs₂ ∧
      Closes evaluate ends (prefixes (p :: ps) y) cs₃ T ∧ cs = cs₁ ++ cs₂ ++ cs₃
  | .more e o ps x, ends, cs, T, d => ∃ cs₁ T₁ d₁ cs₂ y cs₃, e.Reads evaluate false cs₁ T₁ d₁ ∧
      x.Reads evaluate cs₂ y ∧ T = fill (prefixes ps y) (attach o T₁) ∧ d = attachDepth o T₁ ∧
      Repeats evaluate ends ps d T cs₃ ∧ cs = cs₁ ++ cs₂ ++ cs₃
  | .suffixed e s, _, cs, T, d => ∃ T₁, e.Reads evaluate true cs T₁ d ∧
      T = onEdge (suffixFlat s) d T₁

end

/-! ## The trees that are left -/

/-- A tree that an expression leaves, with the depth of its attachment node. -/
structure Formed (T : Tree Op (Val α)) (d : ℕ) : Prop where
  complete : Complete T
  slotted : Slotted T
  onEdge : OnEdge d T

/-- A tree whose last operand is due. -/
structure Pending (T : Tree Op (Val α)) : Prop where
  isOpen : Open T
  slotted : Slotted T

section Formed

variable {evaluate : Option (Evaluator σ α)} {T T' y : Tree Op (Val α)} {cs : List (Call α)} {d : ℕ}
  {o p : Op} {ps : List Op} {ends : Bool}

theorem formed_leaf (v : Val α) : Formed (leaf v) 0 := ⟨trivial, trivial, trivial⟩

theorem Left.formed (h : Left evaluate T cs T') (hT : Formed T d) : Formed T' 0 := by
  cases evaluate with
  | none =>
    obtain ⟨-, rfl⟩ := h
    exact ⟨hT.complete, hT.slotted, trivial⟩
  | some E =>
    obtain ⟨v, -, rfl⟩ := h
    exact formed_leaf v

/-- With an evaluator a value is left. -/
theorem Left.eq_leaf (h : Left evaluate T cs T') (hE : evaluate ≠ none) : ∃ v, T' = leaf v := by
  cases evaluate with
  | none => exact absurd rfl hE
  | some E =>
    obtain ⟨v, -, hT'⟩ := h
    exact ⟨v, hT'⟩

theorem Closes.formed (h : Closes evaluate ends T cs T') (hT : Formed T 0) : Formed T' 0 := by
  cases ends with
  | true => exact Left.formed h hT
  | false =>
    obtain ⟨-, rfl⟩ := h
    exact hT

theorem slotted_prefixes (hps : ∀ p ∈ ps, p.kind = .prefixOp) (hy : Slotted y) :
    Slotted (prefixes ps y) :=
  kinded_prefixes (fun p hp => Or.inl (hps p hp)) hy

theorem Formed.prefixes (h : Formed y 0) (hps : ∀ p ∈ ps, p.kind = .prefixOp) :
    Formed (prefixes ps y) 0 :=
  ⟨(complete_prefixes ps y).2 h.complete, slotted_prefixes hps h.slotted, trivial⟩

/-- A closed paren. -/
theorem Formed.closed (h : Formed T d) (hp : p.kind = .parenOp) (hr : p.right = maxSafeInteger) :
    Formed (pre p T) 0 :=
  ⟨h.complete, ⟨Or.inr ⟨hp, hr⟩, h.slotted⟩, trivial⟩

theorem Formed.attach (h : Formed T d) (ho : o.kind = .infixOp) : Pending (Tree.attach o T) :=
  ⟨open_attach o h.complete, kinded_attach ho h.slotted⟩

theorem Pending.prefixed (h : Pending T) (ho : o.kind = .prefixOp) :
    Pending (fill (pre o hole) T) :=
  ⟨open_fill h.isOpen trivial, kinded_fill h.slotted ⟨Or.inl ho, trivial⟩⟩

theorem Pending.fill (h : Pending T) (hy : Formed y 0) : Formed (Tree.fill y T) 0 :=
  ⟨complete_fill h.isOpen hy.complete, kinded_fill h.slotted hy.slotted, trivial⟩

theorem Formed.edgeAt {e : ℕ} (h : Formed T e) (hd : OnEdge d T) : Formed (Tree.edgeAt d T) 0 :=
  ⟨complete_edgeAt hd h.complete, kinded_edgeAt h.slotted, trivial⟩

theorem Formed.more (h : Formed T d) (hy : Formed y 0) (ho : o.kind = .infixOp) :
    Formed (Tree.fill y (Tree.attach o T)) (attachDepth o T) :=
  { (h.attach ho).fill hy with onEdge := (onEdge_attach o T).fill _ }

theorem Formed.suffixed (h : Formed T d) (ho : o.kind = .suffixOp) :
    Formed (Tree.onEdge (suffixFlat o) d T) d :=
  ⟨complete_onEdge h.onEdge h.complete (complete_suffixFlat (complete_edgeAt h.onEdge h.complete)),
    kinded_onEdge h.slotted (slotted_suffixFlat ho (kinded_edgeAt h.slotted)), h.onEdge.onEdge⟩

end Formed

/-- With an evaluator an operand is a value once it is read. -/
theorem Operand.Reads.eq_leaf {evaluate : Option (Evaluator σ α)} {x : Operand α}
    {cs : List (Call α)} {y : Tree Op (Val α)} (h : x.Reads evaluate cs y) (hE : evaluate ≠ none) :
    ∃ v, y = leaf v := by
  cases x with
  | atom a => exact ⟨.atom a, h.2⟩
  | paren p e =>
    obtain ⟨_, _, _, _, -, hleft, -⟩ := h
    exact hleft.eq_leaf hE

mutual

theorem Operand.Reads.formed {evaluate : Option (Evaluator σ α)} : {x : Operand α} →
    {cs : List (Call α)} → {y : Tree Op (Val α)} → x.Reads evaluate cs y → x.Kinded → Formed y 0
  | .atom a, _, _, ⟨_, hy⟩, _ => hy ▸ formed_leaf (.atom a)
  | .paren _ _, _, _, ⟨_, _, _, _, he, hleft, _⟩, hk =>
    hleft.formed ((he.formed hk.2.2).closed hk.1 hk.2.1)

theorem Expr.Reads.formed {evaluate : Option (Evaluator σ α)} : {e : Expr α} → {ends : Bool} →
    {cs : List (Call α)} → {T : Tree Op (Val α)} → {d : ℕ} → e.Reads evaluate ends cs T d →
    e.Kinded → Formed T d
  | .lead [] _, _, _, _, _, ⟨hd, hx⟩, hk => hd ▸ hx.formed hk.2
  | .lead (_ :: _) _, _, _, _, _, ⟨hd, _, _, _, _, hx, _, hcl, _⟩, hk =>
    hd ▸ hcl.formed ((hx.formed hk.2).prefixes hk.1)
  | .more _ _ _ _, _, _, _, _, ⟨_, _, _, _, _, _, he, hx, hT, hd, _⟩, hk => by
    subst hT hd
    exact (he.formed hk.1).more ((hx.formed hk.2.2.2).prefixes hk.2.2.1) hk.2.1
  | .suffixed _ _, _, _, _, _, ⟨_, he, hT⟩, hk => by
    subst hT
    exact (he.formed hk.1).suffixed hk.2

end

theorem Left.noParen {evaluate : Option (Evaluator σ α)} {T T' : Tree Op (Val α)} {cs : List (Call α)}
    (h : Left evaluate T cs T') (hT : NoParen T) : NoParen T' := by
  cases evaluate with
  | none => exact h.2 ▸ hT
  | some E =>
    obtain ⟨v, -, rfl⟩ := h
    trivial

mutual

theorem Operand.Reads.noParen {evaluate : Option (Evaluator σ α)} : {x : Operand α} →
    {cs : List (Call α)} → {y : Tree Op (Val α)} → x.Reads evaluate cs y → NoParen y
  | .atom _, _, _, ⟨_, hy⟩ => hy ▸ trivial
  | .paren _ _, _, _, ⟨_, _, _, _, he, hleft, _⟩ => hleft.noParen he.noParen

/-- A closed paren stands as a prefix operator. -/
theorem Expr.Reads.noParen {evaluate : Option (Evaluator σ α)} : {e : Expr α} → {ends : Bool} →
    {cs : List (Call α)} → {T : Tree Op (Val α)} → {d : ℕ} → e.Reads evaluate ends cs T d → NoParen T
  | .lead [] _, _, _, _, _, ⟨_, hx⟩ => hx.noParen
  | .lead (p :: ps) _, true, _, _, _, ⟨_, _, _, _, _, hx, _, hleft, _⟩ =>
    Left.noParen hleft (noParen_prefixes (p :: ps) hx.noParen)
  | .lead (p :: ps) _, false, _, _, _, ⟨_, _, _, _, _, hx, _, ⟨_, hT⟩, _⟩ =>
    hT ▸ noParen_prefixes (p :: ps) hx.noParen
  | .more _ _ ps _, _, _, _, _, ⟨_, _, _, _, _, _, he, hx, hT, _, _⟩ =>
    hT ▸ noParen_fill (noParen_attach he.noParen) (noParen_prefixes ps hx.noParen)
  | .suffixed _ _, _, _, _, _, ⟨_, he, hT⟩ =>
    hT ▸ noParen_onEdge he.noParen (noParen_suffixFlat (noParen_edgeAt he.noParen))

end

theorem Operand.Reads.kinded {E : Evaluator σ α} {x : Operand α} {cs : List (Call α)}
    {y : Tree Op (Val α)} (h : x.Reads (some E) cs y) : TabnasExpr.Kinded y := by
  obtain ⟨v, rfl⟩ := h.eq_leaf (Option.some_ne_none E)
  trivial

/-- With an evaluator no closed paren is left. -/
theorem Expr.Reads.kinded {E : Evaluator σ α} : {e : Expr α} → {ends : Bool} → {cs : List (Call α)} →
    {T : Tree Op (Val α)} → {d : ℕ} → e.Reads (some E) ends cs T d → e.Kinded → TabnasExpr.Kinded T
  | .lead [] _, _, _, _, _, ⟨_, hx⟩, _ => hx.kinded
  | .lead (_ :: _) _, true, _, _, _, ⟨_, _, _, _, _, _, _, ⟨_, _, hT⟩, _⟩, _ => by
    rw [hT]
    trivial
  | .lead (p :: ps) _, false, _, _, _, ⟨_, _, _, _, _, hx, _, ⟨_, hT⟩, _⟩, hk =>
    hT ▸ kinded_prefixes hk.1 hx.kinded
  | .more _ _ _ _, _, _, _, _, ⟨_, _, _, _, _, _, he, hx, hT, _, _⟩, hk =>
    hT ▸ kinded_fill (kinded_attach hk.2.1 (he.kinded hk.1)) (kinded_prefixes hk.2.2.1 hx.kinded)
  | .suffixed _ _, _, _, _, _, ⟨_, he, hT⟩, hk => by
    have hT₁ := he.kinded hk.1
    rw [hT]
    exact kinded_onEdge hT₁ ((suffixFlat_eq (kinded_edgeAt hT₁)).symm ▸
      kinded_suffixAt hk.2 (kinded_edgeAt hT₁))

end TabnasExpr.Rules
