import TabnasExpr.EvaluatorCalls
import TabnasExpr.Rules.Free
import TabnasExpr.Rules.Outside

/-!
# Which expressions are evaluated as they are built

The after-close action is to evaluate the finished tree of an expression.  A prefix operator at the
start of an expression, or of the content of a paren, closes before a suffix operator that follows it,
and with the last close alternate: it is evaluated there, and the suffix operator wraps its value.
Without an evaluator the suffix operator goes inside a prefix operator it binds at least as tightly as,
and an operator that binds more tightly than parens goes inside a closed paren.  The tree that is
evaluated is the one that is built exactly when no operator does either (`evaluatesTree_iff_faithful`).
-/

namespace TabnasExpr.Rules

open OpTree OpTree.Tree Ts Machine

universe u

variable {α : Type u}

/-! ## Expressions that are evaluated as they are built -/

mutual

/-- The operand is evaluated as it is built. -/
def Operand.Faithful : Operand α → Prop
  | .atom _ => True
  | .paren _ e => e.Faithful

/-- The expression is evaluated as it is built: at its start and at the start of every paren in it, no
suffix operator right after a first operand under prefix operators binds at least as tightly as the
outermost of these. -/
def Expr.Faithful : Expr α → Prop
  | .lead _ x => x.Faithful
  | .more e _ _ x => e.Faithful ∧ x.Faithful
  | .suffixed e s => e.Faithful ∧ ∀ p ∈ e.front?, s.left < p.right

end

section Faithful

variable {e : Expr α} {s p : Op}

/-- Without an evaluator the suffix operator goes inside the prefix operators, unless it binds less
tightly than the outermost one. -/
theorem suffixAt_front (h : e.front? = some p) (hs : s.left < p.right) (early : Bool) :
    onEdge (suffixAt s) (e.depth early) (e.tree early) = suf s (e.tree early) := by
  obtain ⟨ps, x, rfl⟩ := eq_lead_of_front h
  simp [onEdge, suffixAt, prefixes, not_le.2 hs]

mutual

theorem Operand.Faithful.tree_eq : {x : Operand α} → x.Faithful → x.tree true = x.tree false
  | .atom _, _ => by simp [Operand.tree]
  | .paren _ _, h => by rw [tree_paren, tree_paren, (Expr.Faithful.tree_eq h).1]

theorem Expr.Faithful.tree_eq : {e : Expr α} → e.Faithful →
    e.tree true = e.tree false ∧ e.depth true = e.depth false
  | .lead _ _, h => by
    rw [tree_lead, tree_lead, depth_lead, depth_lead, Operand.Faithful.tree_eq h]
    exact ⟨rfl, rfl⟩
  | .more _ _ _ _, ⟨he, hx⟩ => by
    obtain ⟨htree, -⟩ := he.tree_eq
    rw [tree_more, tree_more, depth_more, depth_more, htree, hx.tree_eq]
    exact ⟨rfl, rfl⟩
  | .suffixed e s, ⟨he, hfront⟩ => by
    obtain ⟨htree, hdepth⟩ := he.tree_eq
    refine ⟨?_, by rw [depth_suffixed, depth_suffixed, hdepth]⟩
    rw [tree_suffixed (fun h => absurd h Bool.false_ne_true : false = true → _)]
    cases hp : e.front? with
    | none => rw [tree_suffixed fun _ => hp, htree, hdepth]
    | some p => rw [tree_suffixed_front hp, suffixAt_front hp (hfront p hp), htree]

end

end Faithful

/-! ## Trees that no evaluator is installed for -/

section Fits

variable {β : Type*} {t y : Tree Op β} {s o : Op} {ps : List Op}

/-- A suffix operator above a prefix operator binds less tightly. -/
def Above (s : Op) : Tree Op β → Prop
  | pre p _ => s.left < p.right
  | _ => True

/-- The suffix operators over the first operand do not belong inside the prefix operators of it. -/
def HeadFits : Tree Op β → Prop
  | inf _ l _ => HeadFits l
  | suf s x => Above s x ∧ HeadFits x
  | _ => True

/-- The head of the content fits in every paren. -/
def GroupsFit : Tree Op β → Prop
  | hole => True
  | leaf _ => True
  | pre _ x => GroupsFit x
  | suf _ x => GroupsFit x
  | inf _ l r => GroupsFit l ∧ GroupsFit r
  | grp _ x => HeadFits x ∧ GroupsFit x

theorem headFits_prefixes (hy : Atomic y) : HeadFits (prefixes ps y) := by
  cases ps with
  | nil =>
    cases y with
    | leaf | grp => trivial
    | hole | pre | suf | inf => exact hy.elim
  | cons p ps => trivial

theorem headFits_more : HeadFits (fill y (attach o t)) ↔ HeadFits t := by
  cases t with
  | pre | inf =>
    unfold attach
    split_ifs <;> simp [fill, HeadFits]
  | hole | leaf | suf | grp => simp [attach, fill, HeadFits]

theorem headFits_onEdge {d : ℕ} : HeadFits (onEdge (suffixAt s) d t) ↔ HeadFits t := by
  cases d with
  | zero =>
    cases t with
    | pre p x =>
      simp only [onEdge, suffixAt]
      split_ifs with h
      · rfl
      · simp [HeadFits, Above, not_le.1 h]
    | inf p l r =>
      simp only [onEdge, suffixAt]
      split_ifs <;> simp [HeadFits, Above]
    | hole | leaf | suf | grp => simp [onEdge, suffixAt, HeadFits, Above]
  | succ d => cases t <;> simp [onEdge, HeadFits]

theorem groupsFit_prefixes : GroupsFit (prefixes ps y) ↔ GroupsFit y := by
  induction ps with
  | nil => rfl
  | cons p ps ih => exact ih

theorem groupsFit_more : GroupsFit (fill y (attach o t)) ↔ GroupsFit t ∧ GroupsFit y := by
  induction t with
  | pre p x ih =>
    unfold attach
    split_ifs
    · exact ih
    · simp [fill, GroupsFit]
  | inf p l r _ ih =>
    unfold attach
    split_ifs
    · simp only [fill, GroupsFit, ih, and_assoc]
    · simp [fill, GroupsFit]
  | hole | leaf | suf | grp => simp [attach, fill, GroupsFit]

theorem groupsFit_drill : GroupsFit (drill s t) ↔ GroupsFit t := by
  induction t with
  | pre p x ih =>
    unfold drill
    split_ifs
    · exact ih
    · rfl
  | hole | leaf | suf | inf | grp => rfl

theorem groupsFit_suffixAt : GroupsFit (suffixAt s t) ↔ GroupsFit t := by
  cases t with
  | pre p x =>
    simp only [suffixAt]
    split_ifs
    · exact groupsFit_drill
    · rfl
  | inf p l r =>
    simp only [suffixAt]
    split_ifs
    · exact and_congr_right fun _ => groupsFit_drill
    · rfl
  | hole | leaf | suf | grp => rfl

theorem groupsFit_onEdge {d : ℕ} : GroupsFit (onEdge (suffixAt s) d t) ↔ GroupsFit t := by
  induction d generalizing t with
  | zero => exact groupsFit_suffixAt
  | succ d ih =>
    cases t with
    | pre o x => exact ih
    | inf o l r => exact and_congr_right fun _ => ih
    | hole | leaf | suf | grp => rfl

theorem above_tree {e : Expr α} {p : Op} (h : e.front? = some p) (early : Bool) :
    Above s (e.tree early) ↔ s.left < p.right := by
  obtain ⟨ps, x, rfl⟩ := eq_lead_of_front h
  rw [tree_lead]
  rfl

mutual

theorem Operand.groupsFit_iff (early : Bool) : (x : Operand α) →
    (GroupsFit (x.tree early) ↔ (early = true → x.Faithful))
  | .atom _ => by simp [Operand.tree, GroupsFit, Operand.Faithful]
  | .paren _ e => by
    rw [tree_paren]
    exact e.fits_iff early

/-- A tree that is evaluated early does not fit where a suffix operator wraps the value of prefix
operators that it belongs into.  The tree that is built fits. -/
theorem Expr.fits_iff (early : Bool) : (e : Expr α) →
    (HeadFits (e.tree early) ∧ GroupsFit (e.tree early) ↔ (early = true → e.Faithful))
  | .lead _ x => by
    rw [tree_lead, groupsFit_prefixes, x.groupsFit_iff early]
    exact and_iff_right (headFits_prefixes atomic_tree)
  | .more e _ _ x => by
    rw [tree_more, headFits_more, groupsFit_more, groupsFit_prefixes, ← and_assoc, e.fits_iff early,
      x.groupsFit_iff early, Expr.Faithful, imp_and]
  | .suffixed e s => by
    by_cases h : early = true → e.front? = none
    · rw [tree_suffixed h, headFits_onEdge, groupsFit_onEdge, e.fits_iff early]
      refine forall_congr' fun hearly => ?_
      simp [Expr.Faithful, h hearly]
    · -- The prefix operators were evaluated, whatever the suffix operator is.
      obtain ⟨rfl, hfront⟩ := Classical.not_imp.1 h
      obtain ⟨p, hp⟩ := Option.ne_none_iff_exists'.1 hfront
      rw [tree_suffixed_front hp, HeadFits, GroupsFit, above_tree hp, and_assoc, e.fits_iff true]
      simp [Expr.Faithful, hp, and_comm]

end

/-- What is evaluated is the tree that is built without an evaluator, exactly for these. -/
theorem Expr.tree_eq_iff (e : Expr α) : e.tree true = e.tree false ↔ e.Faithful := by
  refine ⟨fun h => ?_, fun h => h.tree_eq.1⟩
  have hbuilt := (e.fits_iff false).2 fun h => absurd h Bool.false_ne_true
  rw [← h] at hbuilt
  exact (e.fits_iff true).1 hbuilt rfl

end Fits

/-! ## The value of a run -/

section Value

variable {e : Expr α}

/-- The value that is left with a pure evaluator. -/
theorem Expr.run_value (f : Op → List (Val α) → α) (hk : e.Kinded) :
    ∃ fuel m, run (some (ofFun f)) fuel (start () e.text) = some m ∧
      m.node 1 = evalTree f (e.tree true) := by
  obtain ⟨fuel, m, t, T, cs, cs', hrun, hnode, -, -, ⟨d, hreads⟩, hleft⟩ :=
    Expr.run_scalar (some (ofFun f)) (by simpa [Scalar] using scalarValued_ofFun f) hk ()
  obtain ⟨hT, -⟩ := hreads.eq_held hk
  have ht : erase t = leaf (evalTree f (e.tree true)) := by
    rw [hleft.eq_valueOf, hT, valueOf, evalTree_bind, Expr.tree]
  rw [eq_leaf_of_erase ht] at hnode
  exact ⟨fuel, m, hrun, hnode⟩

/-- A run with a pure evaluator leaves the value of the tree that is built without it. -/
def EvaluatesTree (f : Op → List (Val α) → α) (tokens : List (Sym Op α)) : Prop :=
  ∃ fuel m T, run (some (ofFun f)) fuel (start () tokens) = some m ∧ Builds tokens T ∧
    m.node 1 = evalTree f T

theorem Expr.evaluatesTree_iff (f : Op → List (Val α) → α) (hk : e.Kinded) :
    EvaluatesTree f e.text ↔ evalTree f (e.tree true) = evalTree f (group e.flat.1) := by
  have hbuilds := Expr.builds hk
  obtain ⟨fuel, m, hrun, hvalue⟩ := e.run_value f hk
  constructor
  · rintro ⟨fuel', m', T, hrun', hbuilds', hvalue'⟩
    obtain rfl := run_unique hrun hrun'
    rw [← hvalue, hvalue', hbuilds.unique hbuilds']
  · intro h
    exact ⟨fuel, m, _, hrun, hbuilds, hvalue.trans h⟩

/-- What is evaluated is the tree that is built without an evaluator, exactly for these. -/
theorem Expr.tree_eq_group_iff (hk : e.Kinded) :
    e.tree true = group e.flat.1 ↔ e.Faithful ∧ e.Outside := by
  constructor
  · intro h
    have hout := Expr.outside_of_tree_eq hk h
    exact ⟨e.tree_eq_iff.1 (h.trans (hout.group_flat hk).1), hout⟩
  · rintro ⟨hfaithful, hout⟩
    exact (e.tree_eq_iff.2 hfaithful).trans (hout.group_flat hk).1.symm

/-- For every sequence of tokens, a run leaves the value of the tree that is built without an
evaluator, whatever the evaluator, exactly when no suffix operator right after a first operand under
prefix operators binds at least as tightly as the outermost of these, and no operator goes into a closed
paren. -/
theorem evaluatesTree_iff_faithful [Infinite α] (hk : e.Kinded) :
    (∀ f : Op → List (Val α) → α, EvaluatesTree f e.text) ↔ e.Faithful ∧ e.Outside := by
  rw [← Expr.tree_eq_group_iff hk]
  constructor
  · intro h
    by_contra hne
    have htree := e.formed_tree true hk
    have hflat := e.formed_flat hk
    obtain ⟨f, hf⟩ := exists_evalTree_ne htree.complete (complete_group hflat.complete)
      (e.kinded_tree true hk) (kinded_group hflat.slotted) (e.leaves_tree true) (leaves_group e.leaves_flat) hne
    exact hf ((Expr.evaluatesTree_iff f hk).1 (h f))
  · intro h f
    rw [Expr.evaluatesTree_iff f hk, h]

end Value

/-! ## Factorials -/

def minus : Op := ⟨"negative-prefix", "-", .prefixOp, minSafeInteger, 200⟩

def factorial : Op := ⟨"factorial-suffix", "!", .suffixOp, 300, maxSafeInteger⟩

/-- The value of a prefix operator is the negative, that of a suffix operator the factorial, which is 1
below 1, and that of an infix operator the sum. -/
def arithmetic (op : Op) (terms : List (Val ℤ)) : ℤ :=
  match op.kind, terms with
  | .prefixOp, [.atom n] => -n
  | .suffixOp, [.atom n] => n.toNat.factorial
  | .infixOp, [.atom m, .atom n] => m + n
  | _, [.atom n] => n
  | _, _ => 0

/-- `(1+-2)!`: the operand of the suffix operator is a paren. -/
theorem evaluatesTree_factorial : EvaluatesTree arithmetic (Expr.text
    (.suffixed (.lead [] (.paren plain (.more (.lead [] (.atom 1)) addition [minus] (.atom 2))))
      factorial)) := by
  refine (evaluatesTree_iff_faithful ?_).2 ⟨?_, ?_⟩ arithmetic
  · simp [Expr.Kinded, Operand.Kinded, plain, parenDef, minus, addition, infixDef, factorial]
  · simp [Expr.Faithful, Operand.Faithful, Expr.front?]
  · simp [Expr.Outside, Operand.Outside, Enters, EntersRoot, edgeAt, prefixes, Operand.tree, plain,
      parenDef, factorial, maxSafeInteger]

/-- `-1!`. -/
def negativeFactorial : Expr ℤ := .suffixed (.lead [minus] (.atom 1)) factorial

/-- The factorial is taken of -1, and the tree is the negative of a factorial. -/
theorem negativeFactorial_evaluated_early :
    (run (some (ofFun arithmetic)) 20 (start () negativeFactorial.text)).map (·.node 1) =
        some (.atom 1) ∧
      Builds negativeFactorial.text (pre minus (suf factorial (leaf (.atom 1)))) ∧
      ¬ EvaluatesTree arithmetic negativeFactorial.text := by
  have hk : negativeFactorial.Kinded := by
    simp [negativeFactorial, Expr.Kinded, Operand.Kinded, minus, factorial]
  refine ⟨by decide +kernel, Expr.builds hk, fun h => ?_⟩
  have hvalue := (Expr.evaluatesTree_iff arithmetic hk).1 h
  exact absurd hvalue (by decide +kernel)

end TabnasExpr.Rules