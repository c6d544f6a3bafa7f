import TabnasExpr.Lib.Bind
import TabnasExpr.Rules.Outcome

/-!
# The tree a parse evaluates

With a pure evaluator a part of an expression may be evaluated before the rest of it is read.  What
the rules hold is then a tree in which an evaluated part is one operand.  `Expr.held` is that tree with
the parts in the place of their values, and `Expr.tree` the tree they make together; `Expr.Reads` leaves
the one with its operands evaluated (`Expr.Reads.eq_held`), whose value is that of the other.  `early`
is whether prefix operators are evaluated before the rest is read: the tree of an expression in which
they are not is the one its powers give it, with no paren looked into.
-/

namespace TabnasExpr.Rules

open OpTree OpTree.Tree

universe u

variable {α : Type u} {f : Op → List (Val α) → α}

/-! ## Pure evaluators -/

/-- The callback that returns a scalar, which depends on the operator and its operands only. -/
def ofFun (f : Op → List (Val α) → α) : Evaluator Unit α :=
  fun op terms heap env => (heap, env, .atom (f op terms))

theorem scalarValued_ofFun (f : Op → List (Val α) → α) : ScalarValued (ofFun f) :=
  fun op terms _ env => ⟨env, f op terms, rfl⟩

/-- The bottom-up evaluation of a tree. -/
def evalTree (f : Op → List (Val α) → α) : Tree Op (Val α) → Val α
  | hole => .undefined
  | leaf v => v
  | pre o x | suf o x | grp o x => .atom (f o [evalTree f x])
  | inf o l r => .atom (f o [evalTree f l, evalTree f r])

theorem Returns.eq {op : Op} {terms : List (Val α)} {v : Val α} (h : Returns (ofFun f) op terms v) :
    v = .atom (f op terms) := by
  obtain ⟨heap, env, heap', env', h⟩ := h
  simp only [ofFun, Prod.mk.injEq] at h
  exact h.2.2.symm

theorem Folds.evalTree_eq {T : Tree Op (Val α)} {v : Val α} {cs : List (Call α)}
    (h : Folds (ofFun f) T v cs) : evalTree f T = v := by
  induction T generalizing v cs with
  | hole => exact h.elim
  | leaf u => exact h.1.symm
  | pre o x ih | suf o x ih | grp o x ih =>
    obtain ⟨b, cs', hx, hret, -⟩ := h
    rw [hret.eq, evalTree, ih hx]
  | inf o l r ihl ihr =>
    obtain ⟨b, cs₁, c, cs₂, hl, hr, hret, -⟩ := h
    rw [hret.eq, evalTree, ihl hl, ihr hr]

/-- The operand that is left of an evaluated tree. -/
def valueOf (f : Op → List (Val α) → α) (T : Tree Op (Val α)) : Tree Op (Val α) := leaf (evalTree f T)

variable {T T' : Tree Op (Val α)} {cs : List (Call α)}

theorem Left.eq_valueOf (h : Left (some (ofFun f)) T cs T') : T' = valueOf f T := by
  obtain ⟨v, hfold, rfl⟩ := h
  exact congrArg leaf hfold.evalTree_eq.symm

/-- Parts of a tree may be evaluated first. -/
theorem evalTree_bind (t : Tree Op (Tree Op (Val α))) :
    evalTree f (bind (valueOf f) t) = evalTree f (bind id t) := by
  induction t with
  | hole | leaf => rfl
  | pre o x ih | suf o x ih | grp o x ih => simp [Tree.bind, evalTree, ih]
  | inf o l r ihl ihr => simp [Tree.bind, evalTree, ihl, ihr]

/-! ## The trees that are evaluated -/

mutual

/-- The tree an operand stands for. -/
def Operand.tree (early : Bool) : Operand α → Tree Op (Val α)
  | .atom a => leaf (.atom a)
  | .paren p e => grp p (bind id (e.held early false).1)

/-- The tree the rules hold for an expression, and the depth of the attachment node.  An operand of
it stands for a tree: with `early`, the prefix operators at the start of an expression that `ends`
there are in one. -/
def Expr.held (early : Bool) : Expr α → Bool → Tree Op (Tree Op (Val α)) × ℕ
  | .lead [] x, _ => (leaf (x.tree early), 0)
  | .lead (p :: ps) x, ends =>
    if early && ends then (leaf (prefixes (p :: ps) (x.tree early)), 0)
    else (prefixes (p :: ps) (leaf (x.tree early)), 0)
  | .more e o ps x, _ =>
    let (T, _) := e.held early false
    (fill (prefixes ps (leaf (x.tree early))) (attach o T), attachDepth o T)
  | .suffixed e s, _ =>
    let (T, d) := e.held early true
    (onEdge (suffixAt s) d T, d)

end

/-- The tree whose value is left in the end, when prefix operators are evaluated `early`, and the tree
that the powers give when they are not. -/
def Expr.tree (early : Bool) (e : Expr α) : Tree Op (Val α) := bind id (e.held early true).1

/-! ## Suffix operators and operands that stand for trees -/

section Suffix

variable {β γ : Type*} {g : β → Tree Op γ} {t : Tree Op β} {Q : β → Prop} {s : Op}

theorem edgeLeaf_drill : EdgeLeaf Q (drill s t) := by
  induction t with
  | pre p x ih =>
    unfold drill
    split_ifs
    · exact ih
    · trivial
  | hole | leaf | suf | inf | grp => trivial

theorem edgeLeaf_suffixAt : EdgeLeaf Q (suffixAt s t) := by
  cases t with
  | pre | inf =>
    simp only [suffixAt]
    split_ifs
    · exact edgeLeaf_drill
    · trivial
  | hole | leaf | suf | grp => trivial

theorem suffixAt_atomic {y : Tree Op γ} (hy : Atomic y) :
    suffixAt s y = suf s y ∧ drill s y = suf s y := by
  cases y with
  | leaf | grp => exact ⟨rfl, rfl⟩
  | hole | pre | suf | inf => exact hy.elim

theorem bind_drill (ht : EdgeLeaf (fun a => Atomic (g a)) t) :
    bind g (drill s t) = drill s (bind g t) := by
  induction t with
  | leaf a => exact (suffixAt_atomic ht).2.symm
  | pre p x ih =>
    by_cases h : p.right < s.left
    · simp [drill, Tree.bind, h, ih ht]
    · simp [drill, Tree.bind, h]
  | hole | suf | inf | grp => rfl

theorem bind_suffixAt (ht : EdgeLeaf (fun a => Atomic (g a)) t) :
    bind g (suffixAt s t) = suffixAt s (bind g t) := by
  cases t with
  | leaf a => exact (suffixAt_atomic ht).1.symm
  | pre p x =>
    by_cases h : p.right ≤ s.left
    · simp [suffixAt, Tree.bind, h, bind_drill (t := x) ht]
    · simp [suffixAt, Tree.bind, h]
  | inf p l r =>
    by_cases h : p.right ≤ s.left
    · simp [suffixAt, Tree.bind, h, bind_drill (t := r) ht]
    · simp [suffixAt, Tree.bind, h]
  | hole | suf | grp => rfl

theorem bind_onEdge_suffixAt {d : ℕ} (hd : OnEdge d t) (ht : EdgeLeaf (fun a => Atomic (g a)) t) :
    bind g (onEdge (suffixAt s) d t) = onEdge (suffixAt s) d (bind g t) :=
  bind_onEdge hd (bind_suffixAt (edgeLeaf_edgeAt ht))

end Suffix

/-! ## What is held -/

/-- The outermost prefix operator of an expression that is a first operand only. -/
def Expr.front? : Expr α → Option Op
  | .lead (p :: _) _ => some p
  | _ => none

section Held

variable {early ends : Bool} {e : Expr α} {x : Operand α} {o s p : Op} {ps : List Op}

theorem eq_lead_of_front (h : e.front? = some p) : ∃ ps x, e = .lead (p :: ps) x := by
  cases e with
  | lead ps x =>
    cases ps with
    | nil => cases h
    | cons q ps =>
      obtain rfl : q = p := Option.some.inj h
      exact ⟨ps, x, rfl⟩
  | more | suffixed => cases h

theorem held_more : (Expr.more e o ps x).held early ends =
    (fill (prefixes ps (leaf (x.tree early))) (attach o (e.held early false).1),
      attachDepth o (e.held early false).1) := by
  rw [Expr.held]

theorem held_suffixed : (Expr.suffixed e s).held early ends =
    (onEdge (suffixAt s) (e.held early true).2 (e.held early true).1, (e.held early true).2) := by
  rw [Expr.held]

theorem atomic_tree : Atomic (x.tree early) := by
  cases x with
  | atom | paren => simp [Operand.tree, Atomic]

theorem held_shape (early : Bool) : (e : Expr α) → (ends : Bool) →
    Complete (e.held early ends).1 ∧ OnEdge (e.held early ends).2 (e.held early ends).1
  | .lead [] _, _ => by simp [Expr.held, Complete, OnEdge]
  | .lead (_ :: _) _, _ => by
    rw [Expr.held]
    split_ifs
    · exact ⟨trivial, trivial⟩
    · exact ⟨(complete_prefixes _ _).2 trivial, trivial⟩
  | .more e o _ _, _ => by
    rw [held_more]
    obtain ⟨hc, -⟩ := held_shape early e false
    exact ⟨complete_fill (open_attach o hc) ((complete_prefixes _ _).2 trivial),
      (onEdge_attach o _).fill _⟩
  | .suffixed e _, _ => by
    rw [held_suffixed]
    obtain ⟨hc, hd⟩ := held_shape early e true
    exact ⟨complete_onEdge hd hc (complete_suffixAt (complete_edgeAt hd hc)), hd.onEdge⟩

/-- The operand at the end of the edge is not looked into, unless prefix operators are evaluated
there. -/
theorem edgeLeaf_held (h : early = true → ends = true → e.front? = none) :
    EdgeLeaf Atomic (e.held early ends).1 := by
  cases e with
  | lead ps x =>
    cases ps with
    | nil =>
      rw [Expr.held]
      exact atomic_tree
    | cons p ps =>
      rw [Expr.held]
      split_ifs with hends
      · rw [Bool.and_eq_true] at hends
        exact absurd (h hends.1 hends.2) (Option.some_ne_none p)
      · exact edgeLeaf_prefixes _ atomic_tree
  | more e o ps x =>
    rw [held_more]
    exact edgeLeaf_fill (open_attach o (held_shape early e false).1) (edgeLeaf_prefixes _ atomic_tree)
  | suffixed e s =>
    rw [held_suffixed]
    exact edgeLeaf_onEdge (held_shape early e true).2 edgeLeaf_suffixAt

end Held

section Left

mutual

theorem Operand.Reads.eq_valueOf : {x : Operand α} → {cs : List (Call α)} → {y : Tree Op (Val α)} →
    x.Reads (some (ofFun f)) cs y → x.Kinded → y = valueOf f (x.tree true)
  | .atom _, _, _, ⟨_, hy⟩, _ => by
    simp [hy, Operand.tree, valueOf, evalTree]
  | .paren p e, _, _, ⟨_, T, _, _, he, hleft, _⟩, hk => by
    obtain ⟨rfl, -⟩ := he.eq_held hk.2.2
    rw [hleft.eq_valueOf, Operand.tree]
    simp [valueOf, evalTree, evalTree_bind]

/-- What is left of an expression is what the rules hold for it, each part of it evaluated. -/
theorem Expr.Reads.eq_held : {e : Expr α} → {ends : Bool} → {cs : List (Call α)} →
    {T : Tree Op (Val α)} → {d : ℕ} → e.Reads (some (ofFun f)) ends cs T d → e.Kinded →
    T = bind (valueOf f) (e.held true ends).1 ∧ d = (e.held true ends).2
  | .lead [] x, _, _, _, _, ⟨hd, hx⟩, hk => by
    subst hd
    simp [Expr.held, Tree.bind, hx.eq_valueOf hk.2]
  | .lead (p :: ps) x, false, _, _, _, ⟨hd, _, y, _, _, hx, _, ⟨_, hT⟩, _⟩, hk => by
    subst hd hT
    simp [Expr.held, bind_prefixes, Tree.bind, hx.eq_valueOf hk.2]
  | .lead (p :: ps) x, true, _, T, _, ⟨hd, _, y, _, _, hx, _, hleft, _⟩, hk => by
    have hT : T = valueOf f (bind id (prefixes (p :: ps) (leaf (x.tree true)))) := by
      rw [Left.eq_valueOf hleft, valueOf, valueOf, ← evalTree_bind, bind_prefixes, hx.eq_valueOf hk.2]
      rfl
    rw [hT, bind_prefixes]
    simp [Expr.held, hd, Tree.bind]
  | .more e o ps x, _, _, _, _, ⟨_, T₁, _, _, y, _, he, hx, hT, hd, _⟩, hk => by
    obtain ⟨rfl, -⟩ := he.eq_held hk.1
    -- A value is not looked into.
    have hedge : EdgeLeaf (fun T => Atomic (valueOf f T)) (e.held true false).1 :=
      edgeLeaf_of_forall (fun _ => trivial) _
    obtain ⟨hattach, hdepth⟩ := bind_attach o hedge
    rw [held_more, bind_fill (open_attach o (held_shape _ e false).1), bind_prefixes, hattach, hT, hd,
      hx.eq_valueOf hk.2.2.2, ← hdepth]
    exact ⟨rfl, rfl⟩
  | .suffixed e s, _, _, _, _, ⟨_, he, hT⟩, hk => by
    have hT₁ := he.kinded hk.1
    obtain ⟨rfl, rfl⟩ := he.eq_held hk.1
    have hd := (held_shape true e true).2
    have hedge : EdgeLeaf (fun T => Atomic (valueOf f T)) (e.held true true).1 :=
      edgeLeaf_of_forall (fun _ => trivial) _
    rw [held_suffixed, bind_onEdge_suffixAt hd hedge, hT]
    exact ⟨onEdge_congr (suffixFlat_eq (kinded_edgeAt hT₁)), rfl⟩

end

end Left

/-! ## The equations of the tree -/

section Equations

variable {early : Bool} {e : Expr α} {x : Operand α} {o s p : Op} {ps : List Op}

/-- Where an expression ends makes no difference to the tree that it stands for. -/
theorem bind_held (e : Expr α) (ends : Bool) : bind id (e.held early ends).1 = e.tree early := by
  cases e with
  | lead ps x =>
    cases ps with
    | nil => simp [Expr.tree, Expr.held]
    | cons p ps =>
      cases early <;> cases ends <;> simp [Expr.tree, Expr.held, bind_prefixes, Tree.bind]
  | more e o ps x => rw [Expr.tree, held_more, held_more]
  | suffixed e s => rw [Expr.tree, held_suffixed, held_suffixed]

/-- The depth of the attachment node. -/
def Expr.depth (early : Bool) (e : Expr α) : ℕ := (e.held early true).2

@[simp] theorem tree_paren : (Operand.paren p e).tree early = grp p (e.tree early) := by
  rw [Operand.tree, bind_held]

@[simp] theorem tree_lead : (Expr.lead ps x).tree early = prefixes ps (x.tree early) := by
  rw [← bind_held _ false]
  cases ps with
  | nil => simp [Expr.held, Tree.bind, prefixes]
  | cons p ps => simp [Expr.held, Tree.bind, bind_prefixes]

@[simp] theorem depth_lead : (Expr.lead ps x).depth early = 0 := by
  cases ps <;> cases early <;> simp [Expr.depth, Expr.held]

theorem tree_more : (Expr.more e o ps x).tree early =
    fill (prefixes ps (x.tree early)) (attach o (e.tree early)) := by
  have hopen := open_attach o (held_shape early e false).1
  have hedge : EdgeLeaf Atomic (e.held early false).1 :=
    edgeLeaf_held fun _ h => absurd h Bool.false_ne_true
  rw [Expr.tree, held_more, bind_fill hopen, bind_prefixes, (bind_attach (g := id) o hedge).1,
    bind_held]
  rfl

theorem depth_more : (Expr.more e o ps x).depth early = attachDepth o (e.tree early) := by
  have hedge : EdgeLeaf Atomic (e.held early false).1 :=
    edgeLeaf_held fun _ h => absurd h Bool.false_ne_true
  rw [Expr.depth, held_more, ← bind_held _ false]
  exact (bind_attach (g := id) o hedge).2

theorem tree_suffixed (h : early = true → e.front? = none) :
    (Expr.suffixed e s).tree early = onEdge (suffixAt s) (e.depth early) (e.tree early) := by
  rw [Expr.tree, held_suffixed]
  exact bind_onEdge_suffixAt (g := id) (held_shape early e true).2 (edgeLeaf_held fun h' _ => h h')

/-- A suffix operator wraps prefix operators that were evaluated. -/
theorem tree_suffixed_front (h : e.front? = some p) :
    (Expr.suffixed e s).tree true = suf s (e.tree true) := by
  obtain ⟨ps, x, rfl⟩ := eq_lead_of_front h
  simp [Expr.tree, Expr.held, onEdge, suffixAt, Tree.bind]

theorem depth_front (h : e.front? = some p) : e.depth early = 0 := by
  obtain ⟨ps, x, rfl⟩ := eq_lead_of_front h
  exact depth_lead

@[simp] theorem depth_suffixed : (Expr.suffixed e s).depth early = e.depth early := by
  rw [Expr.depth, held_suffixed, Expr.depth]

end Equations

/-! ## The tree is whole -/

mutual

theorem Operand.kinded_tree (early : Bool) : {x : Operand α} → x.Kinded → TabnasExpr.Kinded (x.tree early)
  | .atom a, _ => by
    rw [Operand.tree]
    trivial
  | .paren _ e, hk => by
    rw [tree_paren]
    exact ⟨hk.1, hk.2.1, e.kinded_tree early hk.2.2⟩

theorem Expr.kinded_tree (early : Bool) : (e : Expr α) → e.Kinded → TabnasExpr.Kinded (e.tree early)
  | .lead _ _, hk => by
    rw [tree_lead]
    exact kinded_prefixes hk.1 (Operand.kinded_tree early hk.2)
  | .more e _ _ _, hk => by
    rw [tree_more]
    exact kinded_fill (kinded_attach hk.2.1 (e.kinded_tree early hk.1))
      (kinded_prefixes hk.2.2.1 (Operand.kinded_tree early hk.2.2.2))
  | .suffixed e s, hk => by
    have he := e.kinded_tree early hk.1
    by_cases h : early = true → e.front? = none
    · rw [tree_suffixed h]
      exact kinded_onEdge he (kinded_suffixAt hk.2 (kinded_edgeAt he))
    · obtain ⟨rfl, hfront⟩ := Classical.not_imp.1 h
      obtain ⟨p, hp⟩ := Option.ne_none_iff_exists'.1 hfront
      rw [tree_suffixed_front hp]
      exact ⟨hk.2, he⟩

end

mutual

theorem Operand.formed_tree (early : Bool) : {x : Operand α} → x.Kinded → Formed (x.tree early) 0
  | .atom a, _ => by
    rw [Operand.tree]
    exact formed_leaf (.atom a)
  | .paren _ e, hk => by
    rw [tree_paren]
    have he := e.formed_tree early hk.2.2
    exact ⟨he.complete, ⟨hk.1, hk.2.1, he.slotted⟩, trivial⟩

theorem Expr.formed_tree (early : Bool) : (e : Expr α) → e.Kinded →
    Formed (e.tree early) (e.depth early)
  | .lead _ _, hk => by
    rw [tree_lead, depth_lead]
    exact (Operand.formed_tree early hk.2).prefixes hk.1
  | .more e _ _ _, hk => by
    rw [tree_more, depth_more]
    exact (e.formed_tree early hk.1).more ((Operand.formed_tree early hk.2.2.2).prefixes hk.2.2.1) hk.2.1
  | .suffixed e s, hk => by
    have he := e.formed_tree early hk.1
    rw [depth_suffixed]
    by_cases h : early = true → e.front? = none
    · rw [tree_suffixed h, ← onEdge_congr (suffixFlat_eq (kinded_edgeAt (e.kinded_tree early hk.1)))]
      exact he.suffixed hk.2
    · obtain ⟨rfl, hfront⟩ := Classical.not_imp.1 h
      obtain ⟨p, hp⟩ := Option.ne_none_iff_exists'.1 hfront
      rw [tree_suffixed_front hp, depth_front hp]
      exact ⟨he.complete, ⟨hk.2, he.slotted⟩, trivial⟩

end

mutual

theorem Operand.leaves_tree (early : Bool) : (x : Operand α) → Leaves IsAtom (x.tree early)
  | .atom a => by
    rw [Operand.tree]
    exact ⟨a, rfl⟩
  | .paren _ e => by
    rw [tree_paren]
    exact e.leaves_tree early

theorem Expr.leaves_tree (early : Bool) : (e : Expr α) → Leaves IsAtom (e.tree early)
  | .lead ps x => by
    rw [tree_lead]
    exact leaves_prefixes ps (x.leaves_tree early)
  | .more e o ps x => by
    rw [tree_more]
    exact leaves_fill (leaves_attach o (e.leaves_tree early))
      (leaves_prefixes ps (x.leaves_tree early))
  | .suffixed e s => by
    by_cases h : early = true → e.front? = none
    · rw [tree_suffixed h]
      exact leaves_onEdge (e.leaves_tree early) (leaves_suffixAt (leaves_edgeAt (e.leaves_tree early)))
    · obtain ⟨rfl, hfront⟩ := Classical.not_imp.1 h
      obtain ⟨p, hp⟩ := Option.ne_none_iff_exists'.1 hfront
      rw [tree_suffixed_front hp]
      exact e.leaves_tree true

end

end TabnasExpr.Rules
