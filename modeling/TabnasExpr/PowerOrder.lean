import TabnasExpr.Drive
import TabnasExpr.Go.Drive
import TabnasExpr.Lib.Related
import TabnasExpr.Resolve

/-!
# Only the order of the powers matters

The table of a parser can be rescaled: every power it declares goes through a map that is strictly
increasing on them.  The operators of the rescaled table compare as those of the table do
(`OrderAlike`), and `prattify` reads nothing else of them but their kinds, so every run over the
rescaled table makes the boxes and nodes the run over the table makes, an operator's counterpart in
its place (`run_rescaled`).
-/

namespace TabnasExpr

universe u

variable {α : Type u}

/-- Operators that stand for each other have the same kind, and compare alike. -/
structure OrderAlike (R : Op → Op → Prop) : Prop where
  kind : ∀ {o o'}, R o o' → o.kind = o'.kind
  left_le : ∀ {o o' p p'}, R o o' → R p p' → (o.left ≤ p.right ↔ o'.left ≤ p'.right)
  right_le : ∀ {o o' p p'}, R o o' → R p p' → (p.right ≤ o.left ↔ p'.right ≤ o'.left)

section OrderAlike

variable {R : Op → Op → Prop} {o o' p p' : Op}

theorem OrderAlike.right_lt (hR : OrderAlike R) (ho : R o o') (hp : R p p') :
    p.right < o.left ↔ p'.right < o'.left := by
  rw [← not_le, ← not_le, hR.left_le ho hp]

theorem OrderAlike.terms (hR : OrderAlike R) (ho : R o o') : o.terms = o'.terms := by
  rw [Op.terms, Op.terms, hR.kind ho]

end OrderAlike

/-! ## The nodes of TypeScript -/

namespace Ts

variable {R : Op → Op → Prop} {h h' : Heap α} {op op' : Op} {i : ℕ}

/-- Nodes with the same terms under operators that stand for each other. -/
def Node.Rel (R : Op → Op → Prop) (n n' : Node α) : Prop := Option.Rel R n.op n'.op ∧ n.terms = n'.terms

/-- Heaps of such nodes. -/
abbrev HeapRel (R : Op → Op → Prop) (h h' : Heap α) : Prop := Store.Rel (Node.Rel R) h h'

/-- What a call hands back: such heaps, and the same node. -/
def OutRel {A : Type*} (R : Op → Op → Prop) (r r' : Heap α × A) : Prop :=
  HeapRel R r.1 r'.1 ∧ r.2 = r'.2

theorem rel_opOf (h₁ : HeapRel R h h') (i : ℕ) : Option.Rel R (opOf h i) (opOf h' i) :=
  (h₁.cell i).bind fun _ _ hn => hn.1

theorem rel_opAt (h₁ : HeapRel R h h') (v : Val α) :
    Option.Rel (fun q q' => q.1 = q'.1 ∧ R q.2 q'.2) (opAt h v) (opAt h' v) := by
  cases v with
  | undefined | atom => exact .none
  | node i => exact (rel_opOf h₁ i).map fun _ _ ho => ⟨rfl, ho⟩

/-- A value heads an expression in both heaps or in neither. -/
theorem opAt_cases (h₁ : HeapRel R h h') (v : Val α) : (opAt h v = none ∧ opAt h' v = none) ∨
    ∃ i q q', v = .node i ∧ opOf h i = some q ∧ opOf h' i = some q' ∧ R q q' := by
  cases v with
  | undefined | atom => exact Or.inl ⟨rfl, rfl⟩
  | node i =>
    have hrel := rel_opOf h₁ i
    cases hq : opOf h i with
    | none =>
      rw [hq] at hrel
      generalize hq' : opOf h' i = x at hrel
      cases hrel
      exact Or.inl ⟨by simp [opAt, hq], by simp [opAt, hq']⟩
    | some q =>
      rw [hq] at hrel
      generalize hq' : opOf h' i = x at hrel
      cases hrel with
      | @some _ q' hqq => exact Or.inr ⟨i, q, q', rfl, hq, hq', hqq⟩

theorem rel_term (h₁ : HeapRel R h h') (i k : ℕ) : term h i k = term h' i k := by
  unfold term
  generalize h.cell i = x, h'.cell i = y, h₁.cell i = hxy
  cases hxy with
  | none => rfl
  | some hn => simp only [hn.2]

theorem rel_setTerm (h₁ : HeapRel R h h') (i k : ℕ) (v : Val α) :
    HeapRel R (setTerm h i k v) (setTerm h' i k v) :=
  h₁.modify fun _ _ hn => ⟨hn.1, congrArg (setAt · (k - 1) v) hn.2⟩

theorem rel_push (h₁ : HeapRel R h h') (i : ℕ) (v : Val α) : HeapRel R (push h i v) (push h' i v) :=
  h₁.modify fun _ _ hn => ⟨hn.1, congrArg (· ++ [v]) hn.2⟩

theorem rel_newNode (h₁ : HeapRel R h h') (ho : R op op') (vs : List (Val α)) :
    OutRel R (newNode h op vs) (newNode h' op' vs) :=
  ⟨h₁.alloc ⟨.some ho, rfl⟩, congrArg (· + 1) h₁.last⟩

theorem rel_dupNode (h₁ : HeapRel R h h') (i : ℕ) : OutRel R (dupNode h i) (dupNode h' i) :=
  ⟨h₁.alloc (h₁.getD ⟨.none, rfl⟩ i), congrArg (· + 1) h₁.last⟩

theorem rel_updateExprNode (h₁ : HeapRel R h h') (i : ℕ) (ho : R op op') (vs : List (Val α)) :
    HeapRel R (updateExprNode h i op vs) (updateExprNode h' i op' vs) :=
  h₁.modify fun _ _ _ => ⟨.some ho, rfl⟩

/-- The operator takes the whole expression. -/
theorem rel_wrap (h₁ : HeapRel R h h') (ho : R op op') (i : ℕ) :
    HeapRel R (updateExprNode (dupNode h i).1 i op [.node (dupNode h i).2])
      (updateExprNode (dupNode h' i).1 i op' [.node (dupNode h' i).2]) := by
  obtain ⟨hd, hi⟩ := rel_dupNode h₁ i
  rw [hi]
  exact rel_updateExprNode hd i ho _

/-- The operator takes an operand of the expression. -/
theorem rel_take (h₁ : HeapRel R h h') (ho : R op op') (i k : ℕ) (vs : List (Val α)) :
    OutRel R (setTerm (newNode h op vs).1 i k (.node (newNode h op vs).2), (newNode h op vs).2)
      (setTerm (newNode h' op' vs).1 i k (.node (newNode h' op' vs).2), (newNode h' op' vs).2) := by
  obtain ⟨hd, hi⟩ := rel_newNode h₁ ho vs
  rw [hi]
  exact ⟨rel_setTerm hd i k _, rfl⟩

theorem rel_prattifyFrom (hR : OrderAlike R) (h₁ : HeapRel R h h') (ho : R op op') (fuel i : ℕ) :
    Option.Rel (OutRel R) (prattifyFrom fuel h i op) (prattifyFrom fuel h' i op') := by
  induction fuel generalizing i with
  | zero => exact .none
  | succ fuel ih =>
    rw [prattifyFrom, prattifyFrom]
    generalize opOf h i = x, opOf h' i = y, rel_opOf h₁ i = hxy
    cases hxy with
    | none => exact .none
    | @some e e' he =>
      simp only [← hR.kind ho, ← hR.kind he, ← hR.left_le ho he, ← hR.right_le ho he, ← hR.terms he,
        ← rel_term h₁]
      cases op.kind with
      | ternaryOp | parenOp => exact .some ⟨h₁, rfl⟩
      | prefixOp =>
        exact .some (rel_take h₁ ho i e.terms [])
      | infixOp =>
        simp only
        split_ifs
        · exact .some ⟨rel_wrap h₁ ho i, rfl⟩
        · have hq := (rel_opAt h₁ (term h i e.terms)).filter
            (p := fun q => q.2.right < op.left) (q := fun q => q.2.right < op'.left)
            fun q q' hq => by simp [hR.right_lt ho hq.2]
          generalize (opAt h (term h i e.terms)).filter _ = x,
            (opAt h' (term h i e.terms)).filter _ = y at hq
          cases hq with
          | none => exact .some (rel_take h₁ ho i e.terms _)
          | @some q q' hq =>
            obtain ⟨⟨j, o⟩, ⟨j', o'⟩⟩ := q, q'
            obtain rfl : j = j' := hq.1
            exact ih j
      | suffixOp =>
        simp only
        split_ifs
        · have hq := (rel_opAt h₁ (term h i e.terms)).filter
            (p := fun q => q.2.kind = .prefixOp ∧ q.2.right < op.left)
            (q := fun q => q.2.kind = .prefixOp ∧ q.2.right < op'.left)
            fun q q' hq => by simp [hR.right_lt ho hq.2, hR.kind hq.2]
          generalize (opAt h (term h i e.terms)).filter _ = x,
            (opAt h' (term h i e.terms)).filter _ = y at hq
          cases hq with
          | none => exact .some ⟨(rel_take h₁ ho i e.terms _).1, rfl⟩
          | @some q q' hq =>
            obtain ⟨⟨j, o⟩, ⟨j', o'⟩⟩ := q, q'
            obtain rfl : j = j' := hq.1
            exact (ih j).map fun _ _ hr => ⟨hr.1, rfl⟩
        · exact .some ⟨rel_wrap h₁ ho i, rfl⟩

/-- `prattify` runs alike on heaps that differ in the operators that stand for each other. -/
theorem rel_prattify (hR : OrderAlike R) (h₁ : HeapRel R h h') (ho : R op op') (i : ℕ) :
    Option.Rel (OutRel R) (prattify h i op) (prattify h' i op') := by
  rw [prattify, prattify, h₁.last]
  exact rel_prattifyFrom hR h₁ ho _ i

end Ts

/-! ## The runs of TypeScript and Rust -/

section Ports

variable {R : Op → Op → Prop} {P P' : Port α} {s : P.State} {s' : P'.State} {op op' : Op}

/-- Stores read as such heaps, and the same value. -/
def Port.OutRel (R : Op → Op → Prop) (r : P.State × Val α) (r' : P'.State × Val α) : Prop :=
  Ts.HeapRel R (P.heap r.1) (P'.heap r'.1) ∧ r.2 = r'.2

theorem Port.rel_newNode (h : Ts.HeapRel R (P.heap s) (P'.heap s')) (ho : R op op')
    (vs : List (Val α)) :
    Port.OutRel R (P.newNode s op vs) (P'.newNode s' op' vs) := by
  obtain ⟨hd, hi⟩ := Ts.rel_newNode h ho vs
  rw [Port.OutRel, P.heap_newNode, P'.heap_newNode, P.newNode_snd, P'.newNode_snd, hi]
  exact ⟨hd, rfl⟩

theorem Port.rel_push (h : Ts.HeapRel R (P.heap s) (P'.heap s')) (i : ℕ) (v : Val α) :
    Ts.HeapRel R (P.heap (P.push s (.node i) v)) (P'.heap (P'.push s' (.node i) v)) := by
  rw [P.heap_push, P'.heap_push]
  exact Ts.rel_push h i v

theorem Port.rel_prattify (hR : OrderAlike R) (h : Ts.HeapRel R (P.heap s) (P'.heap s'))
    (ho : R op op') {i : ℕ}
    {q q' : Op} (hq : Ts.opOf (P.heap s) i = some q) (hq' : Ts.opOf (P'.heap s') i = some q') :
    Option.Rel (Port.OutRel R) (P.prattify s (.node i) op) (P'.prattify s' (.node i) op') := by
  have hrel := Ts.rel_prattify hR h ho i
  have hmap := hrel.map (f := fun r => (r.1, (.node r.2 : Val α))) (g := fun r => (r.1, .node r.2))
    (Q := Ts.OutRel R) fun r r' hr => ⟨hr.1, congrArg Val.node hr.2⟩
  rw [← P.heap_prattify s i q op hq, ← P'.heap_prattify s' i q' op' hq'] at hmap
  generalize P.prattify s (.node i) op = x, P'.prattify s' (.node i) op' = y at hmap
  cases x with
  | none =>
    cases y with
    | none => exact .none
    | some _ => cases hmap
  | some r =>
    cases y with
    | none => cases hmap
    | some r' =>
      cases hmap with
      | some hr => exact .some hr

/-- Runs that hold the same nodes, over heaps that differ in the operators that stand for each other. -/
structure Run.Rel (R : Op → Op → Prop) (r : Run P) (r' : Run P') : Prop where
  heap : Ts.HeapRel R (P.heap r.store) (P'.heap r'.store)
  root : r.root = r'.root
  attach : r.attach = r'.attach
  due : r.due = r'.due

variable {r : Run P} {r' : Run P'}

theorem Run.Rel.prior (h : Run.Rel R r r') (ho : R op op') (vs : List (Val α)) :
    Run.Rel R (r.prior op vs) (r'.prior op' vs) := by
  obtain ⟨hs, hv⟩ := Port.rel_newNode h.heap ho vs
  exact ⟨hs, hv, hv, h.due⟩

/-- Tokens that differ in the operators that stand for each other. -/
inductive TokRel (R : Op → Op → Prop) : OpTree.Sym Op (Val α) → OpTree.Sym Op (Val α) → Prop
  | leaf (v) : TokRel R (.leaf v) (.leaf v)
  | pre {o o'} : R o o' → TokRel R (.pre o) (.pre o')
  | suf {o o'} : R o o' → TokRel R (.suf o) (.suf o')
  | inf {o o'} : R o o' → TokRel R (.inf o) (.inf o')

variable {tok tok' : OpTree.Sym Op (Val α)} {toks toks' : List (OpTree.Sym Op (Val α))}

theorem Run.Rel.step (hR : OrderAlike R) (h : Run.Rel R r r') (ht : TokRel R tok tok') :
    Option.Rel (Run.Rel R) (r.step tok) (r'.step tok') := by
  obtain ⟨store, root, attach, due⟩ := r
  obtain ⟨store', root', attach', due'⟩ := r'
  obtain ⟨hs, rfl, rfl, rfl⟩ : _ ∧ root = root' ∧ attach = attach' ∧ due = due' :=
    ⟨h.heap, h.root, h.attach, h.due⟩
  have hprior : ∀ {o o' : Op}, R o o' → ∀ vs, Run.Rel R (Run.prior ⟨store, root, attach, due⟩ o vs)
      (Run.prior ⟨store', root, attach, due⟩ o' vs) := fun ho => h.prior ho
  cases ht with
  | leaf v =>
    obtain ⟨hq, hq'⟩ | ⟨i, q, q', rfl, hq, hq', -⟩ := Ts.opAt_cases hs due
    · simp only [Run.step, hq, hq']
      exact .some ⟨hs, rfl, rfl, rfl⟩
    · simp only [Run.step, Ts.opAt, hq, hq', Option.map_some]
      exact .some ⟨Port.rel_push hs i v, rfl, rfl, rfl⟩
  | pre ho =>
    obtain ⟨hq, hq'⟩ | ⟨i, q, q', rfl, hq, hq', -⟩ := Ts.opAt_cases hs due
    · simp only [Run.step, hq, hq']
      obtain ⟨hs, hroot, hattach, -⟩ := hprior ho []
      exact .some ⟨hs, hroot, hattach, hroot⟩
    · simp only [Run.step, Ts.opAt, hq, hq', Option.map_some]
      exact (Port.rel_prattify hR hs ho hq hq').map fun _ _ hr => ⟨hr.1, rfl, rfl, hr.2⟩
  | inf ho =>
    obtain ⟨hq, hq'⟩ | ⟨i, q, q', rfl, hq, hq', -⟩ := Ts.opAt_cases hs root
    · simp only [Run.step, hq, hq']
      obtain ⟨hs, hroot, hattach, -⟩ := hprior ho [root]
      exact .some ⟨hs, hroot, hattach, hroot⟩
    · simp only [Run.step, Ts.opAt, hq, hq', Option.map_some]
      exact (Port.rel_prattify hR hs ho hq hq').map fun _ _ hr => ⟨hr.1, rfl, hr.2, hr.2⟩
  | suf ho =>
    obtain ⟨hq, hq'⟩ | ⟨i, q, q', rfl, hq, hq', -⟩ := Ts.opAt_cases hs attach
    · simp only [Run.step, hq, hq']
      exact .some (hprior ho [attach])
    · simp only [Run.step, Ts.opAt, hq, hq', Option.map_some]
      exact (Port.rel_prattify hR hs ho hq hq').map fun _ _ hr => ⟨hr.1, rfl, hr.2, rfl⟩

/-- Runs over tokens whose operators stand for each other. -/
theorem Run.Rel.run (hR : OrderAlike R) (h : Run.Rel R r r') (ht : List.Forall₂ (TokRel R) toks toks') :
    Option.Rel (Run.Rel R) (Run.run toks r) (Run.run toks' r') := by
  induction ht generalizing r r' with
  | nil => exact .some h
  | cons ht _ ih => exact (h.step hR ht).bind fun _ _ h => ih h

end Ports

/-! ## The boxes of Go -/

namespace Go

variable {R : Op → Op → Prop} {h h' : Heap α} {op op' : Op} {i : ℕ}

/-- Boxes with the same slots under operators that stand for each other. -/
def Box.Rel (R : Op → Op → Prop) (b b' : Box α) : Prop := Option.Rel R b.op b'.op ∧ b.slots = b'.slots

/-- Heaps of such boxes. -/
abbrev HeapRel (R : Op → Op → Prop) (h h' : Heap α) : Prop := Store.Rel (Box.Rel R) h h'

/-- What a call hands back: such heaps, and the same box or truth value. -/
def OutRel {A : Type*} (R : Op → Op → Prop) (r r' : Heap α × A) : Prop :=
  HeapRel R r.1 r'.1 ∧ r.2 = r'.2

theorem rel_opOf (h₁ : HeapRel R h h') (i : ℕ) : Option.Rel R (opOf h i) (opOf h' i) :=
  (h₁.cell i).bind fun _ _ hn => hn.1

theorem rel_opAt (h₁ : HeapRel R h h') (v : Val α) :
    Option.Rel (fun q q' => q.1 = q'.1 ∧ R q.2 q'.2) (opAt h v) (opAt h' v) := by
  cases v with
  | undefined | atom => exact .none
  | node i => exact (rel_opOf h₁ i).map fun _ _ ho => ⟨rfl, ho⟩

theorem rel_opAtSlot (h₁ : HeapRel R h h') (v : Slot α) :
    Option.Rel (fun q q' => q.1 = q'.1 ∧ R q.2 q'.2) (opAtSlot h v) (opAtSlot h' v) := by
  cases v with
  | unfilled => exact .none
  | val v => exact rel_opAt h₁ v

theorem rel_slotAt (h₁ : HeapRel R h h') (i k : ℕ) : slotAt h i k = slotAt h' i k := by
  unfold slotAt
  generalize h.cell i = x, h'.cell i = y, h₁.cell i = hxy
  cases hxy with
  | none => rfl
  | some hb => simp only [Option.bind_some, hb.2]

theorem rel_setSlot (h₁ : HeapRel R h h') (i k : ℕ) (v : Slot α) :
    HeapRel R (setSlot h i k v) (setSlot h' i k v) :=
  h₁.modify fun _ _ hb => ⟨hb.1, congrArg (List.set · (k - 1) v) hb.2⟩

theorem makeSlots_eq (hR : OrderAlike R) (ho : R op op') (vs : List (Slot α)) :
    makeSlots op vs = makeSlots op' vs := by
  rw [makeSlots, makeSlots, hR.terms ho]

theorem rel_makeExpr (hR : OrderAlike R) (h₁ : HeapRel R h h') (ho : R op op') (vs : List (Slot α)) :
    OutRel R (makeExpr h op vs) (makeExpr h' op' vs) :=
  ⟨h₁.alloc ⟨.some ho, makeSlots_eq hR ho vs⟩, congrArg (· + 1) h₁.last⟩

theorem rel_dupExpr (h₁ : HeapRel R h h') (i : ℕ) : OutRel R (dupExpr h i) (dupExpr h' i) :=
  ⟨h₁.alloc (h₁.getD ⟨.none, rfl⟩ i), congrArg (· + 1) h₁.last⟩

theorem rel_wrapExpr (hR : OrderAlike R) (h₁ : HeapRel R h h') (ho : R op op') (i : ℕ) :
    HeapRel R (wrapExpr h i op) (wrapExpr h' i op') := by
  have hwrap (h : Heap α) (op : Op) : wrapExpr h i op =
      (dupExpr h i).1.modify i fun _ => ⟨some op, makeSlots op [.val (.node (dupExpr h i).2)]⟩ := rfl
  obtain ⟨hd, hi⟩ := rel_dupExpr h₁ i
  rw [hwrap, hwrap, hi]
  exact hd.modify fun _ _ _ => ⟨.some ho, makeSlots_eq hR ho _⟩

/-- The operator takes an operand of the expression. -/
theorem rel_take (hR : OrderAlike R) (h₁ : HeapRel R h h') (ho : R op op') (i k : ℕ)
    (vs : List (Slot α)) :
    OutRel R (setSlot (makeExpr h op vs).1 i k (.val (.node (makeExpr h op vs).2)),
      (makeExpr h op vs).2)
      (setSlot (makeExpr h' op' vs).1 i k (.val (.node (makeExpr h' op' vs).2)),
        (makeExpr h' op' vs).2) := by
  obtain ⟨hd, hi⟩ := rel_makeExpr hR h₁ ho vs
  rw [hi]
  exact ⟨rel_setSlot hd i k _, rfl⟩

/-- The walk of `fillNextSlot` sees the same boxes, or fills the same slot. -/
abbrev WalkRel (R : Op → Op → Prop) : List ℕ ⊕ Heap α → List ℕ ⊕ Heap α → Prop :=
  Sum.LiftRel Eq (HeapRel R)

theorem rel_fillSubs {fill fill' : List ℕ → ℕ → Option (List ℕ ⊕ Heap α)}
    (hfill : ∀ seen j, Option.Rel (WalkRel R) (fill seen j) (fill' seen j)) (vs : List (Slot α))
    (seen : List ℕ) : Option.Rel (WalkRel R) (fillSubs fill vs seen) (fillSubs fill' vs seen) := by
  induction vs generalizing seen with
  | nil => exact .some (.inl rfl)
  | cons v vs ih =>
    match v with
    | .unfilled | .val .undefined | .val (.atom _) => exact ih seen
    | .val (.node j) =>
      simp only [fillSubs]
      generalize fill seen j = x, fill' seen j = y, hfill seen j = hxy
      cases hxy with
      | none => exact .none
      | some hr =>
        cases hr with
        | inl hseen =>
          cases hseen
          exact ih _
        | inr hh => exact .some (.inr hh)

theorem rel_fillNextSlotSeen (hR : OrderAlike R) (v : Slot α) (fuel : ℕ) (h₁ : HeapRel R h h')
    (seen : List ℕ) (i : ℕ) :
    Option.Rel (WalkRel R) (fillNextSlotSeen v fuel h seen i) (fillNextSlotSeen v fuel h' seen i) := by
  induction fuel generalizing seen i with
  | zero => exact .none
  | succ fuel ih =>
    rw [fillNextSlotSeen, fillNextSlotSeen]
    generalize h.cell i = x, h'.cell i = y, h₁.cell i = hxy
    cases hxy with
    | none => exact .some (.inl rfl)
    | @some b b' hb =>
      obtain ⟨o, slots⟩ := b
      obtain ⟨o', slots'⟩ := b'
      obtain ⟨ho, rfl⟩ : Option.Rel R o o' ∧ slots = slots' := hb
      simp only
      split_ifs
      · exact .some (.inl rfl)
      · cases ho with
        | none => exact .some (.inl rfl)
        | @some e e' he =>
          have hsubs := rel_fillSubs ih (slots.take e.terms) (i :: seen)
          simp only [← hR.terms he]
          generalize fillSubs (fillNextSlotSeen v fuel h) (slots.take e.terms) (i :: seen) = x,
            fillSubs (fillNextSlotSeen v fuel h') (slots.take e.terms) (i :: seen) = y at hsubs
          cases hsubs with
          | none => exact .none
          | some hr =>
            cases hr with
            | inr hh => exact .some (.inr hh)
            | inl hseen =>
              cases hseen
              simp only
              split_ifs
              · exact .some (.inr (h₁.modify fun _ _ hb => ⟨hb.1, congrArg (fillFirst v) hb.2⟩))
              · exact .some (.inl rfl)

theorem rel_fillNextSlot (hR : OrderAlike R) (h₁ : HeapRel R h h') (node : Val α) (v : Slot α) :
    Option.Rel (OutRel R) (fillNextSlot h node v) (fillNextSlot h' node v) := by
  cases node with
  | undefined | atom => exact .some ⟨h₁, rfl⟩
  | node i =>
    have hwalk := rel_fillNextSlotSeen hR v (h.last + 2) h₁ [] i
    rw [fillNextSlot, fillNextSlot, ← h₁.last]
    generalize fillNextSlotSeen v (h.last + 2) h [] i = x,
      fillNextSlotSeen v (h.last + 2) h' [] i = y at hwalk
    cases hwalk with
    | none => exact .none
    | some hr =>
      cases hr with
      | inl _ => exact .some ⟨h₁, rfl⟩
      | inr hh => exact .some ⟨hh, rfl⟩

theorem rel_prattifySuffixFrom (hR : OrderAlike R) (h₁ : HeapRel R h h') (ho : R op op') (fuel i : ℕ) :
    Option.Rel (OutRel R) (prattifySuffixFrom fuel h i op) (prattifySuffixFrom fuel h' i op') := by
  induction fuel generalizing i with
  | zero => exact .none
  | succ fuel ih =>
    rw [prattifySuffixFrom, prattifySuffixFrom]
    generalize opOf h i = x, opOf h' i = y, rel_opOf h₁ i = hxy
    cases hxy with
    | none => exact .some (rel_makeExpr hR h₁ ho _)
    | @some e e' he =>
      simp only [← hR.kind he, ← hR.right_le ho he, ← hR.terms he, ← rel_slotAt h₁]
      split_ifs with hw
      · generalize slotAt h i e.terms = x
        cases x with
        | none => exact .some ⟨rel_wrapExpr hR h₁ ho i, rfl⟩
        | some last =>
          have hq := (rel_opAtSlot h₁ last).filter
            (p := fun q => (q.2.kind = .prefixOp ∨ q.2.kind = .infixOp) ∧ q.2.right < op.left)
            (q := fun q => (q.2.kind = .prefixOp ∨ q.2.kind = .infixOp) ∧ q.2.right < op'.left)
            fun q q' hq => by simp [hR.right_lt ho hq.2, hR.kind hq.2]
          simp only
          generalize (opAtSlot h last).filter _ = x, (opAtSlot h' last).filter _ = y at hq
          cases hq with
          | none => exact .some ⟨(rel_take hR h₁ ho i e.terms [last]).1, rfl⟩
          | @some q q' hq =>
            obtain ⟨⟨j, o⟩, ⟨j', o'⟩⟩ := q, q'
            obtain rfl : j = j' := hq.1
            exact (ih j).map fun _ _ hr => ⟨hr.1, rfl⟩
      · exact .some ⟨rel_wrapExpr hR h₁ ho i, rfl⟩

theorem rel_prattifyFrom (hR : OrderAlike R) (h₁ : HeapRel R h h') (ho : R op op') (fuel i : ℕ) :
    Option.Rel (OutRel R) (prattifyFrom fuel h i op) (prattifyFrom fuel h' i op') := by
  induction fuel generalizing i with
  | zero => exact .none
  | succ fuel ih =>
    rw [prattifyFrom, prattifyFrom]
    generalize opOf h i = x, opOf h' i = y, rel_opOf h₁ i = hxy
    cases hxy with
    | none => exact .some (rel_makeExpr hR h₁ ho _)
    | @some e e' he =>
      simp only [← hR.kind ho, ← hR.kind he, ← hR.left_le ho he, ← hR.terms he, ← rel_slotAt h₁]
      by_cases hp : e.kind = .parenOp
      · simp only [if_pos hp]
        obtain ⟨hd, hi⟩ := rel_dupExpr h₁ i
        rw [hi]
        exact .some (rel_makeExpr hR hd ho _)
      · simp only [if_neg hp]
        cases op.kind with
        | ternaryOp | parenOp => exact .some ⟨h₁, rfl⟩
        | suffixOp => exact rel_prattifySuffixFrom hR h₁ ho _ i
        | prefixOp =>
          obtain ⟨hd, hi⟩ := rel_makeExpr hR h₁ ho []
          have hfill := rel_fillNextSlot hR hd (.node i) (.val (.node (makeExpr h' op' []).2))
          simp only [hi]
          generalize fillNextSlot (makeExpr h op []).1 _ _ = x,
            fillNextSlot (makeExpr h' op' []).1 _ _ = y at hfill
          cases hfill with
          | none => exact .none
          | @some r r' hr =>
            obtain ⟨g, b⟩ := r
            obtain ⟨g', b'⟩ := r'
            obtain ⟨hg, rfl⟩ : HeapRel R g g' ∧ b = b' := hr
            cases b with
            | true => exact .some ⟨hg, rfl⟩
            | false =>
              simp only [← rel_slotAt hg]
              generalize slotAt g i e.terms = x
              cases x with
              | none => exact .some ⟨hg, rfl⟩
              | some _ => exact .some ⟨rel_setSlot hg i e.terms _, rfl⟩
        | infixOp =>
          simp only
          split_ifs
          · exact .some ⟨rel_wrapExpr hR h₁ ho i, rfl⟩
          · generalize slotAt h i e.terms = x
            cases x with
            | none => exact .some ⟨h₁, rfl⟩
            | some last =>
              have hq := (rel_opAtSlot h₁ last).filter
                (p := fun q => q.2.kind ≠ .parenOp ∧ q.2.kind ≠ .ternaryOp ∧ q.2.right < op.left)
                (q := fun q => q.2.kind ≠ .parenOp ∧ q.2.kind ≠ .ternaryOp ∧ q.2.right < op'.left)
                fun q q' hq => by simp [hR.right_lt ho hq.2, hR.kind hq.2]
              simp only
              generalize (opAtSlot h last).filter _ = x, (opAtSlot h' last).filter _ = y at hq
              cases hq with
              | none => exact .some (rel_take hR h₁ ho i e.terms [last])
              | @some q q' hq =>
                obtain ⟨⟨j, o⟩, ⟨j', o'⟩⟩ := q, q'
                obtain rfl : j = j' := hq.1
                exact ih j

/-- Runs that hold the same root box, over heaps that differ in the operators that stand for each
other. -/
structure Run.Rel (R : Op → Op → Prop) (r r' : Run α) : Prop where
  heap : HeapRel R r.heap r'.heap
  root : r.root = r'.root

variable {r r' : Run α} {tok tok' : OpTree.Sym Op (Val α)} {toks toks' : List (OpTree.Sym Op (Val α))}

theorem Run.Rel.prior (hR : OrderAlike R) (h : Run.Rel R r r') (ho : R op op') (vs : List (Slot α)) :
    Run.Rel R (r.prior op vs) (r'.prior op' vs) := by
  obtain ⟨hs, hi⟩ := rel_makeExpr hR h.heap ho vs
  exact ⟨hs, congrArg Val.node hi⟩

theorem rel_prattify (hR : OrderAlike R) (h₁ : HeapRel R h h') (ho : R op op') (i : ℕ) :
    Option.Rel (OutRel R) (prattify h i op) (prattify h' i op') := by
  rw [prattify, prattify, h₁.last]
  exact rel_prattifyFrom hR h₁ ho _ i

theorem rel_prattifySuffix (hR : OrderAlike R) (h₁ : HeapRel R h h') (ho : R op op') (i : ℕ) :
    Option.Rel (OutRel R) (prattifySuffix h i op) (prattifySuffix h' i op') := by
  rw [prattifySuffix, prattifySuffix, h₁.last]
  exact rel_prattifySuffixFrom hR h₁ ho _ i

theorem Run.Rel.step (hR : OrderAlike R) (h : Run.Rel R r r') (ht : TokRel R tok tok') :
    Option.Rel (Run.Rel R) (r.step tok) (r'.step tok') := by
  obtain ⟨heap, root⟩ := r
  obtain ⟨heap', root'⟩ := r'
  obtain ⟨hs, rfl⟩ : HeapRel R heap heap' ∧ root = root' := ⟨h.heap, h.root⟩
  have hq := rel_opAt hs root
  cases ht with
  | leaf v =>
    simp only [Run.step]
    generalize opAt heap root = x, opAt heap' root = y at hq
    cases hq with
    | none => exact .some ⟨hs, rfl⟩
    | some _ => exact (rel_fillNextSlot hR hs root (.val v)).map fun _ _ hr => ⟨hr.1, rfl⟩
  | pre ho =>
    simp only [Run.step]
    generalize opAt heap root = x, opAt heap' root = y at hq
    cases hq with
    | none => exact .some (h.prior hR ho _)
    | @some q q' hq =>
      obtain ⟨⟨i, o⟩, ⟨i', o'⟩⟩ := q, q'
      obtain rfl : i = i' := hq.1
      exact (rel_prattify hR hs ho i).map fun _ _ hr => ⟨hr.1, rfl⟩
  | suf ho =>
    simp only [Run.step]
    generalize opAt heap root = x, opAt heap' root = y at hq
    cases hq with
    | none => exact .some (h.prior hR ho _)
    | @some q q' hq =>
      obtain ⟨⟨i, o⟩, ⟨i', o'⟩⟩ := q, q'
      obtain rfl : i = i' := hq.1
      exact (rel_prattifySuffix hR hs ho i).map fun _ _ hr => ⟨hr.1, congrArg Val.node hr.2⟩
  | inf ho =>
    simp only [Run.step]
    generalize opAt heap root = x, opAt heap' root = y at hq
    cases hq with
    | none => exact .some (h.prior hR ho _)
    | @some q q' hq =>
      obtain ⟨⟨i, o⟩, ⟨i', o'⟩⟩ := q, q'
      obtain rfl : i = i' := hq.1
      refine (rel_prattify hR hs ho i).map fun g g' hr => ?_
      obtain ⟨g, j⟩ := g
      obtain ⟨g', j'⟩ := g'
      obtain ⟨hg, rfl⟩ : HeapRel R g g' ∧ j = j' := hr
      have hp := rel_opOf hg i
      simp only
      generalize opOf g i = x, opOf g' i = y at hp
      cases hp with
      | none => exact ⟨hg, rfl⟩
      | some hp =>
        simp only [← hR.kind hp]
        split_ifs
        · exact ⟨hg, rfl⟩
        · exact ⟨hg, rfl⟩

/-- Runs over tokens whose operators stand for each other. -/
theorem Run.Rel.run (hR : OrderAlike R) (h : Run.Rel R r r') (ht : List.Forall₂ (TokRel R) toks toks') :
    Option.Rel (Run.Rel R) (Run.run toks r) (Run.run toks' r') := by
  induction ht generalizing r r' with
  | nil => exact .some h
  | cons ht _ ih => exact (h.step hR ht).bind fun _ _ h => ih h

end Go

/-! ## Rescaled tables -/

variable {υ τ : Type u}

/-- The powers of a table: those it declares, a zero being none, and the two for the unset sides. -/
def OpTable.powers (T : OpTable υ) : Set ℤ :=
  {p | p = minSafeInteger ∨ p = maxSafeInteger ∨
    p ≠ 0 ∧ ∃ e ∈ T.entries, e.2.left = some p ∨ e.2.right = some p}

/-- A side that is unset stays unset. -/
def rescalePower (f : ℤ → ℤ) (p : ℤ) : ℤ := if p = 0 then 0 else f p

/-- The definition with its powers rescaled. -/
def OpDef.rescale (f : ℤ → ℤ) (d : OpDef υ) : OpDef υ :=
  { d with left := d.left.map (rescalePower f), right := d.right.map (rescalePower f) }

/-- The table with the powers of every definition rescaled. -/
def OpTable.rescale (f : ℤ → ℤ) (T : OpTable υ) : OpTable υ where
  entries := T.entries.map fun e => (e.1, e.2.rescale f)
  distinct := by
    rw [List.flatMap_map]
    exact T.distinct

/-- A map that rescales the powers of a table: strictly increasing on them, with the two for the unset
sides in their places, and no declared power turned into a zero. -/
structure Rescales (T : OpTable υ) (f : ℤ → ℤ) : Prop where
  strictMono : ∀ p ∈ T.powers, ∀ q ∈ T.powers, p < q → f p < f q
  min : f minSafeInteger = minSafeInteger
  max : f maxSafeInteger = maxSafeInteger
  ne_zero : ∀ e ∈ T.entries, ∀ p, e.2.left = some p ∨ e.2.right = some p → p ≠ 0 → f p ≠ 0

/-- The resolved operator with its powers rescaled. -/
def Resolved.rescale (f : ℤ → ℤ) (r : Resolved υ) : Resolved υ :=
  { r with left := f r.left, right := f r.right }

/-- An operator and the one the rescaled table has in its place. -/
structure Counterpart (T : OpTable υ) (f : ℤ → ℤ) (o o' : Op) : Prop where
  eq : o' = { o with left := f o.left, right := f o.right }
  left : o.left ∈ T.powers
  right : o.right ∈ T.powers

section Rescales

variable {T : OpTable υ} {f : ℤ → ℤ} {e : String × OpDef υ} {k : Kind} {r : Resolved υ}

theorem Rescales.le_iff_le (hf : Rescales T f) {p q : ℤ} (hp : p ∈ T.powers) (hq : q ∈ T.powers) :
    f p ≤ f q ↔ p ≤ q := by
  have hmono : StrictMonoOn f T.powers := fun p hp q hq => hf.strictMono p hp q hq
  exact hmono.le_iff_le hp hq

theorem Rescales.alike (hf : Rescales T f) : OrderAlike (Counterpart T f) where
  kind h := by rw [h.eq]
  left_le ho hp := by
    rw [ho.eq, hp.eq]
    exact (hf.le_iff_le ho.left hp.right).symm
  right_le ho hp := by
    rw [ho.eq, hp.eq]
    exact (hf.le_iff_le hp.right ho.left).symm

theorem bindingPower_rescale {power : Option ℤ} {unset : ℤ} (hu : f unset = unset)
    (h : ∀ p, power = some p → p ≠ 0 → f p ≠ 0) :
    bindingPower (power.map (rescalePower f)) unset = f (bindingPower power unset) := by
  cases power with
  | none => exact hu.symm
  | some p =>
    by_cases hp : p = 0
    · simp [bindingPower, rescalePower, hp, hu]
    · simp [bindingPower, rescalePower, hp, h p rfl hp]

theorem Rescales.left (hf : Rescales T f) (he : e ∈ T.entries) :
    bindingPower (e.2.left.map (rescalePower f)) minSafeInteger =
      f (bindingPower e.2.left minSafeInteger) :=
  bindingPower_rescale hf.min fun p hp => hf.ne_zero e he p (Or.inl hp)

theorem Rescales.right (hf : Rescales T f) (he : e ∈ T.entries) :
    bindingPower (e.2.right.map (rescalePower f)) maxSafeInteger =
      f (bindingPower e.2.right maxSafeInteger) :=
  bindingPower_rescale hf.max fun p hp => hf.ne_zero e he p (Or.inr hp)

theorem min_mem_powers (T : OpTable υ) : minSafeInteger ∈ T.powers := Or.inl rfl

theorem max_mem_powers (T : OpTable υ) : maxSafeInteger ∈ T.powers := Or.inr (Or.inl rfl)

theorem bindingPower_mem {power : Option ℤ} {unset : ℤ} (hu : unset ∈ T.powers) (he : e ∈ T.entries)
    (hp : power = e.2.left ∨ power = e.2.right) : bindingPower power unset ∈ T.powers := by
  cases power with
  | none => exact hu
  | some p =>
    by_cases h0 : p = 0
    · simpa [bindingPower, h0] using hu
    · simp only [bindingPower, if_neg h0]
      exact Or.inr (Or.inr ⟨h0, e, he, hp.imp Eq.symm Eq.symm⟩)

theorem left_mem_powers (he : e ∈ T.entries) : bindingPower e.2.left minSafeInteger ∈ T.powers :=
  bindingPower_mem (min_mem_powers T) he (Or.inl rfl)

theorem right_mem_powers (he : e ∈ T.entries) : bindingPower e.2.right maxSafeInteger ∈ T.powers :=
  bindingPower_mem (max_mem_powers T) he (Or.inr rfl)

/-- The powers of a resolved operator are powers of the table. -/
def InPowers (T : OpTable υ) (r : Resolved υ) : Prop := r.left ∈ T.powers ∧ r.right ∈ T.powers

/-! ### What the maps of the rescaled table hold -/

/-- The maps that a table and its rescaling make: the second is the first with its powers rescaled, and
the powers of the first are the table's. -/
structure MapRescaled (T : OpTable υ) (f : ℤ → ℤ) (m m' : OpMap τ υ) : Prop where
  eq : m' = m.map fun b => (b.1, b.2.rescale f)
  powers : ∀ b ∈ m, InPowers T b.2

theorem MapRescaled.get [DecidableEq τ] {m m' : OpMap τ υ} (h : MapRescaled T f m m') (t : τ) :
    m'.get t = (m.get t).map (Resolved.rescale f) ∧ ∀ r ∈ m.get t, InPowers T r := by
  constructor
  · rw [h.eq, OpMap.get, OpMap.get, ← List.map_reverse, List.find?_map, Option.map_map, Option.map_map]
    rfl
  · intro r hr
    obtain ⟨b, hb, rfl⟩ := Option.mem_map.1 hr
    exact h.powers b (List.mem_reverse.1 (List.mem_of_find?_eq_some hb))

theorem mapRescaled_flatMap {g g' : String × OpDef υ → OpMap τ υ} {es : List (String × OpDef υ)}
    (h : ∀ e ∈ es, MapRescaled T f (g e) (g' e)) : MapRescaled T f (es.flatMap g) (es.flatMap g') where
  eq := by
    rw [List.map_flatMap]
    exact List.flatMap_congr fun e he => (h e he).eq
  powers b hb := by
    obtain ⟨e, he, hb⟩ := List.mem_flatMap.1 hb
    exact (h e he).powers b hb

/-- Entries of one token. -/
theorem mapRescaled_singleton {r r' : Resolved υ} (h : r' = r.rescale f) (hr : InPowers T r) (t : τ) :
    MapRescaled T f [(t, r)] [(t, r')] where
  eq := by rw [h]; rfl
  powers b hb := by
    rw [List.mem_singleton.1 hb]
    exact hr

/-- Entries of two tokens. -/
theorem mapRescaled_pair {r r' q q' : Resolved υ} (h : r' = r.rescale f) (hr : InPowers T r)
    (h' : q' = q.rescale f) (hq : InPowers T q) (t u : τ) :
    MapRescaled T f [(t, r), (u, q)] [(t, r'), (u, q')] where
  eq := by rw [h, h']; rfl
  powers b hb := by
    obtain rfl | hb := List.mem_cons.1 hb
    · exact hr
    · rw [List.mem_singleton.1 hb]
      exact hq

/-- The entries of the rescaled table with a property the powers do not bear on. -/
theorem entries_rescale_filter (f : ℤ → ℤ) (k : Kind) :
    ((T.rescale f).entries.filter fun e => k ∈ e.2.kinds) =
      (T.entries.filter fun e => k ∈ e.2.kinds).map fun e => (e.1, e.2.rescale f) := by
  rw [OpTable.rescale, List.filter_map]
  rfl

variable (tin : String → τ)

theorem Ts.rescaled_makeOpMap (hf : Rescales T f) (k : Kind) :
    MapRescaled T f (Ts.makeOpMap tin k T.entries) (Ts.makeOpMap tin k (T.rescale f).entries) := by
  rw [Ts.makeOpMap, Ts.makeOpMap, entries_rescale_filter, List.flatMap_map]
  refine mapRescaled_flatMap fun e he => ?_
  have he : e ∈ T.entries := (List.mem_filter.1 he).1
  have hop (src : String) (i : Option ℕ) : Ts.anyfixOp k e.1 (e.2.rescale f) src i =
      (Ts.anyfixOp k e.1 e.2 src i).rescale f := by
    simp [Ts.anyfixOp, Resolved.rescale, OpDef.rescale, hf.left he, hf.right he]
  split_ifs
  · exact mapRescaled_pair (hop _ _) ⟨left_mem_powers he, right_mem_powers he⟩ (hop _ _)
      ⟨left_mem_powers he, right_mem_powers he⟩ _ _
  · exact mapRescaled_singleton (hop _ _) ⟨left_mem_powers he, right_mem_powers he⟩ _

theorem Rust.rescaled_makeOpMap (hf : Rescales T f) (k : Kind) :
    MapRescaled T f (Rust.makeOpMap tin k T.entries) (Rust.makeOpMap tin k (T.rescale f).entries) := by
  rw [Rust.makeOpMap, Rust.makeOpMap, entries_rescale_filter, List.flatMap_map]
  refine mapRescaled_flatMap fun e he => ?_
  have he : e ∈ T.entries := (List.mem_filter.1 he).1
  have hop (src : String) (i : Option ℕ) : Rust.anyfixOp k e.1 (e.2.rescale f) src i =
      (Rust.anyfixOp k e.1 e.2 src i).rescale f := by
    simp [Rust.anyfixOp, Resolved.rescale, OpDef.rescale, hf.left he, hf.right he]
  split_ifs
  · exact mapRescaled_pair (hop _ _) ⟨left_mem_powers he, right_mem_powers he⟩ (hop _ _)
      ⟨left_mem_powers he, right_mem_powers he⟩ _ _
  · exact mapRescaled_singleton (hop _ _) ⟨left_mem_powers he, right_mem_powers he⟩ _

theorem Ts.rescaled_makeParenMap (hf : Rescales T f) :
    MapRescaled T f (Ts.makeParenMap tin T.entries) (Ts.makeParenMap tin (T.rescale f).entries) := by
  rw [Ts.makeParenMap, Ts.makeParenMap, entries_rescale_filter, List.map_map]
  refine ⟨?_, fun b hb => ?_⟩
  · simp [Ts.parenOp, Resolved.rescale, OpDef.rescale, hf.min, hf.max]
  · obtain ⟨e, -, rfl⟩ := List.mem_map.1 hb
    exact ⟨min_mem_powers T, max_mem_powers T⟩

theorem Rust.rescaled_makeParenMap (hf : Rescales T f) :
    MapRescaled T f (Rust.makeParenMap tin T.entries) (Rust.makeParenMap tin (T.rescale f).entries) := by
  rw [Rust.makeParenMap, Rust.makeParenMap, entries_rescale_filter, List.map_map]
  refine ⟨?_, fun b hb => ?_⟩
  · simp [Rust.parenOp, Resolved.rescale, OpDef.rescale, hf.min, hf.max]
  · obtain ⟨e, -, rfl⟩ := List.mem_map.1 hb
    exact ⟨min_mem_powers T, max_mem_powers T⟩

/-- The record of Go with its powers rescaled. -/
def Go.TokenOp.rescale (f : ℤ → ℤ) (op : Go.TokenOp τ υ) : Go.TokenOp τ υ :=
  { op with left := f op.left, right := f op.right }

theorem Go.makeOp_rescale (hf : Rescales T f) (he : e ∈ T.entries) :
    Go.makeOp tin e.1 (e.2.rescale f) = (Go.makeOp tin e.1 e.2).rescale f := by
  have hbase : (Go.baseOp e.1 (e.2.rescale f) : Go.TokenOp τ υ) = (Go.baseOp e.1 e.2).rescale f := by
    simp only [Go.baseOp, Go.TokenOp.rescale, OpDef.rescale, hf.left he, hf.right he]
    rfl
  simp only [Go.makeOp, hbase]
  have hkinds : (e.2.rescale f).kinds = e.2.kinds := rfl
  rw [hkinds]
  split_ifs <;> rfl

theorem Go.makeAllOps_rescale (hf : Rescales T f) :
    Go.makeAllOps tin (T.rescale f).entries =
      (Go.makeAllOps tin T.entries).map (Go.TokenOp.rescale f) := by
  have hsort : (T.rescale f).entries.insertionSort (fun a b => a.1 ≤ b.1) =
      (T.entries.insertionSort fun a b => a.1 ≤ b.1).map fun e => (e.1, e.2.rescale f) :=
    (List.map_insertionSort (fun a b => a.1 ≤ b.1) (fun a b => a.1 ≤ b.1)
      (fun e : String × OpDef υ => (e.1, e.2.rescale f)) T.entries fun _ _ _ _ => Iff.rfl).symm
  rw [Go.makeAllOps, Go.makeAllOps, hsort, List.map_map, List.map_map]
  refine List.map_congr_left fun e he => ?_
  exact Go.makeOp_rescale tin hf ((List.mem_insertionSort _).1 he)

theorem Go.inPowers_makeOp (he : e ∈ T.entries) : InPowers T (Go.makeOp tin e.1 e.2).toResolved := by
  unfold Go.makeOp
  split_ifs <;> exact ⟨left_mem_powers he, right_mem_powers he⟩

theorem Go.rescaled_byTin (hf : Rescales T f) (k : Kind) (token : Go.TokenOp τ υ → Option τ)
    (ht : ∀ op, token (op.rescale f) = token op) :
    MapRescaled T f (Go.byTin k token (Go.makeAllOps tin T.entries))
      (Go.byTin k token (Go.makeAllOps tin (T.rescale f).entries)) := by
  rw [Go.makeAllOps_rescale tin hf]
  refine ⟨?_, fun b hb => ?_⟩
  · rw [Go.byTin, Go.byTin, List.filter_map, List.filterMap_map, List.map_filterMap]
    refine List.filterMap_congr fun op _ => ?_
    simp only [Function.comp_apply, ht, Option.map_map]
    rfl
  · obtain ⟨op, hop, hb⟩ := List.mem_filterMap.1 hb
    obtain ⟨t, -, rfl⟩ := Option.map_eq_some_iff.1 hb
    obtain ⟨e, he, rfl⟩ := List.mem_map.1 (List.mem_filter.1 hop).1
    exact Go.inPowers_makeOp tin ((List.mem_insertionSort _).1 he)

/-- Every port looks up in the rescaled table what it looks up in the table, with its powers
rescaled. -/
theorem resolve_rescale [DecidableEq τ] (hf : Rescales T f) (k : Kind) (s : String) (L : Language) :
    resolve tin (T.rescale f) k s L = (resolve tin T k s L).map (Resolved.rescale f) ∧
      ∀ r ∈ resolve tin T k s L, InPowers T r := by
  cases L with
  | typescript =>
    simp only [resolve]
    split_ifs
    · exact (Ts.rescaled_makeParenMap tin hf).get _
    · exact (Ts.rescaled_makeOpMap tin hf k).get _
  | rust =>
    simp only [resolve]
    split_ifs
    · exact (Rust.rescaled_makeParenMap tin hf).get _
    · exact (Rust.rescaled_makeOpMap tin hf k).get _
  | go =>
    have htin := (Go.rescaled_byTin tin hf k Go.TokenOp.tin fun _ => rfl).get (tin s)
    cases k with
    | parenOp => exact (Go.rescaled_byTin tin hf _ Go.TokenOp.otin fun _ => rfl).get (tin s)
    | prefixOp | suffixOp | infixOp => exact htin
    | ternaryOp =>
      have hctin := (Go.rescaled_byTin tin hf .ternaryOp Go.TokenOp.ctin fun _ => rfl).get (tin s)
      simp only [resolve, htin.1, hctin.1, Option.map_or]
      refine ⟨trivial, fun r hr => ?_⟩
      obtain hr | ⟨-, hr⟩ := Option.or_eq_some_iff.1 hr
      · exact htin.2 r hr
      · exact hctin.2 r hr

end Rescales

/-! ## Runs over a table -/

/-- The port whose nodes are rewritten in place, among all. -/
def Lang.language : Lang → Language
  | .typescript => .typescript
  | .rust => .rust

section Table

variable (tin : String → τ) [DecidableEq τ] (T : OpTable υ) (L : Language)

/-- The operator an alternate finds, as the kind it looks for. -/
def lookupOp (k : Kind) (s : String) : Option Op :=
  (resolve tin T k s L).map fun r => ⟨r.name, r.src, k, r.left, r.right⟩

/-- A token, written as a source text, with the operator of the table.  The tokens of a paren belong to
another rule. -/
def readTok : OpTree.Sym String (Val α) → Option (OpTree.Sym Op (Val α))
  | .leaf v => some (.leaf v)
  | .pre s => (lookupOp tin T L .prefixOp s).map .pre
  | .suf s => (lookupOp tin T L .suffixOp s).map .suf
  | .inf s => (lookupOp tin T L .infixOp s).map .inf
  | .opn _ => none
  | .cls _ => none

/-- The tokens of a text with the operators of the table. -/
def readToks : List (OpTree.Sym String (Val α)) → Option (List (OpTree.Sym Op (Val α)))
  | [] => some []
  | tok :: toks => (readTok tin T L tok).bind fun t => (readToks toks).map (t :: ·)

/-- The run over the operators of the table. -/
def Run.over (lang : Lang) (ts : List (OpTree.Sym String (Val α))) (r : Run (lang.port (α := α))) :
    Option (Run (lang.port (α := α))) :=
  (readToks tin T lang.language ts).bind fun toks => Run.run toks r

/-- The run of Go over the operators of the table. -/
def Go.Run.over (ts : List (OpTree.Sym String (Val α))) (r : Go.Run α) : Option (Go.Run α) :=
  (readToks tin T .go ts).bind fun toks => Go.Run.run toks r

variable {tin T L} {f : ℤ → ℤ}

theorem rel_lookupOp (hf : Rescales T f) (k : Kind) (s : String) :
    Option.Rel (Counterpart T f) (lookupOp tin T L k s) (lookupOp tin (T.rescale f) L k s) := by
  obtain ⟨he, hp⟩ := resolve_rescale tin hf k s L
  rw [lookupOp, lookupOp, he]
  cases hr : resolve tin T k s L with
  | none => exact .none
  | some r =>
    obtain ⟨hl, hr⟩ := hp r (by rw [hr]; rfl)
    exact .some ⟨rfl, hl, hr⟩

theorem rel_readTok (hf : Rescales T f) (tok : OpTree.Sym String (Val α)) :
    Option.Rel (TokRel (Counterpart T f)) (readTok tin T L tok) (readTok tin (T.rescale f) L tok) := by
  cases tok with
  | leaf v => exact .some (.leaf v)
  | opn | cls => exact .none
  | pre s => exact (rel_lookupOp hf .prefixOp s).map fun _ _ ho => .pre ho
  | suf s => exact (rel_lookupOp hf .suffixOp s).map fun _ _ ho => .suf ho
  | inf s => exact (rel_lookupOp hf .infixOp s).map fun _ _ ho => .inf ho

theorem rel_readToks (hf : Rescales T f) (ts : List (OpTree.Sym String (Val α))) :
    Option.Rel (List.Forall₂ (TokRel (Counterpart T f))) (readToks tin T L ts)
      (readToks tin (T.rescale f) L ts) := by
  induction ts with
  | nil => exact .some .nil
  | cons tok ts ih =>
    refine (rel_readTok hf tok).bind fun t t' ht => ?_
    exact ih.map fun _ _ hts => .cons ht hts

/-- A run over the rescaled table goes as the run over the table does: it makes the same nodes over the
same terms, each operator replaced by its counterpart. -/
theorem run_rescaled (hf : Rescales T f) (ts : List (OpTree.Sym String (Val α))) :
    (∀ (lang : Lang) (r r' : Run (lang.port (α := α))), Run.Rel (Counterpart T f) r r' →
      Option.Rel (Run.Rel (Counterpart T f)) (r.over tin T lang ts) (r'.over tin (T.rescale f) lang ts)) ∧
    ∀ r r' : Go.Run α, Go.Run.Rel (Counterpart T f) r r' →
      Option.Rel (Go.Run.Rel (Counterpart T f)) (r.over tin T ts) (r'.over tin (T.rescale f) ts) :=
  ⟨fun _ _ _ h => (rel_readToks hf ts).bind fun _ _ hts => h.run hf.alike hts,
    fun _ _ h => (rel_readToks hf ts).bind fun _ _ hts => h.run hf.alike hts⟩

end Table

/-- A small table: an infix operator, a prefix operator whose left power is declared as a zero, and a
suffix operator between them. -/
def arith : OpTable Unit where
  entries :=
    [("addition", ⟨.text "+", "", "", some 1, some 2, [.infixOp], none, none, by simp⟩),
      ("negative", ⟨.text "-", "", "", some 0, some 4, [.prefixOp], none, none, by simp⟩),
      ("factorial", ⟨.text "!", "", "", some 3, none, [.suffixOp], none, none, by simp⟩)]
  distinct := by decide

/-- The powers spread out, and two of them negative now. -/
def spread (p : ℤ) : ℤ := if p = minSafeInteger ∨ p = maxSafeInteger then p else 10 * p - 25

theorem rescales_spread : Rescales arith spread where
  strictMono := by
    intro p hp q hq hpq
    have hpowers : ∀ p ∈ arith.powers,
        p = minSafeInteger ∨ p = maxSafeInteger ∨ p = 1 ∨ p = 2 ∨ p = 3 ∨ p = 4 := by
      rintro p (h | h | ⟨h0, e, he, h⟩)
      · exact Or.inl h
      · exact Or.inr (Or.inl h)
      · simp only [arith, List.mem_cons, List.not_mem_nil, or_false] at he
        obtain rfl | rfl | rfl := he <;> simp at h <;> omega
    obtain rfl | rfl | rfl | rfl | rfl | rfl := hpowers p hp <;>
      obtain rfl | rfl | rfl | rfl | rfl | rfl := hpowers q hq <;> revert hpq <;> decide
  min := by decide
  max := by decide
  ne_zero := by
    intro e he p hp h0
    simp only [arith, List.mem_cons, List.not_mem_nil, or_false] at he
    obtain rfl | rfl | rfl := he <;> simp at hp <;> obtain rfl | rfl := hp <;> revert h0 <;> decide

/-- `-1! + 2`. -/
def arithText : List (OpTree.Sym String (Val ℕ)) :=
  [.pre "-", .leaf (.atom 1), .suf "!", .inf "+", .leaf (.atom 2)]

theorem run_rescaled_arith :
    Rescales arith spread ∧
    (∀ lang : Lang, Option.Rel (Run.Rel (Counterpart arith spread))
      ((Run.start (P := lang.port) lang.start).over id arith lang arithText)
      ((Run.start lang.start).over id (arith.rescale spread) lang arithText)) ∧
    Option.Rel (Go.Run.Rel (Counterpart arith spread))
      ((Go.Run.start Store.empty).over id arith arithText)
      ((Go.Run.start Store.empty).over id (arith.rescale spread) arithText) := by
  refine ⟨rescales_spread, fun lang => (run_rescaled rescales_spread arithText).1 lang _ _ ?_,
    (run_rescaled rescales_spread arithText).2 _ _ ?_⟩
  · refine ⟨⟨rfl, fun i => ?_⟩, rfl, rfl, rfl⟩
    cases lang <;> exact .none
  · exact ⟨⟨rfl, fun _ => .none⟩, rfl⟩

end TabnasExpr
