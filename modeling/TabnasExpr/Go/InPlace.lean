import TabnasExpr.Go.ArrayTrees

/-!
# What the exported `Prattify` leaves under its argument

`Prattify` writes to arrays and gives boxes new slices.  What it writes to an array is in the caller's
expression, and so is a new slice given to a box of it; a new slice given to a box that was made over a
slice of it is not.  `Lands` says that the operator reaches its place in the caller's expression.
-/

namespace TabnasExpr.Go.Arrays

open Rose Terms

variable {α : Type*} {m m' m₁ : Memory α} {t x y : Tree α} {ts us l r : List (Tree α)} {b i j k : ℕ}
  {op q exprOp : Op} {fuel : ℕ}

/-- An operator goes around the whole expression `exprOp` heads. -/
def GoesAround (exprOp op : Op) : Prop :=
  exprOp.kind = .parenOp ∨ op.kind = .infixOp ∧ (exprOp.kind = .suffixOp ∨ op.left ≤ exprOp.right) ∨
    op.kind = .suffixOp ∧ ¬ (exprOp.kind ≠ .suffixOp ∧ exprOp.right ≤ op.left)

/-- An operator goes down into an operand headed by `lastOp`. -/
def GoesDown (lastOp op : Op) : Prop :=
  (op.kind = .infixOp ∧ lastOp.kind ≠ .parenOp ∧ lastOp.kind ≠ .ternaryOp ∨
    op.kind = .suffixOp ∧ (lastOp.kind = .prefixOp ∨ lastOp.kind = .infixOp)) ∧ lastOp.right < op.left

instance (exprOp op : Op) : Decidable (GoesAround exprOp op) := inferInstanceAs (Decidable (_ ∨ _))

instance (lastOp op : Op) : Decidable (GoesDown lastOp op) := inferInstanceAs (Decidable (_ ∧ _))

/-- The placement of an operator in the Go port. -/
def placement (op : Op) : Placement α where
  around exprOp := GoesAround exprOp op
  down lastOp := GoesDown lastOp op
  wrap t := .node (some op) (operands op [t])
  put x := .node (some op) (operands op (kept op x))

mutual

/-- An infix or suffix operator reaches its place in an expression: it goes into no paren
expression, the slot it goes to is there, and where it goes around an expression the caller holds it
in a box.  An infix operator boxes what it goes down to. -/
def Lands (op : Op) : Bool → Tree α → Prop
  | _, .leaf _ => False
  | _, .node (_, .listRef) ts => LandsIn op ts
  | _, .node (_, .array none) _ => False
  | boxed, .node (_, .array (some exprOp)) ts =>
    exprOp.kind ≠ .parenOp ∧
      if GoesAround exprOp op then boxed = true else LandsAt op (exprOp.terms - 1) ts

def LandsIn (op : Op) : List (Tree α) → Prop
  | [t] => Lands op true t
  | _ => False

def LandsAt (op : Op) : ℕ → List (Tree α) → Prop
  | 0, t :: _ =>
    (label id (plain t)).any (fun lastOp => GoesDown lastOp op) = true →
      Lands op (decide (op.kind = .infixOp)) t
  | k + 1, _ :: ts => LandsAt op k ts
  | _, [] => False

end

section Lands

variable {boxed : Bool}

theorem lands_box : Lands op boxed (.node (b, .listRef) [t]) ↔ Lands op true t := by
  rw [Lands, LandsIn]

theorem landsAt_append (hl : l.length = k) : LandsAt op k (l ++ x :: r) ↔
    ((label id (plain x)).any (fun lastOp => GoesDown lastOp op) = true →
      Lands op (decide (op.kind = .infixOp)) x) := by
  induction l generalizing k with
  | nil =>
    cases hl
    rw [List.nil_append, List.length_nil, LandsAt]
  | cons t l ih =>
    cases hl
    rw [List.cons_append, List.length_cons, LandsAt, ih rfl]

theorem not_landsAt (h : ts.length ≤ k) : ¬ LandsAt op k ts := by
  induction ts generalizing k with
  | nil => cases k <;> rw [LandsAt] <;> exact id
  | cons t ts ih =>
    cases k with
    | zero => simp at h
    | succ k =>
      rw [LandsAt]
      exact ih (Nat.le_of_succ_le_succ h)

theorem lands_array (hp : exprOp.kind ≠ .parenOp) (ha : ¬ GoesAround exprOp op) :
    Lands op boxed (.node (j, .array (some exprOp)) ts) ↔ LandsAt op (exprOp.terms - 1) ts := by
  rw [Lands, if_neg ha]
  exact and_iff_right hp

end Lands

/-- What a call does with the expression `t`: something is left in its place, which is what `placement`
makes of it exactly when `L` holds; and then, for an infix operator, the box handed back is that of the
operator. -/
def Outcome (m : Memory α) (op : Op) (t : Tree α) (r : Option (Memory α × ℕ)) (L : Prop) : Prop :=
  ∃ m' out t', r = some (m', out) ∧ Rose.Rewrites objects m m' [] t t' ∧
    (plain t' = place (placement op) (plain t) ↔ L) ∧
    (L → op.kind = .infixOp → out ∈ ids t' ∧
      ∃ u, Rose.Stores objects m' u ∧ objects.slot u = .box out ∧
        plain u = made (placement op) (plain t))

/-- What is done to the array of an expression is done to the expression. -/
theorem Over.outcome {r : Option (Memory α × ℕ)} {L : Prop} (h : Over m m₁ t b j q ts)
    (ho : Outcome m₁ op (.node (j, .array (some q)) ts) r L) : Outcome m op t r L := by
  obtain ⟨m', out, arr', hr, hrw, hiff, hout⟩ := ho
  obtain ⟨t', hrw', hplain, hids⟩ := h.lift hrw
  rw [plain_array, ← h.plain_eq] at hiff hout
  refine ⟨m', out, t', hr, hrw', hplain ▸ hiff, fun hL hop => ?_⟩
  obtain ⟨hin, hu⟩ := hout hL hop
  exact ⟨hids out hin, hu⟩

theorem Over.lands (h : Over m m₁ t b j q ts) (hp : q.kind ≠ .parenOp) (ha : ¬ GoesAround q op)
    {boxed : Bool} : Lands op boxed t ↔ LandsAt op (q.terms - 1) ts := by
  obtain ⟨rfl, -⟩ | ⟨rfl, -⟩ := h.form
  · rw [lands_box, lands_array hp ha]
  · rw [lands_array hp ha]

theorem Over.lands_true (h : Over m m₁ t b j q ts) {boxed : Bool} :
    Lands op boxed (.node (b, .listRef) [.node (j, .array (some q)) ts]) ↔ Lands op true t := by
  obtain ⟨rfl, -⟩ | ⟨rfl, -⟩ := h.form
  · rw [lands_box, lands_box]
  · rw [lands_box]

theorem Outcome.congr {r : Option (Memory α × ℕ)} {L L' : Prop} (h : Outcome m op t r L) (hL : L' ↔ L) :
    Outcome m op t r L' := by
  rwa [hL]

theorem Outcome.after {m₂ : Memory α} {r : Option (Memory α × ℕ)} {L : Prop}
    (h : Outcome m₂ op y r L) (hrw : Rose.Rewrites objects m m₂ [] t y) (hy : plain y = plain t) :
    Outcome m op t r L := by
  obtain ⟨m', out, t', hr, hrw', hiff, hout⟩ := h
  rw [hy] at hiff hout
  exact ⟨m', out, t', hr, hrw.trans hrw', hiff, hout⟩

/-- A box outside an expression still stands over its array. -/
theorem val_of_rewrites (h : Rose.Rewrites objects m m' [] t y) (hv : val m b = some j)
    (hb : b ∉ ids t) :
    val m' b = some j := by
  have hlive : m.cell b ≠ none := fun hn => by simp [val, hn] at hv
  rw [val, h.frame b hb List.not_mem_nil hlive]
  exact hv

theorem Over.not_mem (h : Over m m₁ t b j q ts) : b ∉ ids (.node (j, .array (some q)) ts) := by
  have hn := h.held.nodup
  rw [ids_node, idsAll_cons, idsAll_nil, List.append_nil] at hn
  exact (List.nodup_cons.1 hn).1

/-! ## Putting a new expression in the place of an operand -/

/-- The operand at the index of an operator, with what stands around it. -/
theorem exists_operand (k : ℕ) (ts : List (Tree α)) :
    ts.length ≤ k ∨ ∃ l x r, l.length = k ∧ ts = l ++ x :: r := by
  rcases Nat.lt_or_ge k ts.length with hk | hk
  · refine Or.inr ⟨ts.take k, ts[k], ts.drop (k + 1), ?_, ?_⟩
    · rw [List.length_take, min_eq_left hk.le]
    · rw [← List.drop_eq_getElem_cons hk, List.take_append_drop]
  · exact Or.inl hk

theorem getElem?_append_cons (hl : l.length = k) : (l ++ x :: r)[k]? = some x := by
  rw [← hl, List.getElem?_append_right le_rfl, Nat.sub_self]
  rfl

theorem place_append (ha : ¬ GoesAround q op) (hl : l.length = q.terms - 1) :
    place (placement op) (plain (.node (j, .array (some q)) (l ++ x :: r))) =
      .node (some q) (l.map plain ++ placeOperand (placement op) (plain x) :: r.map plain) := by
  have hlen : (l.map plain).length = q.terms - 1 := by rw [List.length_map, hl]
  rw [plain_array, List.map_append, List.map_cons]
  exact place_into _ (decide_eq_false ha) (pad_append hlen) hlen

theorem made_append (ha : ¬ GoesAround q op) (hl : l.length = q.terms - 1) :
    made (placement op) (plain (.node (j, .array (some q)) (l ++ x :: r))) =
      if (label id (plain x)).any (fun lastOp => GoesDown lastOp op) then made (placement op) (plain x)
      else .node (some op) (operands op (kept op (plain x))) := by
  have hlen : (l.map plain).length = q.terms - 1 := by rw [List.length_map, hl]
  rw [plain_array, List.map_append, List.map_cons]
  exact made_into _ (decide_eq_false ha) hlen

/-- The new expression stands where the operand did, and has it as its own. -/
theorem outcome_put (hv : val m b = some j)
    (h : Rose.Held objects m (.node (j, .array (some q)) (l ++ x :: r))) (hl : l.length = q.terms - 1)
    (hpre : op.kind ≠ .prefixOp) (ha : ¬ GoesAround q op)
    (hd : (label id (plain x)).any (fun lastOp => GoesDown lastOp op) = false) (out : ℕ)
    (hout : op.kind = .infixOp → out = m.last + 2) :
    Outcome m op (.node (j, .array (some q)) (l ++ x :: r))
      (some (setSlot (makeExpr m op [objects.slot x]).1 b q.terms (.box (m.last + 2)), out))
      (LandsAt op (q.terms - 1) (l ++ x :: r)) := by
  have hxs : ∀ u ∈ [x], Rose.Held objects m u := fun u hu => by
    rw [List.mem_singleton.1 hu]
    exact h.arg.1
  have hy : Rose.Held objects (makeExpr m op [objects.slot x]).1 (exprTree m op [x]) :=
    held_makeExpr hxs (le_refl 1) op
  have hext := extends_makeExpr (m := m) op [objects.slot x]
  have hkept : kept op (plain x) = [plain x] := if_neg hpre
  have hrw := rewrites_setSlot (G := []) h (val_of_extends hext hv) hl hext hy
    (fun i hi => (ids_exprTree_singleton hi).imp_right Or.inr) (by simp)
  refine ⟨_, out, _, rfl, hrw, iff_of_true ?_ ?_, fun _ hop =>
    ⟨?_, exprTree m op [x], hrw.held.stores.args _ (by simp), ?_, ?_⟩⟩
  · rw [place_append ha hl, placeOperand, if_neg (by simp [placement, hd])]
    simp [placement, plain_exprTree, hkept]
  · rw [landsAt_append hl, hd]
    exact fun h => absurd h Bool.false_ne_true
  · rw [hout hop]
    refine mem_ids_of_mem (t := exprTree m op [x]) (by simp) ?_
    rw [exprTree, ids_node]
    exact List.mem_cons_self
  · rw [hout hop]
    rfl
  · rw [made_append ha hl, hd, if_neg Bool.false_ne_true, hkept, plain_exprTree]
    rfl

/-- Nothing is written to what was there before the box. -/
theorem Over.extends_wrapExpr (h : Over m m₁ t b j q ts) (hb : m.cell b = none) (op : Op) :
    m.Extends (wrapExpr m₁ b op) := by
  intro i hi
  have hib : i ≠ b := by
    rintro rfl
    exact hi hb
  rw [cell_wrapExpr h.val_eq (cell_array h.heldArray.stores) op hib (by rwa [h.ext i hi]), h.ext i hi]

/-- The box is given a new slice, with a copy of the expression as an operand. -/
theorem outcome_wrap (h : Over m m₁ t b j q ts) (ha : GoesAround q op) (hp : q.kind ≠ .parenOp) :
    Outcome m op t (some (wrapExpr m₁ b op, b)) (Lands op false t) := by
  have hplace : place (placement op) (plain t) = .node (some op) (operands op [plain t]) := by
    rw [h.plain_eq]
    exact place_around _ (decide_eq_true ha) _
  obtain ⟨rfl, rfl⟩ | ⟨rfl, hb⟩ := h.form
  · have hplain : plain (wrapTree m₁ b op (some q) ts) = .node (some op) (operands op
        [plain (.node (b, .listRef) [.node (j, .array (some q)) ts])]) := by
      rw [plain_box]
      exact plain_wrapTree
    refine ⟨_, b, _, rfl, rewrites_wrapExpr h.held op, iff_of_true ?_ ?_, fun _ _ => ⟨?_, _,
      (rewrites_wrapExpr h.held op).held.stores, rfl, ?_⟩⟩
    · rw [hplace, hplain]
    · rw [lands_box, Lands, if_pos ha]
      exact ⟨hp, rfl⟩
    · rw [wrapTree, ids_node]
      exact List.mem_cons_self
    · rw [hplain, h.plain_eq]
      exact (made_around (placement op) (decide_eq_true ha) _).symm
  -- The caller holds the slice, and sees nothing of what is done to the box made over it.
  · refine ⟨_, b, _, rfl, Rose.Rewrites.same h.source (h.extends_wrapExpr hb op), iff_of_false ?_ ?_,
      fun hL => ?_⟩
    · rw [hplace]
      exact ne_node_of_mem (by simp [operands_eq])
    · rw [Lands, if_pos ha]
      exact fun h => Bool.false_ne_true h.2
    · rw [Lands, if_pos ha] at hL
      exact absurd hL.2 Bool.false_ne_true

/-- A slot that is missing leaves the operator out. -/
theorem outcome_missing (h : Rose.Held objects m (.node (j, .array (some q)) ts))
    (hlen : ts.length ≤ q.terms - 1) (ha : ¬ GoesAround q op) (out : ℕ) :
    Outcome m op (.node (j, .array (some q)) ts) (some (m, out)) (LandsAt op (q.terms - 1) ts) := by
  have hnot : ¬ LandsAt op (q.terms - 1) ts := not_landsAt hlen
  refine ⟨m, out, _, rfl, Rose.Rewrites.refl h, iff_of_false ?_ hnot, fun hL => absurd hL hnot⟩
  rw [plain_array]
  exact ne_place_of_length (placement op) (decide_eq_false ha) (by simpa using hlen)

/-! ## Infix operators -/

section Infix

theorem opOf_over (h : Over m m₁ t b j q ts) : opOf m₁ (.box b) = some q := by
  have := opOf_slot h.held.stores (.box b j (some q) ts h.shaped)
  rwa [slot_box, plain_box, plain_array] at this

theorem slotAt_over (h : Over m m₁ t b j q ts) (k : ℕ) :
    slotAt m₁ b k = (ts[k - 1]?).map objects.slot :=
  slotAt_eq h.val_eq h.heldArray.stores k

/-- The operand a new expression or the way down is looked for at is given a box. -/
theorem rewrites_rebox {m₂ : Memory α} {sb j' : ℕ} {q' : Op} {us : List (Tree α)}
    (hv : val m b = some j) (h : Rose.Held objects m (.node (j, .array (some q)) (l ++ x :: r)))
    (hl : l.length = q.terms - 1) (hx : Over m m₂ x sb j' q' us) :
    Rose.Rewrites objects m (setSlot m₂ b q.terms (.box sb)) []
      (.node (j, .array (some q)) (l ++ x :: r))
      (.node (j, .array (some q))
        (l ++ .node (sb, .listRef) [.node (j', .array (some q')) us] :: r)) := by
  refine rewrites_setSlot h (val_of_extends hx.ext hv) hl hx.ext hx.held (fun i hi => ?_) (by simp)
  obtain ⟨rfl, -⟩ | ⟨rfl, hb⟩ := hx.form
  · exact .inl hi
  · rw [ids_node, idsAll_cons, idsAll_nil, List.append_nil, List.mem_cons] at hi
    obtain rfl | hi := hi
    · exact .inr (.inr hb)
    · exact .inl hi

/-- The operator goes down into an operand. -/
theorem outcome_down {m₂ : Memory α} {r₁ r₂ : Option (Memory α × ℕ)} {L : Prop}
    (hl : l.length = q.terms - 1) (ha : ¬ GoesAround q op)
    (hd : (label id (plain x)).any (fun lastOp => GoesDown lastOp op) = true)
    (hrw : Rose.Rewrites objects m m₂ [] (.node (j, .array (some q)) (l ++ x :: r))
      (.node (j, .array (some q)) (l ++ y :: r)))
    (hy : plain y = plain x) (ho : Outcome m₂ op y r₁ L)
    (hr : ∀ m' out, r₁ = some (m', out) →
      ∃ out', r₂ = some (m', out') ∧ (op.kind = .infixOp → out' = out))
    (hL : L ↔ Lands op (decide (op.kind = .infixOp)) x) :
    Outcome m op (.node (j, .array (some q)) (l ++ x :: r)) r₂
      (LandsAt op (q.terms - 1) (l ++ x :: r)) := by
  obtain ⟨m', out, y', hr₁, hrw', hiff, hout⟩ := ho
  obtain ⟨out', hr₂, hsame⟩ := hr m' out hr₁
  have hlands : LandsAt op (q.terms - 1) (l ++ x :: r) ↔ L := by
    rw [landsAt_append hl, hL]
    exact ⟨fun h => h hd, fun h _ => h⟩
  have hrw₂ := hrw.trans (Rose.Rewrites.arg hrw.held hrw' (by simp))
  refine ⟨m', out', _, hr₂, hrw₂, ?_, fun hL hop => ?_⟩
  · rw [place_append ha hl, placeOperand, if_pos (by simpa [placement] using hd), hlands, ← hiff, hy,
      plain_array]
    simp
  · obtain ⟨hin, u, hu, hslot, hmade⟩ := hout (hlands.1 hL) hop
    rw [hsame hop]
    refine ⟨mem_ids_of_mem (by simp) hin, u, hu, hslot, ?_⟩
    rw [hmade, made_append ha hl, if_pos hd, hy]

/-- An infix operator is integrated into an expression. -/
theorem outcome_infix (hop : op.kind = .infixOp) (h : Rose.Held objects m t) (hs : Shaped t)
    (hq : label id (plain t) = some q) (hp : q.kind ≠ .parenOp) (hfuel : count (plain t) ≤ fuel) :
    Outcome m op t (prattifyFrom fuel m (objects.slot t) op) (Lands op false t) := by
  induction fuel generalizing m t q with
  | zero =>
    obtain ⟨m₁, b, j, ts, hover⟩ := exists_over h hs hq
    rw [hover.plain_eq, count_node] at hfuel
    omega
  | succ fuel ih =>
    obtain ⟨m₁, b, j, ts, hover⟩ := exists_over h hs hq
    rw [prattifyFrom, hover.boxed]
    simp only [opOf_over hover, hp, if_false, hop]
    by_cases hw : q.kind = .suffixOp ∨ op.left ≤ q.right
    · rw [if_pos hw]
      exact outcome_wrap hover (Or.inr (Or.inl ⟨hop, hw⟩)) hp
    have ha : ¬ GoesAround q op := by simp [GoesAround, hop, hw, hp]
    rw [if_neg hw, slotAt_over hover]
    refine (Over.outcome hover ?_).congr (hover.lands hp ha)
    obtain hlen | ⟨l, x, r, hl, rfl⟩ := exists_operand (q.terms - 1) ts
    · rw [List.getElem?_eq_none hlen]
      exact outcome_missing hover.heldArray hlen ha b
    rw [getElem?_append_cons hl, Option.map_some]
    dsimp only
    have hx : Rose.Held objects m₁ x := hover.heldArray.arg.1
    have hsx : Shaped x := hover.shaped x (by simp)
    rw [opOf_slot hx.stores hsx]
    have hpre : op.kind ≠ .prefixOp := by simp [hop]
    cases hqx : label id (plain x) with
    | none =>
      exact outcome_put hover.val_eq hover.heldArray hl hpre ha (by rw [hqx]; rfl) _ fun _ => rfl
    | some q' =>
      obtain ⟨m₂, sb, j', us, hx'⟩ := exists_over hx hsx hqx
      rw [hx'.boxed]
      dsimp only
      have hrw := rewrites_rebox hover.val_eq hover.heldArray hl hx'
      have hplain : plain (.node (sb, .listRef) [.node (j', .array (some q')) us]) = plain x := by
        rw [plain_box, plain_array, hx'.plain_eq]
      have hsx' : Shaped (.node (sb, .listRef) [.node (j', .array (some q')) us]) :=
        .box _ _ _ _ hx'.shaped
      by_cases hd : q'.kind ≠ .parenOp ∧ q'.kind ≠ .ternaryOp ∧ q'.right < op.left
      · have hdown : GoesDown q' op := ⟨Or.inl ⟨hop, hd.1, hd.2.1⟩, hd.2.2⟩
        rw [if_pos hd]
        refine outcome_down hl ha (by rw [hqx]; exact decide_eq_true hdown) hrw hplain
          (ih hrw.held.arg.1 hsx' (hplain ▸ hqx) hd.1 ?_) (fun m' out hr => ⟨out, hr, fun _ => rfl⟩) ?_
        · rw [hplain]
          rw [hover.plain_eq] at hfuel
          simp only [count_node, List.map_append, List.map_cons, countAll_append,
            countAll_cons] at hfuel
          omega
        · rw [hx'.lands_true, hop]
          rfl
      · have hdown : ¬ GoesDown q' op := by
          rintro ⟨⟨-, h₁, h₂⟩ | ⟨h₁, -⟩, h₃⟩
          · exact hd ⟨h₁, h₂, h₃⟩
          · rw [hop] at h₁
            cases h₁
        have hnot : (label id (plain (.node (sb, .listRef) [.node (j', .array (some q')) us]))).any
            (fun lastOp => GoesDown lastOp op) = false := by
          rw [hplain, hqx]
          exact decide_eq_false hdown
        have hput := outcome_put (val_of_rewrites hrw hover.val_eq hover.not_mem) hrw.held hl hpre ha hnot
          _ fun _ => rfl
        rw [if_neg hd]
        refine (hput.after hrw (by simp [hplain])).congr ?_
        rw [landsAt_append hl, landsAt_append hl, hnot, ← hplain, hnot]
        exact iff_of_true (fun h => absurd h Bool.false_ne_true) fun h => absurd h Bool.false_ne_true

end Infix

/-! ## Suffix operators -/

/-- A suffix operator goes around an expression that lacks the slot it goes to. -/
theorem outcome_wrap_missing (h : Over m m₁ t b j q ts) (hop : op.kind = .suffixOp)
    (ha : ¬ GoesAround q op) (hlen : ts.length ≤ q.terms - 1) :
    Outcome m op t (some (wrapExpr m₁ b op, b)) (LandsAt op (q.terms - 1) ts) := by
  have hnot : ¬ LandsAt op (q.terms - 1) ts := not_landsAt hlen
  have hplace : ∃ vs, place (placement op) (plain t) = .node (some q) vs := by
    obtain ⟨l, x, r, hl, hpad⟩ := exists_pad (q.terms - 1) (ts.map plain)
    rw [h.plain_eq]
    exact ⟨_, place_into (placement op) (decide_eq_false ha) hpad hl⟩
  have hqop : op ≠ q := by
    rintro rfl
    exact ha (Or.inr (Or.inr ⟨hop, fun h => h.1 hop⟩))
  obtain ⟨rfl, rfl⟩ | ⟨rfl, hb⟩ := h.form
  · refine ⟨_, b, _, rfl, rewrites_wrapExpr h.held op, iff_of_false (fun he => ?_) hnot,
      fun hL => absurd hL hnot⟩
    obtain ⟨vs, hvs⟩ := hplace
    rw [hvs, wrapTree, plain_box, plain_array] at he
    exact hqop (Option.some.inj (Rose.node.inj he).1)
  · refine ⟨_, b, _, rfl, Rose.Rewrites.same h.source (h.extends_wrapExpr hb op),
      iff_of_false ?_ hnot, fun hL => absurd hL hnot⟩
    rw [plain_array]
    exact ne_place_of_length (placement op) (decide_eq_false ha) (by simpa using hlen)

/-- A suffix operator is integrated into an expression. -/
theorem outcome_suffix (hop : op.kind = .suffixOp) (h : Rose.Held objects m t) (hs : Shaped t)
    (hq : label id (plain t) = some q) (hp : q.kind ≠ .parenOp) (hfuel : count (plain t) ≤ fuel) :
    Outcome m op t
      ((asListRef m (objects.slot t)).bind fun r => prattifySuffixFrom fuel r.1 (.box r.2) op)
      (Lands op false t) := by
  induction fuel generalizing m t q with
  | zero =>
    obtain ⟨m₁, b, j, ts, hover⟩ := exists_over h hs hq
    rw [hover.plain_eq, count_node] at hfuel
    omega
  | succ fuel ih =>
    obtain ⟨m₁, b, j, ts, hover⟩ := exists_over h hs hq
    rw [hover.boxed, Option.bind_some, prattifySuffixFrom, asListRef]
    simp only [opOf_over hover]
    by_cases hw : q.kind ≠ .suffixOp ∧ q.right ≤ op.left
    · have ha : ¬ GoesAround q op := by simp [GoesAround, hop, hp, hw]
      rw [if_pos ⟨hp, hw⟩, slotAt_over hover]
      obtain hlen | ⟨l, x, r, hl, rfl⟩ := exists_operand (q.terms - 1) ts
      · rw [List.getElem?_eq_none hlen]
        exact (outcome_wrap_missing hover hop ha hlen).congr (hover.lands hp ha)
      refine (Over.outcome hover ?_).congr (hover.lands hp ha)
      rw [getElem?_append_cons hl, Option.map_some]
      dsimp only
      have hx : Rose.Held objects m₁ x := hover.heldArray.arg.1
      have hsx : Shaped x := hover.shaped x (by simp)
      rw [opOf_slot hx.stores hsx]
      have hpre : op.kind ≠ .prefixOp := by simp [hop]
      cases hf : (label id (plain x)).filter fun q =>
          decide ((q.kind = .prefixOp ∨ q.kind = .infixOp) ∧ q.right < op.left) with
      | none =>
        have hdown : (label id (plain x)).any (fun lastOp => GoesDown lastOp op) = false := by
          rw [Option.filter_eq_none_iff] at hf
          cases hqx : label id (plain x) with
          | none => rfl
          | some q' =>
            have hd := hf q' hqx
            refine decide_eq_false ?_
            rintro ⟨⟨h₁, -⟩ | ⟨-, h₂⟩, h₃⟩
            · rw [hop] at h₁
              cases h₁
            · exact hd (decide_eq_true ⟨h₂, h₃⟩)
        exact outcome_put hover.val_eq hover.heldArray hl hpre ha hdown _ fun h => by
          rw [hop] at h
          cases h
      | some q' =>
        obtain ⟨hqx, hd⟩ := Option.filter_eq_some_iff.1 hf
        have hd := of_decide_eq_true hd
        have hdown : GoesDown q' op := ⟨Or.inr ⟨hop, hd.1⟩, hd.2⟩
        have hpx : q'.kind ≠ .parenOp := by
          obtain h | h := hd.1 <;> simp [h]
        refine outcome_down hl ha (by rw [hqx]; exact decide_eq_true hdown)
          (Rose.Rewrites.refl hover.heldArray) rfl (ih hx hsx hqx hpx ?_) (fun m' out hr => ?_) ?_
        · rw [hover.plain_eq] at hfuel
          simp only [count_node, List.map_append, List.map_cons, countAll_append,
            countAll_cons] at hfuel
          omega
        · obtain ⟨s, hs, hr⟩ := Option.bind_eq_some_iff.1 hr
          refine ⟨b, ?_, fun h => ?_⟩
          · rw [hs, Option.bind_some, hr]
            rfl
          · rw [hop] at h
            cases h
        · rw [hop]
          rfl
    · have ha : GoesAround q op := Or.inr (Or.inr ⟨hop, hw⟩)
      rw [if_neg fun h => hw h.2]
      exact outcome_wrap hover ha hp

/-! ## Prefix operators -/

/-- The operands of a node with the first open one among so many of them filled. -/
def fillOwn (y : Terms α) : ℕ → List (Tree α) → Option (List (Terms α))
  | 0, _ => none
  | _ + 1, [] => none
  | _ + 1, .leaf none :: ts => some (y :: ts.map plain)
  | k + 1, t :: ts => (fillOwn y k ts).map (plain t :: ·)

mutual

/-- An expression in a box with its deepest open slot filled, if it has one: the boxes below come first,
then its own slots. -/
def fillOpen (y : Terms α) : Tree α → Option (Terms α)
  | .leaf _ => none
  | .node (_, .listRef) ts => fillVal y ts
  | .node (_, .array _) _ => none

def fillVal (y : Terms α) : List (Tree α) → Option (Terms α)
  | [t] => fillArray y t
  | _ => none

/-- The same for the array of a box. -/
def fillArray (y : Terms α) : Tree α → Option (Terms α)
  | .node (_, .array (some op)) ts =>
    ((fillKids y op.terms ts).or (fillOwn y op.terms ts)).map (.node (some op))
  | _ => none

def fillKids (y : Terms α) : ℕ → List (Tree α) → Option (List (Terms α))
  | 0, _ => none
  | _ + 1, [] => none
  | k + 1, t :: ts =>
    match fillOpen y t with
    | some t' => some (t' :: plainAll ts)
    | none => (fillKids y k ts).map (plain t :: ·)

end

section Fill

variable {n : ℕ}

theorem fillOpen_box (Y : Terms α) : fillOpen Y (.node (b, .listRef) [t]) = fillArray Y t := by
  rw [fillOpen, fillVal]

theorem fillFirst_of_filled {v w : Elem α} {vs : List (Elem α)} (h : w.isUnfilled = false) :
    fillFirst v (w :: vs) = w :: fillFirst v vs := by
  cases w with
  | unfilled => cases h
  | atom | box | slice => rfl

/-- The first open slot of a node. -/
theorem fillOwn_cases (Y : Terms α) (n : ℕ) (ts : List (Tree α)) (v : Elem α) :
    (fillOwn Y n ts = none ∧ ((ts.map objects.slot).take n).any Elem.isUnfilled = false) ∨
      ∃ l r, ts = l ++ .leaf none :: r ∧ fillOwn Y n ts = some (l.map plain ++ Y :: r.map plain) ∧
        ((ts.map objects.slot).take n).any Elem.isUnfilled = true ∧
        fillFirst v (ts.map objects.slot) = l.map objects.slot ++ v :: r.map objects.slot := by
  induction ts generalizing n with
  | nil => cases n <;> exact Or.inl ⟨rfl, rfl⟩
  | cons t ts ih =>
    cases n with
    | zero => exact Or.inl ⟨rfl, rfl⟩
    | succ n =>
      by_cases ht : t = .leaf none
      · subst ht
        exact Or.inr ⟨[], ts, rfl, rfl, rfl, rfl⟩
      have hown : fillOwn Y (n + 1) (t :: ts) = (fillOwn Y n ts).map (plain t :: ·) := by
        rw [fillOwn]
        exact ht
      have hslot : (objects.slot t).isUnfilled = false := by
        cases t with
        | leaf b =>
          cases b with
          | none => exact absurd rfl ht
          | some a => rfl
        | node p us => obtain ⟨i, h | o⟩ := p <;> rfl
      rw [hown, List.map_cons, List.take_succ_cons, List.any_cons, hslot, Bool.false_or,
        fillFirst_of_filled hslot]
      obtain ⟨h₁, h₂⟩ | ⟨l, r, rfl, h₁, h₂, h₃⟩ := ih n
      · exact Or.inl ⟨by rw [h₁]; rfl, h₂⟩
      · exact Or.inr ⟨t :: l, r, rfl, by rw [h₁]; rfl, h₂, by rw [h₃]; rfl⟩

/-- What the walk does at a box over an array: it finds no slot, or it fills the one `fillArray`
does. -/
def Fills (m : Memory α) (y : Tree α) (b : ℕ) (t : Tree α) (seen : List ℕ)
    (r : Option (List ℕ ⊕ Memory α)) : Prop :=
  (fillArray (plain y) t = none ∧
      ∃ seen', r = some (.inl seen') ∧ ∀ i ∈ seen', i ∈ seen ∨ i = b ∨ i ∈ ids t) ∨
    ∃ m' t', r = some (.inr m') ∧ fillArray (plain y) t = some (plain t') ∧
      Rose.Rewrites objects m m' (ids y) t t' ∧ Rose.Stores objects m' y ∧ ∀ i ∈ ids y, i ∈ ids t'

/-- Rewriting the array of a box rewrites the box. -/
theorem rewrites_box {G : List ℕ} (h : Rose.Held objects m (.node (b, .listRef) [t]))
    (hrw : Rose.Rewrites objects m m' G t x) (hG : ∀ i ∈ G, i ∉ ids (.node (b, .listRef) [t])) :
    Rose.Rewrites objects m m' G (.node (b, .listRef) [t]) (.node (b, .listRef) [x]) :=
  Rose.Rewrites.arg (l := []) (r := []) h hrw hG

theorem mem_ids_box : i ∈ ids (.node (b, .listRef) [t]) ↔ i = b ∨ i ∈ ids t := by
  rw [ids_node, idsAll_cons, idsAll_nil, List.append_nil, List.mem_cons]

/-- What the walk through the operands of a node does. -/
def FillsAll (m : Memory α) (y : Tree α) (n : ℕ) (ts : List (Tree α)) (seen : List ℕ)
    (r : Option (List ℕ ⊕ Memory α)) : Prop :=
  (fillKids (plain y) n ts = none ∧
      ∃ seen', r = some (.inl seen') ∧ ∀ i ∈ seen', i ∈ seen ∨ i ∈ idsAll ts) ∨
    ∃ m' l x u x', r = some (.inr m') ∧ ts = l ++ x :: u ∧
      fillKids (plain y) n ts = some (l.map plain ++ plain x' :: u.map plain) ∧
      Rose.Rewrites objects m m' (ids y) x x' ∧ Rose.Stores objects m' y ∧ ∀ i ∈ ids y, i ∈ ids x'

/-- No slot was found in the first operand. -/
theorem FillsAll.cons {seen seen' : List ℕ} {r : Option (List ℕ ⊕ Memory α)}
    (h : FillsAll m y n ts seen' r) (hopen : fillOpen (plain y) t = none)
    (hsub : ∀ i ∈ seen', i ∈ seen ∨ i ∈ ids t) : FillsAll m y (n + 1) (t :: ts) seen r := by
  have hkids : fillKids (plain y) (n + 1) (t :: ts) = (fillKids (plain y) n ts).map (plain t :: ·) := by
    rw [fillKids, hopen]
  obtain ⟨hnone, seen'', hr, hsub'⟩ | ⟨m', l, x, u, x', hr, rfl, hsome, hrw⟩ := h
  · refine Or.inl ⟨by rw [hkids, hnone]; rfl, seen'', hr, fun i hi => ?_⟩
    rw [idsAll_cons, List.mem_append]
    obtain hi | hi := hsub' i hi
    · exact (hsub i hi).imp_right Or.inl
    · exact Or.inr (Or.inr hi)
  · exact Or.inr ⟨m', t :: l, x, u, x', hr, rfl, by rw [hkids, hsome]; rfl, hrw⟩

theorem fillsAll {fill : List ℕ → ℕ → Option (List ℕ ⊕ Memory α)}
    (hfill : ∀ b t seen, .node (b, .listRef) [t] ∈ ts →
      (∀ i ∈ ids (.node (b, .listRef) [t]), i ∉ seen) →
      Fills m y b t seen (fill seen b))
    (hheld : ∀ t ∈ ts, Rose.Held objects m t) (hshaped : ∀ t ∈ ts, Shaped t)
    (hapart : ∀ i ∈ ids y, i ∉ idsAll ts) (hn : (idsAll ts).Nodup) (n : ℕ) (seen : List ℕ)
    (hseen : ∀ i ∈ idsAll ts, i ∉ seen) :
    FillsAll m y n ts seen (fillSubs fill ((ts.map objects.slot).take n) seen) := by
  induction ts generalizing n seen with
  | nil => cases n <;> exact Or.inl ⟨rfl, seen, rfl, fun i hi => Or.inl hi⟩
  | cons t ts ih =>
    cases n with
    | zero => exact Or.inl ⟨rfl, seen, rfl, fun i hi => Or.inl hi⟩
    | succ n =>
      rw [idsAll_cons, List.nodup_append] at hn
      simp only [idsAll_cons, List.mem_append] at hseen
      have hrest : ∀ seen', (∀ i ∈ seen', i ∈ seen ∨ i ∈ ids t) →
          FillsAll m y n ts seen' (fillSubs fill ((ts.map objects.slot).take n) seen') :=
        fun seen' hsub => by
          simp only [List.forall_mem_cons] at hheld hshaped
          refine ih (fun b t seen hb => hfill b t seen (List.mem_cons_of_mem _ hb)) hheld.2 hshaped.2
            (fun i hi hin => hapart i hi (by simp [hin])) hn.2.1 n seen' fun i hi hin => ?_
          obtain hin | hin := hsub i hin
          · exact hseen i (Or.inr hi) hin
          · exact hn.2.2 i hin i hi rfl
      have hskip : fillOpen (plain y) t = none →
          FillsAll m y (n + 1) (t :: ts) seen (fillSubs fill ((ts.map objects.slot).take n) seen) :=
        fun hopen => (hrest seen fun i hi => Or.inl hi).cons hopen fun i hi => Or.inl hi
      have hs : Shaped t := hshaped t List.mem_cons_self
      have ht : Rose.Held objects m t := hheld t List.mem_cons_self
      cases hs with
      | leaf b => cases b <;> exact hskip rfl
      | array => exact hskip rfl
      | box b j o us hus =>
        have hb := hfill b _ seen List.mem_cons_self fun i hi => hseen i (Or.inl hi)
        rw [List.map_cons, slot_box, List.take_succ_cons, fillSubs]
        obtain ⟨hopen, seen', hr, hsub⟩ | ⟨m', t', hr, hopen, hrw⟩ := hb
        · rw [hr]
          refine (hrest seen' fun i hi => ?_).cons (by rw [fillOpen_box, hopen]) fun i hi => ?_
          · exact (hsub i hi).imp_right mem_ids_box.2
          · exact (hsub i hi).imp_right mem_ids_box.2
        · rw [hr]
          refine Or.inr ⟨m', [], _, ts, .node (b, .listRef) [t'], rfl, rfl, ?_,
            rewrites_box ht hrw.1 fun i hi hin => hapart i hi ?_, hrw.2.1,
            fun i hi => mem_ids_box.2 (Or.inr (hrw.2.2 i hi))⟩
          · rw [fillKids, fillOpen_box, hopen, plainAll_eq, plain_box]
            rfl
          · rw [idsAll_cons, List.mem_append]
            exact Or.inl hin

/-- The first open slot of an array is filled. -/
theorem rewrites_fillFirst {v : Elem α} (hy : Rose.Held objects m y) (hv : objects.slot y = v)
    (h : Rose.Held objects m (.node (j, .array (some op)) (l ++ .leaf none :: r)))
    (hapart : ∀ i ∈ ids y, i ∉ ids (.node (j, .array (some op)) (l ++ .leaf none :: r)))
    (hfirst : fillFirst v ((l ++ .leaf none :: r).map objects.slot) =
      l.map objects.slot ++ v :: r.map objects.slot) :
    Rose.Rewrites objects m (m.modify j fun o => { o with elems := fillFirst v o.elems }) (ids y)
      (.node (j, .array (some op)) (l ++ .leaf none :: r))
      (.node (j, .array (some op)) (l ++ y :: r)) := by
  refine Rose.Rewrites.put (x := .leaf none) h (by simp) (fun u hu => h.stores.args u ?_) (fun _ _ => rfl) hy
    (fun i hi => Or.inr (Or.inl hi)) hapart ?_
  · simp only [List.mem_append, List.mem_cons] at hu ⊢
    exact hu.imp_right Or.inr
  · show (⟨.array (some op), fillFirst v ((l ++ .leaf none :: r).map objects.slot)⟩ : Object α) =
      ⟨.array (some op), (l ++ y :: r).map objects.slot⟩
    rw [hfirst, List.map_append, List.map_cons, hv]

/-- The walk from a box. -/
theorem fills {v : Elem α} (hy : Rose.Held objects m y) (hv : objects.slot y = v)
    (h : Rose.Held objects m (.node (b, .listRef) [t])) (hs : Shaped (.node (b, .listRef) [t]))
    (hapart : ∀ i ∈ ids y, i ∉ ids t) (seen : List ℕ)
    (hseen : ∀ i ∈ ids (.node (b, .listRef) [t]), i ∉ seen) (hfuel : count (plain t) ≤ fuel) :
    Fills m y b t seen (fillNextSlotSeen v fuel m seen b) := by
  induction fuel generalizing b t seen with
  | zero =>
    cases hs
    simp at hfuel
  | succ fuel ih =>
    cases hs with
    | box _ j o ts hts =>
      have harr : Rose.Held objects m (.node (j, .array o) ts) := h.arg (l := []) (r := []) |>.1
      have hb : b ∉ seen := hseen b (by simp)
      rw [fillNextSlotSeen, val_of_stores h.stores]
      simp only [hb, if_false, cell_array harr.stores]
      cases o with
      | none =>
        refine Or.inl ⟨rfl, b :: seen, rfl, fun i hi => ?_⟩
        obtain rfl | hi := List.mem_cons.1 hi
        · exact Or.inr (Or.inl rfl)
        · exact Or.inl hi
      | some op =>
        have hids : ∀ i ∈ idsAll ts, i ∈ ids (.node (j, .array (some op)) ts) := fun i hi => by
          rw [ids_node]
          exact List.mem_cons_of_mem _ hi
        have hn := harr.nodup
        rw [ids_node, List.nodup_cons] at hn
        have hbts : b ∉ idsAll ts := fun hi => by
          have := h.nodup
          rw [ids_node, idsAll_cons, idsAll_nil, List.append_nil, List.nodup_cons] at this
          exact this.1 (hids b hi)
        have hkid : ∀ u ∈ ts, Rose.Held objects m u := fun u hu => by
          obtain ⟨l, r, rfl⟩ := List.append_of_mem hu
          exact harr.arg.1
        have hall : FillsAll m y op.terms ts (b :: seen)
            (fillSubs (fillNextSlotSeen v fuel m) ((ts.map objects.slot).take op.terms) (b :: seen)) := by
          refine fillsAll (fun b' t' seen' hmem hseen' => ?_) hkid hts
            (fun i hi hin => hapart i hi (hids i hin)) hn.2 op.terms _ fun i hi hin => ?_
          · refine ih (hkid _ hmem) (hts _ hmem) (fun i hi hin => ?_) seen' hseen' ?_
            · exact hapart i hi (mem_ids_of_mem hmem (mem_ids_box.2 (Or.inr hin)))
            · obtain ⟨l, r, rfl⟩ := List.append_of_mem hmem
              rw [plain_array] at hfuel
              simp only [count_node, List.map_append, List.map_cons, countAll_append, countAll_cons,
                plain_box] at hfuel
              omega
          · obtain rfl | hin := List.mem_cons.1 hin
            · exact hbts hi
            · exact hseen i (mem_ids_box.2 (Or.inr (hids i hi))) hin
        obtain ⟨hkids, seen', hr, hsub⟩ | ⟨m', l, x, u, x', hr, rfl, hkids, hrw⟩ := hall
        · dsimp only
          rw [hr]
          dsimp only
          obtain ⟨hown, hany⟩ | ⟨l, r, rfl, hown, hany, hfirst⟩ := fillOwn_cases (plain y) op.terms ts v
          · rw [hany, if_neg Bool.false_ne_true]
            refine Or.inl ⟨?_, seen', rfl, fun i hi => ?_⟩
            · rw [fillArray, hkids, hown]
              rfl
            · obtain hi | hi := hsub i hi
              · obtain rfl | hi := List.mem_cons.1 hi
                · exact Or.inr (Or.inl rfl)
                · exact Or.inl hi
              · exact Or.inr (Or.inr (hids i hi))
          · rw [hany, if_pos rfl]
            have hrw := rewrites_fillFirst hy hv harr hapart hfirst
            refine Or.inr ⟨_, _, rfl, ?_, hrw, hrw.held.stores.args _ (by simp),
              fun i hi => mem_ids_of_mem (by simp) hi⟩
            rw [fillArray, hkids, hown, plain_array]
            simp
        · dsimp only
          rw [hr]
          refine Or.inr ⟨_, _, rfl, ?_, Rose.Rewrites.arg harr hrw.1 hapart, hrw.2.1,
            fun i hi => mem_ids_of_mem (by simp) (hrw.2.2 i hi)⟩
          rw [fillArray, hkids, plain_array]
          simp

theorem count_plain_le (hs : Shaped t) : count (plain t) ≤ (ids t).length := by
  have hall : ∀ ts : List (Tree α), (∀ t ∈ ts, count (plain t) ≤ (ids t).length) →
      countAll (ts.map plain) ≤ (idsAll ts).length := fun ts h => by
    induction ts with
    | nil => exact le_rfl
    | cons t ts ih =>
      simp only [List.forall_mem_cons] at h
      have h₁ := ih h.2
      rw [List.map_cons, countAll_cons, idsAll_cons, List.length_append]
      omega
  induction hs with
  | leaf b => simp
  | array j o ts _ ih =>
    have := hall ts ih
    rw [plain_array, count_node, ids_node, List.length_cons]
    omega
  | box i j o ts _ ih =>
    have := hall ts ih
    rw [plain_box, plain_array, count_node]
    simp only [ids_node, idsAll_cons, idsAll_nil, List.append_nil, List.length_cons]
    omega

/-- What a prefix operator is put in as: a new expression whose operands are open. -/
def opened (op : Op) : Terms α := .node (some op) (operands op [])

theorem plain_opened (m : Memory α) (op : Op) : plain (exprTree m op []) = opened op := plain_exprTree

/-- A prefix operator is integrated into an expression. -/
theorem outcome_prefix (fuel : ℕ) (hop : op.kind = .prefixOp) (h : Over m m₁ t b j q ts)
    (hp : q.kind ≠ .parenOp) :
    ∃ m' out t', prattifyFrom (fuel + 1) m (objects.slot t) op = some (m', out) ∧
      Rose.Rewrites objects m m' [] t t' ∧
      (plain t' = (fillArray (opened op) (.node (j, .array (some q)) ts)).getD
          (place (placement op) (plain t)) ↔
        fillArray (opened op) (.node (j, .array (some q)) ts) ≠ none ∨ q.terms - 1 < ts.length) ∧
      (fillArray (opened op) (.node (j, .array (some q)) ts) ≠ none ∨ q.terms - 1 < ts.length →
        out ∈ ids t' ∧
          ∃ u, Rose.Stores objects m' u ∧ objects.slot u = .box out ∧ plain u = opened op) := by
  have ha : ¬ GoesAround q op := by simp [GoesAround, hop, hp]
  have hnil : ∀ u ∈ ([] : List (Tree α)), Rose.Held objects m₁ u :=
    fun u hu => absurd hu List.not_mem_nil
  have hy : Rose.Held objects (makeExpr m₁ op []).1 (exprTree m₁ op []) :=
    held_makeExpr hnil (Nat.zero_le 1) op
  have hext := extends_makeExpr (m := m₁) op ([] : List (Elem α))
  have hfresh : ∀ i ∈ ids (exprTree m₁ op ([] : List (Tree α))), m₁.cell i = none :=
    fun i hi => ids_exprTree_nil hi
  have hheld := h.held.congr fun i hi => hext i (h.held.cell_ne_none hi)
  have harr := h.heldArray.congr fun i hi => hext i (h.heldArray.cell_ne_none hi)
  have hv := val_of_extends hext h.val_eq
  have hout : m₁.last + 2 ∈ ids (exprTree m₁ op ([] : List (Tree α))) := by
    rw [exprTree, ids_node]
    exact List.mem_cons_self
  have hfuel : count (plain (.node (j, .array (some q)) ts)) ≤ (makeExpr m₁ op []).1.last + 1 :=
    (count_plain_le (.array j _ ts h.shaped)).trans harr.length_ids_le
  have hfills := fills hy rfl hheld (.box b j _ ts h.shaped)
    (fun i hi hin => h.heldArray.cell_ne_none hin (hfresh i hi)) [] (fun _ _ => List.not_mem_nil) hfuel
  have hplainy : plain (exprTree m₁ op []) = opened op := plain_opened m₁ op
  rw [prattifyFrom, h.boxed]
  simp only [opOf_over h, hp, if_false, hop]
  obtain ⟨hnone, seen', hr, -⟩ | ⟨m', arr', hr, hsome, hrw, hstored, hin⟩ := hfills
  · rw [hplainy] at hnone
    have hwalk : fillNextSlot (makeExpr m₁ op []).1 b (.box (makeExpr m₁ op []).2) =
        some ((makeExpr m₁ op []).1, false) := by
      rw [fillNextSlot]
      have hr' : fillNextSlotSeen (.box (makeExpr m₁ op []).2) ((makeExpr m₁ op []).1.last + 1)
          (makeExpr m₁ op []).1 [] b = some (.inl seen') := hr
      rw [hr']
    rw [hwalk]
    dsimp only
    rw [slotAt_eq hv harr.stores, hnone, Option.getD_none]
    have hlanded : ((none : Option (Terms α)) ≠ none ∨ q.terms - 1 < ts.length) ↔
        q.terms - 1 < ts.length := or_iff_right (fun h => h rfl)
    rw [hlanded]
    obtain hlen | ⟨l, x, r, hl, rfl⟩ := exists_operand (q.terms - 1) ts
    · rw [List.getElem?_eq_none hlen]
      obtain ⟨t', hrw', hplain, -⟩ := h.lift (Rose.Rewrites.same (G := []) h.heldArray hext)
      refine ⟨_, b, t', rfl, hrw', iff_of_false ?_ hlen.not_gt, fun hlt => absurd hlt hlen.not_gt⟩
      rw [hplain, plain_array, h.plain_eq]
      exact ne_place_of_length (placement op) (decide_eq_false ha) (by simpa using hlen)
    · rw [getElem?_append_cons hl, Option.map_some]
      have hrw := rewrites_setSlot (G := []) h.heldArray hv hl hext hy
        (fun i hi => Or.inr (Or.inr (hfresh i hi))) (by simp)
      have hlt : q.terms - 1 < (l ++ x :: r).length := by
        rw [List.length_append, List.length_cons, hl]
        omega
      obtain ⟨t', hrw', hplain, hids⟩ := h.lift hrw
      refine ⟨_, m₁.last + 2, t', rfl, hrw', iff_of_true ?_ hlt, fun _ => ⟨hids _ ?_, exprTree m₁ op [],
        hrw.held.stores.args _ (by simp), rfl, hplainy⟩⟩
      · have hnot : (label id (plain x)).any (fun lastOp => GoesDown lastOp op) = false := by
          cases label id (plain x) with
          | none => rfl
          | some q' => exact decide_eq_false (by simp [GoesDown, hop])
        have hplace : place (placement op) (plain t) =
            .node (some q) (l.map plain ++ placeOperand (placement op) (plain x) :: r.map plain) := by
          rw [h.plain_eq, ← plain_array (j := j)]
          exact place_append ha hl
        rw [hplain, hplace, placeOperand, if_neg (by simp [placement, hnot])]
        simp [placement, kept, hop, hplainy, opened]
      · exact mem_ids_of_mem (by simp) hout
  · rw [hplainy] at hsome
    have hwalk :
        fillNextSlot (makeExpr m₁ op []).1 b (.box (makeExpr m₁ op []).2) = some (m', true) := by
      rw [fillNextSlot]
      have hr' : fillNextSlotSeen (.box (makeExpr m₁ op []).2) ((makeExpr m₁ op []).1.last + 1)
          (makeExpr m₁ op []).1 [] b = some (.inr m') := hr
      rw [hr']
    rw [hwalk]
    have hrw₁ := ((Rose.Rewrites.same (G := []) h.heldArray hext).trans hrw).fresh hfresh
    obtain ⟨t', hrw', hplain, hids⟩ := h.lift hrw₁
    refine ⟨m', _, t', rfl, hrw', iff_of_true ?_ (Or.inl ?_),
      fun _ => ⟨hids _ (hin _ hout), _, hstored, rfl,
      hplainy⟩⟩
    · rw [hsome, Option.getD_some, hplain]
    · rw [hsome]
      exact Option.some_ne_none _

end Fill

end TabnasExpr.Go.Arrays
