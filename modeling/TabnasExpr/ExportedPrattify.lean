import TabnasExpr.Defaults
import TabnasExpr.Go.InPlace

/-!
# The contract of the exported `Prattify`

`Prattify` is meant to leave the whole rewritten expression under the caller's own argument, box or
slice, and to hand back the box of the sub-expression the operator heads.  It does so when the operator
reaches its place through what the caller holds (`Reaches`): a paren expression is copied instead, a
slice cannot be given the new array of an expression that is wrapped, and an operator whose slot is
missing is dropped, or wrapped around.
-/

namespace TabnasExpr.Go.Arrays

open Rose Terms

variable {α : Type*} {m m' m₁ : Memory α} {t : Tree α} {ts : List (Tree α)} {b j : ℕ} {op q : Op}

/-- An expression with a new one in its deepest open slot. -/
def openSlot (op : Op) : Tree α → Option (Terms α)
  | .node (b, .listRef) ts => fillOpen (opened op) (.node (b, .listRef) ts)
  | t => fillArray (opened op) t

/-- The last slot of an expression is there. -/
def HasLastSlot : Terms α → Prop
  | .node (some q) ts => q.terms - 1 < ts.length
  | _ => False

/-- A paren expression. -/
def isParen (t : Terms α) : Bool := (label id t).any fun q => q.kind = .parenOp

/-- The whole rewritten expression.  A prefix operator fills the deepest open slot, or takes the
place of the last operand. -/
def rewritten (op : Op) (t : Tree α) : Terms α :=
  match op.kind with
  | .ternaryOp | .parenOp => plain t
  | .prefixOp =>
    if isParen (plain t) then place (placement op) (plain t)
    else (openSlot op t).getD (place (placement op) (plain t))
  | _ => place (placement op) (plain t)

/-- The sub-expression the operator heads. -/
def newHead (op : Op) (t : Tree α) : Terms α :=
  if op.kind = .prefixOp then opened op else made (placement op) (plain t)

/-- After `Prattify` the caller's own expression is the whole rewritten one, and for infix and prefix
operators the box handed back is in it and is that of the sub-expression the operator heads. -/
def Contract (m : Memory α) (op : Op) (t : Tree α) : Prop :=
  ∃ m' out t', prattify m (objects.slot t) op = some (m', out) ∧ Rose.Held objects m' t' ∧
    objects.slot t' = objects.slot t ∧ plain t' = rewritten op t ∧
    (op.kind = .infixOp ∨ op.kind = .prefixOp → out ∈ ids t' ∧
      ∃ u, Rose.Stores objects m' u ∧ objects.slot u = .box out ∧ plain u = newHead op t)

/-- The operator reaches its place through what the caller holds. -/
def Reaches (op : Op) (t : Tree α) : Prop :=
  match op.kind with
  | .ternaryOp | .parenOp => True
  | .prefixOp => isParen (plain t) = false ∧ (openSlot op t ≠ none ∨ HasLastSlot (plain t))
  | _ => Lands op false t

/-- What is left in the place of an expression decides the contract: memory holds one tree under a
reference. -/
theorem contract_iff_of_rewrites {out : ℕ} {t' : Tree α} {L : Prop}
    (hr : prattify m (objects.slot t) op = some (m', out)) (hrw : Rose.Rewrites objects m m' [] t t')
    (hiff : plain t' = rewritten op t ↔ L)
    (hout : L → op.kind = .infixOp ∨ op.kind = .prefixOp → out ∈ ids t' ∧
      ∃ u, Rose.Stores objects m' u ∧ objects.slot u = .box out ∧ plain u = newHead op t) :
    Contract m op t ↔ L := by
  constructor
  · rintro ⟨m'', out'', t'', hr', hheld, hslot, hplain, -⟩
    rw [hr] at hr'
    cases hr'
    rw [unique hheld.stores hrw.held.stores (hslot.trans hrw.slot.symm)] at hplain
    exact hiff.1 hplain
  · intro hL
    exact ⟨m', out, t', hr, hrw.held, hrw.slot, hiff.2 hL, hout hL⟩

/-- An expression that is left as it was. -/
theorem contract_of_idle {out : ℕ} (h : Rose.Held objects m t)
    (hr : prattify m (objects.slot t) op = some (m', out)) (hext : m.Extends m')
    (hk : op.kind = .ternaryOp ∨ op.kind = .parenOp) : Contract m op t ↔ Reaches op t := by
  have hrewritten : rewritten op t = plain t := by
    unfold rewritten
    obtain hk | hk := hk <;> rw [hk]
  have hreaches : Reaches op t := by
    unfold Reaches
    obtain hk | hk := hk <;> rw [hk] <;> trivial
  refine contract_iff_of_rewrites hr (Rose.Rewrites.same h hext) (iff_of_true hrewritten.symm hreaches)
    fun _ hop => ?_
  obtain hk | hk := hk <;> simp [hk] at hop

/-- A paren expression is copied, and the caller's own stays as it was. -/
theorem contract_paren (h : Over m m₁ t b j q ts) (hp : q.kind = .parenOp) (op : Op) :
    Contract m op t ↔ Reaches op t := by
  have hr : ∃ m' out, prattify m (objects.slot t) op = some (m', out) ∧ m.Extends m' := by
    rw [prattify, prattifyFrom, h.boxed]
    simp only [opOf_over h, hp, if_true]
    refine ⟨_, _, rfl, (h.ext.trans ?_).trans (extends_makeExpr _ _)⟩
    exact (Store.extends_alloc _ _).trans (Store.extends_alloc _ _)
  obtain ⟨m', out, hr, hext⟩ := hr
  by_cases hk : op.kind = .ternaryOp ∨ op.kind = .parenOp
  · exact contract_of_idle h.source hr hext hk
  have hparen : isParen (plain t) = true := by
    rw [isParen, h.plain_eq]
    exact decide_eq_true hp
  have hrewritten : rewritten op t = .node (some op) (operands op [plain t]) := by
    have hplace : place (placement op) (plain t) = .node (some op) (operands op [plain t]) := by
      rw [h.plain_eq]
      exact place_around _ (decide_eq_true (Or.inl hp)) _
    rw [← hplace]
    unfold rewritten
    cases hop : op.kind with
    | ternaryOp => exact absurd (Or.inl hop) hk
    | parenOp => exact absurd (Or.inr hop) hk
    | prefixOp => exact if_pos hparen
    | infixOp | suffixOp => rfl
  have hlands : ¬ Lands op false t := by
    obtain ⟨rfl, -⟩ | ⟨rfl, -⟩ := h.form
    · rw [lands_box, Lands]
      exact fun h => h.1 hp
    · rw [Lands]
      exact fun h => h.1 hp
  have hreaches : ¬ Reaches op t := by
    unfold Reaches
    cases hop : op.kind with
    | ternaryOp => exact absurd (Or.inl hop) hk
    | parenOp => exact absurd (Or.inr hop) hk
    | prefixOp => exact fun h => Bool.false_ne_true (h.1.symm.trans hparen)
    | infixOp | suffixOp => exact hlands
  refine contract_iff_of_rewrites hr (Rose.Rewrites.same h.source hext) (iff_of_false ?_ hreaches)
    fun hL => absurd hL hreaches
  rw [hrewritten]
  exact ne_node_of_mem (by simp [operands_eq])

theorem isParen_eq_false (h : Over m m₁ t b j q ts) (hp : q.kind ≠ .parenOp) :
    isParen (plain t) = false := by
  rw [isParen, h.plain_eq]
  exact decide_eq_false hp

/-- A prefix operator. -/
theorem contract_prefix (h : Over m m₁ t b j q ts) (hp : q.kind ≠ .parenOp)
    (hop : op.kind = .prefixOp) :
    Contract m op t ↔ Reaches op t := by
  have hparen := isParen_eq_false h hp
  have hopen : openSlot op t = fillArray (opened op) (.node (j, .array (some q)) ts) := by
    obtain ⟨rfl, -⟩ | ⟨rfl, -⟩ := h.form
    · exact fillOpen_box (b := b) _
    · rfl
  have hslot : HasLastSlot (plain t) ↔ q.terms - 1 < ts.length := by
    rw [h.plain_eq, HasLastSlot, List.length_map]
  have hreaches : Reaches op t ↔
      fillArray (opened op) (.node (j, .array (some q)) ts) ≠ none ∨ q.terms - 1 < ts.length := by
    unfold Reaches
    rw [hop]
    dsimp only
    rw [hopen, hslot, hparen]
    exact and_iff_right rfl
  have hrewritten : rewritten op t =
      (fillArray (opened op) (.node (j, .array (some q)) ts)).getD
        (place (placement op) (plain t)) := by
    unfold rewritten
    rw [hop]
    dsimp only
    rw [hparen, hopen]
    exact if_neg Bool.false_ne_true
  obtain ⟨m', out, t', hr, hrw, hiff, hout⟩ := outcome_prefix m.last hop h hp
  rw [← hrewritten, ← hreaches] at hiff
  rw [← hreaches] at hout
  refine contract_iff_of_rewrites hr hrw hiff fun hL _ => ?_
  rw [newHead, if_pos hop]
  exact hout hL

/-- The contract is kept exactly when the operator reaches its place through what the caller holds. -/
theorem contract_iff_reaches (h : Rose.Held objects m t) (hs : Shaped t)
    (hq : label id (plain t) = some q)
    (op : Op) : Contract m op t ↔ Reaches op t := by
  obtain ⟨m₁, b, j, ts, hover⟩ := exists_over h hs hq
  by_cases hp : q.kind = .parenOp
  · exact contract_paren hover hp op
  have hfuel : count (plain t) ≤ m.last + 1 := (count_plain_le hs).trans h.length_ids_le
  cases hop : op.kind with
  | ternaryOp | parenOp =>
    have hr : prattify m (objects.slot t) op = some (m₁, b) := by
      rw [prattify, prattifyFrom, hover.boxed]
      simp only [opOf_over hover, hp, if_false, hop]
    exact contract_of_idle h hr hover.ext (by simp [hop])
  | prefixOp => exact contract_prefix hover hp hop
  | infixOp =>
    obtain ⟨m', out, t', hr, hrw, hiff, hout⟩ := outcome_infix hop h hs hq hp hfuel
    have hreaches : Reaches op t ↔ Lands op false t := by
      unfold Reaches
      rw [hop]
    rw [hreaches]
    refine contract_iff_of_rewrites hr hrw ?_ fun hL _ => ?_
    · unfold rewritten
      rw [hop]
      exact hiff
    · rw [newHead, if_neg (by simp [hop])]
      exact hout hL hop
  | suffixOp =>
    have hr : prattify m (objects.slot t) op =
        (asListRef m (objects.slot t)).bind fun r => prattifySuffixFrom (m.last + 1) r.1 (.box r.2) op := by
      rw [prattify, prattifyFrom, hover.boxed]
      simp only [opOf_over hover, hp, if_false, hop, Option.bind_some]
    obtain ⟨m', out, t', hr', hrw, hiff, -⟩ := outcome_suffix hop h hs hq hp hfuel
    have hreaches : Reaches op t ↔ Lands op false t := by
      unfold Reaches
      rw [hop]
    rw [hreaches]
    refine contract_iff_of_rewrites (hr.trans hr') hrw ?_ fun _ h => ?_
    · unfold rewritten
      rw [hop]
      exact hiff
    · simp [hop] at h

/-! ## A box, a paren expression and a slice -/

/-- `1 + 2` in a box. -/
def boxedMemory : Memory ℕ := (makeExpr Store.empty addition [.atom 1, .atom 2]).1

def boxedTree : Tree ℕ :=
  .node (2, .listRef) [.node (1, .array (some addition)) [.leaf (some 1), .leaf (some 2)]]

/-- `(1)` in a box. -/
def parenMemory : Memory ℕ := (makeExpr Store.empty TabnasExpr.plain [.atom 1]).1

def parenTree : Tree ℕ :=
  .node (2, .listRef) [.node (1, .array (some TabnasExpr.plain)) [.leaf (some 1)]]

/-- `1 * 2` as a slice. -/
def sliceMemory : Memory ℕ := (Store.empty.alloc ⟨.array (some multiplication), [.atom 1, .atom 2]⟩).1

def sliceTree : Tree ℕ := .node (1, .array (some multiplication)) [.leaf (some 1), .leaf (some 2)]

theorem stores_leaves {m : Memory ℕ} {ts : List (Tree ℕ)} (h : ∀ t ∈ ts, ∃ a, t = .leaf a) :
    ∀ t ∈ ts, Rose.Stores objects m t := by
  intro t ht
  obtain ⟨a, rfl⟩ := h t ht
  exact .leaf a

theorem shaped_leaves {ts : List (Tree ℕ)} (h : ∀ t ∈ ts, ∃ a, t = .leaf a) : ∀ t ∈ ts, Shaped t := by
  intro t ht
  obtain ⟨a, rfl⟩ := h t ht
  exact .leaf a

theorem held_boxed : Rose.Held objects boxedMemory boxedTree where
  stores := .node _ _ rfl fun t ht => by
    rw [List.mem_singleton.1 ht]
    exact .node _ _ rfl (stores_leaves (by simp))
  nodup := by decide

theorem shaped_boxed : Shaped boxedTree := .box _ _ _ _ (shaped_leaves (by simp))

theorem held_paren : Rose.Held objects parenMemory parenTree where
  stores := .node _ _ rfl fun t ht => by
    rw [List.mem_singleton.1 ht]
    exact .node _ _ rfl (stores_leaves (by simp))
  nodup := by decide

theorem shaped_paren : Shaped parenTree := .box _ _ _ _ (shaped_leaves (by simp))

theorem held_slice : Rose.Held objects sliceMemory sliceTree where
  stores := .node _ _ rfl (stores_leaves (by simp))
  nodup := by decide

theorem shaped_slice : Shaped sliceTree := .array _ _ _ (shaped_leaves (by simp))

/-- `1 + 2` in a box, and a tighter operator. -/
theorem contract_boxed : Contract boxedMemory multiplication boxedTree := by
  refine (contract_iff_reaches held_boxed shaped_boxed rfl multiplication).2 ?_
  refine ⟨by decide, ?_⟩
  rw [if_neg (by decide)]
  exact fun h => absurd h (by decide)

/-- The objects of an expression that is to be wrapped are as they were. -/
theorem not_contract_of_cells (h : Rose.Held objects m t)
    (hcells : ∀ i ∈ ids t, ((prattify m (objects.slot t) op).bind fun r => r.1.cell i) = m.cell i)
    (hwrap : rewritten op t = .node (some op) (operands op [plain t])) : ¬ Contract m op t := by
  rintro ⟨m', out, t', hr, hheld, hslot, hplain, -⟩
  have hstores : Rose.Stores objects m' t := h.stores.congr fun i hi => by
    have := hcells i hi
    rwa [hr] at this
  rw [unique hheld.stores hstores hslot, hwrap] at hplain
  exact ne_node_of_mem (by simp [operands_eq]) hplain

/-- Neither a paren expression nor a slice that is wrapped is the caller's own afterwards. -/
theorem not_contract : (Rose.Held objects parenMemory parenTree ∧ Shaped parenTree ∧
      ¬ Contract parenMemory addition parenTree) ∧
    (Rose.Held objects sliceMemory sliceTree ∧ Shaped sliceTree ∧
      ¬ Contract sliceMemory addition sliceTree) :=
  ⟨⟨held_paren, shaped_paren, not_contract_of_cells held_paren (by decide) rfl⟩,
    held_slice, shaped_slice, not_contract_of_cells held_slice (by decide) rfl⟩

end TabnasExpr.Go.Arrays
