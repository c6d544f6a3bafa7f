import TabnasExpr.Go.Arrays
import TabnasExpr.Graft

/-!
# The trees of boxes and arrays

An expression of the Go port read as a tree whose nodes are its boxes and arrays (`Shaped`), and what it
denotes when it no longer matters which of them stands in a box (`plain`).  Each primitive rewrites the
tree it is given in place.
-/

namespace TabnasExpr.Go.Arrays

open Rose Terms

variable {α : Type*}

/-- An expression with its boxes and arrays and their numbers. -/
abbrev Tree (α : Type*) := Rose (ℕ × Head) (Option α)

/-- How the objects of a tree lie in memory. -/
def objects : Layout Head (Option α) (Elem α) (Object α) where
  ref i h := match h with
    | .listRef => .box i
    | .array _ => .slice i
  leaf b := b.elim .unfilled .atom
  cell h vs := ⟨h, vs⟩

/-- A box holds one array. -/
inductive Shaped : Tree α → Prop
  | leaf (b : Option α) : Shaped (.leaf b)
  | array (j : ℕ) (o : Option Op) (ts : List (Tree α)) (h : ∀ t ∈ ts, Shaped t) :
    Shaped (.node (j, .array o) ts)
  | box (i j : ℕ) (o : Option Op) (ts : List (Tree α)) (h : ∀ t ∈ ts, Shaped t) :
    Shaped (.node (i, .listRef) [.node (j, .array o) ts])

mutual

/-- What an expression denotes. -/
def plain : Tree α → Terms α
  | .leaf b => .leaf b
  | .node (_, .listRef) ts => (plainAll ts).headD (.leaf none)
  | .node (_, .array o) ts => .node o (plainAll ts)

def plainAll : List (Tree α) → List (Terms α)
  | [] => []
  | t :: ts => plain t :: plainAll ts

end

section Plain

variable {i j : ℕ} {o : Option Op} {t : Tree α} {ts : List (Tree α)}

theorem plainAll_eq : plainAll ts = ts.map plain := by
  induction ts with
  | nil => rfl
  | cons t ts ih => rw [plainAll, ih, List.map_cons]

@[simp] theorem plain_leaf (b : Option α) : plain (.leaf b : Tree α) = .leaf b := by rw [plain]

@[simp] theorem plain_array : plain (.node (j, .array o) ts) = .node o (ts.map plain) := by
  rw [plain, plainAll_eq]

@[simp] theorem plain_box : plain (.node (i, .listRef) [t]) = plain t := by
  rw [plain, plainAll_eq]
  rfl

end Plain

@[simp] theorem slot_leaf_none : objects.slot (.leaf none : Tree α) = .unfilled := rfl

@[simp] theorem slot_array (j : ℕ) (o : Option Op) (ts : List (Tree α)) :
    objects.slot (.node (j, .array o) ts) = .slice j := rfl

@[simp] theorem slot_box (i : ℕ) (ts : List (Tree α)) :
    objects.slot (.node (i, .listRef) ts) = .box i := rfl

variable {m m' m₁ : Memory α} {t x y : Tree α} {ts us l r : List (Tree α)} {b i j k : ℕ} {o : Option Op}
  {op q : Op}

/-- An object is held in one tree under one reference. -/
theorem unique (h : Rose.Stores objects m t) (h' : Rose.Stores objects m x)
    (hs : objects.slot t = objects.slot x) : t = x := by
  refine Rose.Stores.unique (fun o o' vs vs' e => ?_) (fun b b' e => ?_) (fun i o b e => ?_)
    (fun i o i' o' e => ?_) h h' hs
  · cases e
    exact ⟨rfl, rfl⟩
  · cases b <;> cases b' <;> cases e <;> rfl
  · cases o <;> cases b <;> cases e
  · cases o <;> cases o' <;> cases e <;> rfl

/-! ## Reading -/

theorem val_of_stores (h : Rose.Stores objects m (.node (b, .listRef) [.node (j, .array o) ts])) :
    val m b = some j := by
  simp [val, h.cell, objects, Layout.slot]

theorem cell_array (h : Rose.Stores objects m (.node (j, .array o) ts)) :
    m.cell j = some ⟨.array o, ts.map objects.slot⟩ := h.cell

theorem opOf_slot (h : Rose.Stores objects m t) (hs : Shaped t) :
    opOf m (objects.slot t) = label id (plain t) := by
  cases hs with
  | leaf b => cases b <;> rw [plain_leaf] <;> rfl
  | array j o ts _ =>
    rw [slot_array, opOf, unwrapExpr, Option.bind_some, cell_array h, plain_array]
    rfl
  | box i j o ts _ =>
    have harr : Rose.Stores objects m (.node (j, .array o) ts) := h.args _ (by simp)
    rw [slot_box, opOf, unwrapExpr, val_of_stores h, Option.bind_some, cell_array harr, plain_box,
      plain_array]
    rfl

theorem slotAt_eq (hv : val m b = some j) (h : Rose.Stores objects m (.node (j, .array o) ts)) (k : ℕ) :
    slotAt m b k = (ts[k - 1]?).map objects.slot := by
  rw [slotAt, hv, Option.bind_some, cell_array h, Option.bind_some, List.getElem?_map]

/-! ## Boxing -/

theorem val_of_extends (hext : m.Extends m') (hv : val m b = some j) : val m' b = some j := by
  have hb : m.cell b ≠ none := fun hn => by simp [val, hn] at hv
  rw [val, hext b hb]
  exact hv

/-- The box `b` that `asListRef` makes of an expression stands over its array: it is the box of the
expression, or a new one over the slice. -/
structure Over (m m₁ : Memory α) (t : Tree α) (b j : ℕ) (q : Op) (ts : List (Tree α)) : Prop where
  source : Rose.Held objects m t
  boxed : asListRef m (objects.slot t) = some (m₁, b)
  ext : m.Extends m₁
  held : Rose.Held objects m₁ (.node (b, .listRef) [.node (j, .array (some q)) ts])
  shaped : ∀ t ∈ ts, Shaped t
  form : (t = .node (b, .listRef) [.node (j, .array (some q)) ts] ∧ m₁ = m) ∨
    (t = .node (j, .array (some q)) ts ∧ m.cell b = none)

theorem exists_over (h : Rose.Held objects m t) (hs : Shaped t) (hq : label id (plain t) = some q) :
    ∃ m₁ b j ts, Over m m₁ t b j q ts := by
  cases hs with
  | leaf b => rw [plain_leaf] at hq; cases hq
  | box i j o ts hts =>
    rw [plain_box, plain_array] at hq
    cases hq
    exact ⟨m, i, j, ts, h, rfl, fun _ _ => rfl, h, hts, .inl ⟨rfl, rfl⟩⟩
  | array j o ts hts =>
    rw [plain_array] at hq
    cases hq
    have hext := m.extends_alloc ⟨.listRef, [.slice j]⟩
    have hfresh : m.last + 1 ∉ ids (.node (j, .array (some q)) ts) :=
      fun hi => h.cell_ne_none hi m.cell_next
    refine ⟨_, m.last + 1, j, ts, h, rfl, hext,
      ⟨.node _ _ (Store.cell_alloc_self _ _) fun t ht => ?_, ?_⟩, hts,
      .inr ⟨rfl, m.cell_next⟩⟩
    · rw [List.mem_singleton.1 ht]
      exact h.stores.congr fun i hi => hext i (h.cell_ne_none hi)
    · rw [ids_node, idsAll_cons, idsAll_nil, List.append_nil, List.nodup_cons]
      exact ⟨hfresh, h.nodup⟩

namespace Over

theorem heldArray (h : Over m m₁ t b j q ts) :
    Rose.Held objects m₁ (.node (j, .array (some q)) ts) :=
  h.held.arg (l := []) (r := []) |>.1

theorem val_eq (h : Over m m₁ t b j q ts) : val m₁ b = some j := val_of_stores h.held.stores

theorem plain_eq (h : Over m m₁ t b j q ts) : plain t = .node (some q) (ts.map plain) := by
  obtain ⟨rfl, -⟩ | ⟨rfl, -⟩ := h.form
  · rw [plain_box, plain_array]
  · rw [plain_array]

/-- What is done to the array through the box is done to the expression. -/
theorem lift {arr' : Tree α} (h : Over m m₁ t b j q ts)
    (hrw : Rose.Rewrites objects m₁ m' [] (.node (j, .array (some q)) ts) arr') :
    ∃ t', Rose.Rewrites objects m m' [] t t' ∧ plain t' = plain arr' ∧ ∀ i ∈ ids arr', i ∈ ids t' := by
  obtain ⟨rfl, rfl⟩ | ⟨rfl, -⟩ := h.form
  · refine ⟨.node (b, .listRef) [arr'], Rose.Rewrites.arg (l := []) (r := []) h.held hrw (by simp),
      plain_box, fun i hi => ?_⟩
    rw [ids_node, idsAll_cons, idsAll_nil, List.append_nil]
    exact List.mem_cons_of_mem _ hi
  · exact ⟨arr', (Rose.Rewrites.same (G := []) h.source h.ext).trans hrw, rfl, fun i hi => hi⟩

end Over

/-! ## New expressions -/

/-- The operands of a new expression: the terms given, and open ones. -/
def operands {ω : Type*} (op : Op) (us : List (Rose ω (Option α))) : List (Rose ω (Option α)) :=
  (us ++ List.replicate (op.terms - us.length) (Rose.leaf none)).take op.terms

theorem one_le_terms (op : Op) : 1 ≤ op.terms := by
  unfold Op.terms
  split <;> omega

theorem operands_eq {ω : Type*} {us : List (Rose ω (Option α))} (h : us.length ≤ 1) :
    operands op us = us ++ List.replicate (op.terms - us.length) (Rose.leaf none) := by
  have := one_le_terms op
  rw [operands, List.take_of_length_le]
  simp only [List.length_append, List.length_replicate]
  omega

theorem map_slot_operands :
    (operands op us).map objects.slot = makeElems op (us.map objects.slot) := by
  rw [operands, makeElems, List.map_take, List.map_append, List.map_replicate, List.length_map]
  rfl

theorem map_plain_operands : (operands op us).map plain = operands op (us.map plain) := by
  simp [operands, List.map_take]

theorem idsAll_operands (h : us.length ≤ 1) : idsAll (operands op us) = idsAll us := by
  rw [operands_eq h, idsAll_append, idsAll_replicate, List.append_nil]

theorem idsAll_operands_singleton : idsAll (operands op [t]) = ids t := by
  have h : ([t] : List (Tree α)).length ≤ 1 := le_rfl
  rw [idsAll_operands h, idsAll_cons, idsAll_nil, List.append_nil]

theorem mem_operands (h : t ∈ operands op us) : t ∈ us ∨ t = .leaf none := by
  have h := List.mem_of_mem_take h
  rw [List.mem_append] at h
  exact h.imp_right List.eq_of_mem_replicate

/-- A new expression in a box. -/
def exprTree (m : Memory α) (op : Op) (us : List (Tree α)) : Tree α :=
  .node (m.last + 2, .listRef) [.node (m.last + 1, .array (some op)) (operands op us)]

theorem extends_makeExpr (op : Op) (terms : List (Elem α)) : m.Extends (makeExpr m op terms).1 :=
  (m.extends_alloc _).trans (Store.extends_alloc _ _)

theorem held_makeExpr (hus : ∀ u ∈ us, Rose.Held objects m u) (h : us.length ≤ 1) (op : Op) :
    Rose.Held objects (makeExpr m op (us.map objects.slot)).1 (exprTree m op us) := by
  have hext := extends_makeExpr (m := m) op (us.map objects.slot)
  have hlive : ∀ i ∈ idsAll us, m.cell i ≠ none := fun i hi => by
    obtain ⟨u, hu, hi⟩ := mem_idsAll.1 hi
    exact (hus u hu).cell_ne_none hi
  have h₁ : m.cell (m.last + 1) = none := m.fresh _ (by omega)
  have h₂ : m.cell (m.last + 2) = none := m.fresh _ (by omega)
  have hn : (idsAll us).Nodup := by
    obtain _ | ⟨u, _ | ⟨v, us⟩⟩ := us
    · exact List.nodup_nil
    · simpa using (hus u (by simp)).nodup
    · simp at h
  refine ⟨.node _ _ (Store.cell_alloc_self _ _) fun t ht => ?_, ?_⟩
  · rw [List.mem_singleton.1 ht]
    refine .node _ _ ?_ fun u hu => ?_
    · rw [map_slot_operands]
      exact (Store.cell_alloc_of_some (Store.cell_alloc_self _ _))
    · obtain hu | rfl := mem_operands hu
      · exact ((hus u hu).congr fun i hi => hext i ((hus u hu).cell_ne_none hi)).stores
      · exact .leaf none
  · simp only [exprTree, ids_node, idsAll_cons, idsAll_nil, List.append_nil, idsAll_operands h,
      List.nodup_cons, List.mem_cons, not_or]
    exact ⟨⟨by omega, fun hi => hlive _ hi h₂⟩, fun hi => hlive _ hi h₁, hn⟩

theorem plain_exprTree : plain (exprTree m op us) = .node (some op) (operands op (us.map plain)) := by
  rw [exprTree, plain_box, plain_array, map_plain_operands]

theorem ids_exprTree (h : us.length ≤ 1) (hi : i ∈ ids (exprTree m op us)) :
    i ∈ idsAll us ∨ m.cell i = none := by
  simp only [exprTree, ids_node, idsAll_cons, idsAll_nil, List.append_nil, idsAll_operands h,
    List.mem_cons] at hi
  obtain rfl | rfl | hi := hi
  · exact .inr (m.fresh _ (by omega))
  · exact .inr (m.fresh _ (by omega))
  · exact .inl hi

theorem ids_exprTree_nil (hi : i ∈ ids (exprTree m op [])) : m.cell i = none := by
  have h : ([] : List (Tree α)).length ≤ 1 := Nat.zero_le 1
  simpa using ids_exprTree h hi

theorem ids_exprTree_singleton (hi : i ∈ ids (exprTree m op [x])) : i ∈ ids x ∨ m.cell i = none := by
  have h : [x].length ≤ 1 := le_rfl
  simpa using ids_exprTree h hi

/-! ## Writing an element -/

/-- `box.Val[k] = v` puts another operand in the place of one of the array. -/
theorem rewrites_setSlot {G : List ℕ} (h : Rose.Held objects m (.node (j, .array o) (l ++ x :: r)))
    (hv : val m₁ b = some j) (hl : l.length = k - 1) (hext : m.Extends m₁) (hy : Rose.Held objects m₁ y)
    (hnew : ∀ i ∈ ids y, i ∈ ids x ∨ i ∈ G ∨ m.cell i = none)
    (hG : ∀ i ∈ G, i ∉ ids (.node (j, .array o) (l ++ x :: r))) :
    Rose.Rewrites objects m (setSlot m₁ b k (objects.slot y)) G (.node (j, .array o) (l ++ x :: r))
      (.node (j, .array o) (l ++ y :: r)) := by
  have hset : setSlot m₁ b k (objects.slot y) =
      m₁.modify j fun e => { e with elems := e.elems.set (k - 1) (objects.slot y) } := by
    rw [setSlot, hv]
  rw [hset]
  refine Rose.Rewrites.put h (by simp) (fun u hu => h.stores.args u ?_) hext hy hnew hG ?_
  · simp only [List.mem_append, List.mem_cons] at hu ⊢
    exact hu.imp_right Or.inr
  · have hlen : (l.map objects.slot).length = k - 1 := by rw [List.length_map, hl]
    show (⟨.array o, ((l ++ x :: r).map objects.slot).set (k - 1) (objects.slot y)⟩ : Object α) =
      ⟨.array o, (l ++ y :: r).map objects.slot⟩
    rw [List.map_append, List.map_cons, List.map_append, List.map_cons,
      List.set_append_right _ _ hlen.le, hlen, Nat.sub_self, List.set_cons_zero]

/-! ## Wrapping -/

/-- The box of an expression given a new operator, with a copy of the expression as its operand. -/
def wrapTree (m : Memory α) (b : ℕ) (op : Op) (o : Option Op) (ts : List (Tree α)) : Tree α :=
  .node (b, .listRef) [.node (m.last + 3, .array (some op))
    (operands op [.node (m.last + 2, .listRef) [.node (m.last + 1, .array o) ts]])]

theorem plain_wrapTree : plain (wrapTree m b op o ts) =
    .node (some op) (operands op [plain (.node (j, .array o) ts)]) := by
  rw [wrapTree, plain_box, plain_array, map_plain_operands, plain_array]
  simp

/-- The memory before the box is given the new slice. -/
theorem exists_wrapExpr (hv : val m b = some j) (hj : m.cell j = some ⟨.array o, ts.map objects.slot⟩)
    (op : Op) : ∃ m₃ : Memory α, m.Extends m₃ ∧ m₃.last = m.last + 3 ∧
      m₃.cell (m.last + 1) = some ⟨.array o, ts.map objects.slot⟩ ∧
      m₃.cell (m.last + 2) = some ⟨.listRef, [.slice (m.last + 1)]⟩ ∧
      m₃.cell (m.last + 3) = some ⟨.array (some op), makeElems op [.box (m.last + 2)]⟩ ∧
      wrapExpr m b op = m₃.modify b fun o => { o with elems := [.slice (m.last + 3)] } := by
  have hdup : dupExpr m (.box b) = ((m.alloc ⟨.array o, ts.map objects.slot⟩).1.alloc
      ⟨.listRef, [.slice (m.last + 1)]⟩) := by
    rw [dupExpr, unwrapExpr, hv, Option.bind_some, hj]
    rfl
  refine ⟨((m.alloc ⟨.array o, ts.map objects.slot⟩).1.alloc ⟨.listRef, [.slice (m.last + 1)]⟩).1.alloc
    ⟨.array (some op), makeElems op [.box (m.last + 2)]⟩ |>.1, ?_, rfl, ?_, ?_, ?_, ?_⟩
  · exact ((m.extends_alloc _).trans (Store.extends_alloc _ _)).trans (Store.extends_alloc _ _)
  · exact Store.cell_alloc_of_some (Store.cell_alloc_of_some (Store.cell_alloc_self _ _))
  · exact Store.cell_alloc_of_some (Store.cell_alloc_self _ _)
  · exact Store.cell_alloc_self _ _
  · rw [wrapExpr, hdup]
    rfl

theorem rewrites_wrapExpr (h : Rose.Held objects m (.node (b, .listRef) [.node (j, .array o) ts]))
    (op : Op) :
    Rose.Rewrites objects m (wrapExpr m b op) [] (.node (b, .listRef) [.node (j, .array o) ts])
      (wrapTree m b op o ts) := by
  have harr : Rose.Stores objects m (.node (j, .array o) ts) := h.stores.args _ (by simp)
  obtain ⟨m₃, hext, -, h₁, h₂, h₃, hw⟩ := exists_wrapExpr (val_of_stores h.stores) (cell_array harr) op
  have hn := h.nodup
  simp only [ids_node, idsAll_cons, idsAll_nil, List.append_nil, List.nodup_cons, List.mem_cons,
    not_or] at hn
  have hlive : ∀ i ∈ b :: idsAll ts, i ≤ m.last := fun i hi => by
    have hi : i ∈ ids (.node (b, .listRef) [.node (j, .array o) ts]) := by
      simp only [ids_node, idsAll_cons, idsAll_nil, List.append_nil, List.mem_cons] at hi ⊢
      tauto
    obtain ⟨c, hc⟩ := Option.ne_none_iff_exists'.1 (h.cell_ne_none hi)
    exact Store.le_last hc
  rw [hw]
  refine Rose.Rewrites.update h hext (fun u hu => ?_) ?_ (fun i hi => ?_) rfl rfl
  · rw [List.mem_singleton.1 hu]
    refine .node _ _ ?_ fun v hv => ?_
    · rw [map_slot_operands]
      exact h₃
    · obtain hv | rfl := mem_operands hv
      · rw [List.mem_singleton.1 hv]
        refine .node _ _ h₂ fun w hw => ?_
        rw [List.mem_singleton.1 hw]
        refine .node _ _ h₁ fun t ht => ?_
        exact (harr.args t ht).congr fun i hi => hext i ((harr.args t ht).cell_ne_none hi)
      · exact .leaf none
  · have hlive' : ∀ i, m.last < i → i ∉ b :: idsAll ts := fun i hi hin => by
      have := hlive i hin
      omega
    have l₁ := hlive' (m.last + 1) (by omega)
    have l₂ := hlive' (m.last + 2) (by omega)
    have l₃ := hlive' (m.last + 3) (by omega)
    simp only [List.mem_cons, not_or] at l₁ l₂ l₃
    simp only [ids_node, idsAll_cons, idsAll_nil, List.append_nil, List.nodup_cons, List.mem_cons,
      idsAll_operands_singleton, not_or]
    exact ⟨⟨Ne.symm l₃.1, Ne.symm l₂.1, Ne.symm l₁.1, hn.1.2⟩, ⟨by omega, by omega, l₃.2⟩,
      ⟨by omega, l₂.2⟩, l₁.2, hn.2.2⟩
  · simp only [ids_node, idsAll_cons, idsAll_nil, List.append_nil, List.mem_cons,
      idsAll_operands_singleton] at hi
    obtain rfl | rfl | rfl | hi := hi
    · exact .inr (.inr (m.fresh _ (by omega)))
    · exact .inr (.inr (m.fresh _ (by omega)))
    · exact .inr (.inr (m.fresh _ (by omega)))
    · exact .inl (by simp [hi])

/-- Wrapping changes the box alone. -/
theorem cell_wrapExpr (hv : val m b = some j) (hj : m.cell j = some ⟨.array o, ts.map objects.slot⟩)
    (op : Op) (hib : i ≠ b) (hi : m.cell i ≠ none) : (wrapExpr m b op).cell i = m.cell i := by
  obtain ⟨m₃, hext, -, -, -, -, hw⟩ := exists_wrapExpr hv hj op
  rw [hw, Store.cell_modify_of_ne _ hib, hext i hi]

end TabnasExpr.Go.Arrays
