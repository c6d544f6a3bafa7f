import TabnasExpr.Ts.InPlace

/-!
# Rewriting in place on the arena

What `prattify` does to the tree an arena holds under a handle, with the roots the nodes record.  The
node it makes records the root of the node it is put under.  That is the root of the whole expression
as long as the node the operator stops at was made under it; an operand that was an expression of its
own before it was taken in keeps its own root, and so does what is put into it.
-/

namespace TabnasExpr.Rust

open Rose Terms

variable {α : Type*} {a a' : Arena α} {v : Val α} {i j : ℕ} {o : Option Op} {op exprOp : Op} {t : Nodes α}
  {ts : List (Nodes α)}

/-! ## Roots -/

@[simp] theorem rootId_adopt (container term : Val α) :
    rootId (adopt a container term) v = rootId a v := by
  unfold adopt
  split
  · split_ifs
    · rfl
    · exact rootId_grow _
  · rfl

@[simp] theorem rootId_adoptAll (container : Val α) (terms : List (Val α)) :
    rootId (adoptAll a container terms) v = rootId a v := by
  unfold adoptAll
  induction terms generalizing a with
  | nil => rfl
  | cons t ts ih => rw [List.foldl_cons, ih, rootId_adopt]

theorem rootId_withNodeMut {write : ExprNode α → ExprNode α} (h : ∀ n, (write n).root = n.root)
    (w : Val α) :
    rootId (withNodeMut a w write) (.node j) = rootId a (.node j) := by
  cases w with
  | undefined | atom => rfl
  | node i =>
    rw [rootId_node, rootId_node]
    by_cases hj : j = i
    · subst hj
      show ((a.nodes.modify j write).cell j).map _ = _
      rw [Store.cell_modify_self, Option.map_map]
      cases a.nodes.cell j with
      | none => rfl
      | some n => exact congrArg some (h n)
    · exact congrArg _ (Store.cell_modify_of_ne _ hj)

/-- A new node records the root of the node it is made under. -/
theorem rootId_newNodeUnder {R : ℕ} (op : Option Op) (terms : List (Val α)) (hv : rootId a v = some R) :
    rootId (newNodeUnder a op terms (some v)).1 (.node j) =
      if j = a.nodes.last + 1 then some R else rootId a (.node j) := by
  have hgrown : newNodeUnder a op terms (some v) =
      (adoptAll (grow (allocate a ⟨op, terms, R, 1⟩) (.node (a.nodes.last + 1)) 1)
        (.node (a.nodes.last + 1)) terms, .node (a.nodes.last + 1)) := by
    simp [newNodeUnder, hv, allocate]
  rw [hgrown]
  simp only [rootId_adoptAll, rootId_grow, rootId_allocate]

theorem rootId_embed {e : ℕ} (hk : op.kind ≠ .ternaryOp ∧ op.kind ≠ .parenOp)
    (hq : opOf a (.node e) = some exprOp) :
    rootId (embed a (.node e) exprOp op) (.node j) =
      if j = a.nodes.last + 1 then rootId a (.node e) else rootId a (.node j) := by
  obtain ⟨R, hR⟩ := Option.ne_none_iff_exists'.1 (rootId_ne_none_of_opOf hq)
  have hwrap : rootId (wrap a (.node e) op) (.node j) =
      if j = a.nodes.last + 1 then some R else rootId a (.node j) := by
    obtain ⟨n, hn, -⟩ := Option.bind_eq_some_iff.1 hq
    simp only [nodeId, Option.bind_some] at hn
    simp only [wrap, dupNode, nodeId, Option.bind_some, hn, updateExprNode]
    refine (rootId_withNodeMut ?_ _).trans ?_
    · exact fun _ => rfl
    rw [rootId_adoptAll, rootId_newNodeUnder _ _ hR]
  have hinsert : ∀ k terms, rootId (insertOp a (.node e) k op terms) (.node j) =
      if j = a.nodes.last + 1 then some R else rootId a (.node j) := by
    intro k terms
    simp only [insertOp, setTerm]
    refine (rootId_withNodeMut ?_ _).trans ?_
    · exact fun _ => rfl
    rw [rootId_adopt, rootId_newNodeUnder _ _ hR]
  rw [hR]
  unfold embed
  cases hop : op.kind with
  | ternaryOp => exact absurd hop hk.1
  | parenOp => exact absurd hop hk.2
  | infixOp | prefixOp | suffixOp =>
    by_cases ha : GoesAround exprOp op
    · simp only [if_pos ha]
      exact hwrap
    · simp only [if_neg ha]
      exact hinsert _ _

/-! ## Where the operator stops -/

theorem opOf_slot (h : Rose.Stores Ts.nodes (forget a) t) :
    opOf a (Ts.nodes.slot t) = (Ts.headOf t).map Prod.snd := by
  rw [opOf_eq_opAt, Ts.opAt_slot h]

theorem goesDown_eq (h : Rose.Stores Ts.nodes (forget a) t) :
    goesDown a (Ts.nodes.slot t) op = (label Prod.snd t).any fun q => decide (Descends op q) := by
  rw [Ts.label_eq_headOf]
  unfold goesDown
  rw [opOf_slot h]
  cases hop : op.kind <;> cases Ts.headOf t <;> simp [Descends, hop]

theorem siteFrom_eq {fuel : ℕ} (op : Op) (h : Rose.Stores Ts.nodes (forget a) t)
    (ht : Ts.headOf t = some (i, exprOp)) (hfuel : (ids t).length ≤ fuel) :
    siteFrom fuel a (.node i) op = .node (stop op t) ∧ ∃ q, opOf a (.node (stop op t)) = some q := by
  induction t using Rose.induction generalizing i exprOp fuel with
  | leaf b => cases ht
  | node p ts ih =>
    obtain ⟨ts', ht'⟩ := Ts.headOf_eq_some ht
    cases ht'
    have hop : opOf a (.node i) = some exprOp := opOf_slot h
    cases fuel with
    | zero => simp at hfuel
    | succ fuel =>
      rw [siteFrom, hop, stop]
      by_cases ha : GoesAround exprOp op
      · simp [ha, hop]
      obtain ⟨l, x, r, hl, hpad⟩ := exists_pad (exprOp.terms - 1) ts
      have hlast : termAt a (.node i) exprOp.terms = Ts.nodes.slot x := by
        rw [termAt_node]
        exact Ts.term_stores h hpad hl
      have hx : Rose.Stores Ts.nodes (forget a) x := Ts.stores_pad h.args hpad x (by simp)
      simp only [ha, if_false, not_false_eq_true, true_and, hlast, goesDown_eq hx, stopAt_eq hpad hl]
      split_ifs with hd
      · rw [Ts.label_eq_headOf] at hd
        cases hh : Ts.headOf x with
        | none => simp [hh] at hd
        | some q =>
          obtain ⟨us, rfl⟩ := Ts.headOf_eq_some hh
          obtain ⟨-, rfl⟩ | ⟨-, -, hx', -⟩ := pad_cases hpad hl
          · refine ih _ (by simp) hx hh ?_
            simp only [ids_node, idsAll_append, idsAll_cons, List.length_cons,
              List.length_append] at hfuel ⊢
            omega
          · cases hx'
      · exact ⟨rfl, exprOp, hop⟩

theorem exists_prattify {s' : Ts.Heap α} {out : ℕ} (hop : Ts.opOf (forget a) i = some exprOp)
    (hr : Ts.prattify (forget a) i op = some (s', out)) :
    ∃ a', prattify a (.node i) op = some (a', .node out) ∧ forget a' = s' := by
  have hforget : (prattify a (.node i) op).map (fun r => (forget r.1, r.2)) =
      (Ts.prattify (forget a) i op).map fun r => (r.1, .node r.2) := forget_prattify hop
  rw [hr, Option.map_some] at hforget
  obtain ⟨⟨a', v⟩, hp, hav⟩ := Option.map_eq_some_iff.1 hforget
  simp only [Prod.mk.injEq] at hav
  obtain ⟨rfl, rfl⟩ := hav
  exact ⟨a', hp, rfl⟩

/-- The roots after `prattify`. -/
theorem rootId_prattify {v' : Val α} (h : Rose.Held Ts.nodes (forget a) t)
    (ht : Ts.headOf t = some (i, exprOp)) (hk : op.kind ≠ .ternaryOp ∧ op.kind ≠ .parenOp)
    (hr : prattify a (.node i) op = some (a', v')) :
    rootId a' (.node j) =
      if j = a.nodes.last + 1 then rootId a (.node (stop op t)) else rootId a (.node j) := by
  obtain ⟨hsite, q, hq⟩ := siteFrom_eq op h.stores ht h.length_ids_le
  have heq := prattifyFrom_eq hr
  rw [last_forget] at hsite
  rw [hsite, hq] at heq
  dsimp only at heq
  rw [heq, rootId_embed hk hq]

/-! ## The refinement -/

/-- After `prattify` the arena `a'`, in which `out` was handed back, holds the tree `t'` in the place of
`t`: it is the rewritten tree, no node of it is met twice, what was made is in it, and outside nothing
has changed, but that the trees `t` is in have `t'` in its place. -/
structure Refines (a : Arena α) (t : Nodes α) (op : Op) (a' : Arena α) (out : Val α) (t' : Nodes α) :
    Prop where
  held : Rose.Held Ts.nodes (forget a') t'
  handle : Ts.nodes.slot t' = Ts.nodes.slot t
  denotes : erase t' = graft op [] (erase t)
  outside : ∀ j, j ∉ ids t → a.nodes.cell j ≠ none →
    (forget a').cell j = (forget a).cell j ∧ rootId a' (.node j) = rootId a (.node j)
  other : ∀ u, Rose.Held Ts.nodes (forget a) u → (∀ j ∈ ids u, j ∉ ids t) →
    Rose.Held Ts.nodes (forget a') u
  around : ∀ u u', Placed t t' u u' → Rose.Held Ts.nodes (forget a) u → Rose.Held Ts.nodes (forget a') u'
  made : ∀ j, a.nodes.cell j = none → a'.nodes.cell j ≠ none → j ∈ ids t'
  next : label Prod.snd t ≠ none → op.kind = .infixOp ∨ op.kind = .prefixOp →
    ∀ y, Rose.Held Ts.nodes (forget a') y → (∀ j ∈ ids y, j ∉ ids t') →
      ∃ t'', Rose.Held Ts.nodes (forget (pushTerm a' out (Ts.nodes.slot y))) t'' ∧
        Ts.nodes.slot t'' = Ts.nodes.slot t ∧ erase t'' = graft op [erase y] (erase t)

/-- `prattify` returns, it rewrites the tree of its argument in place, and the nodes it makes record the
root of the argument. -/
def InPlace (a : Arena α) (t : Nodes α) (op : Op) : Prop :=
  ∃ a' out t', prattify a (Ts.nodes.slot t) op = some (a', out) ∧ Refines a t op a' out t' ∧
    ∀ j, a.nodes.cell j = none → a'.nodes.cell j ≠ none →
      rootId a' (.node j) = rootId a (Ts.nodes.slot t)

theorem cell_forget_ne_none : (forget a).cell j ≠ none ↔ a.nodes.cell j ≠ none := by
  rw [cell_forget, ne_eq, Option.map_eq_none_iff]

theorem cell_forget_eq_none : (forget a).cell j = none ↔ a.nodes.cell j = none := by
  rw [cell_forget, Option.map_eq_none_iff]

/-- What `prattify` does to the heap, read on the arena. -/
theorem refines_of_rewrites {t' : Nodes α} {out : Val α}
    (h : Rose.Rewrites Ts.nodes (forget a) (forget a') [] t t') (he : erase t' = graft op [] (erase t))
    (hmade : ∀ j, (forget a).cell j = none → (forget a').cell j ≠ none → j ∈ ids t')
    (hroot : ∀ j, a.nodes.cell j ≠ none → rootId a' (.node j) = rootId a (.node j))
    (hnext : label Prod.snd t ≠ none → op.kind = .infixOp ∨ op.kind = .prefixOp →
      ∀ y, Rose.Held Ts.nodes (forget a') y → (∀ j ∈ ids y, j ∉ ids t') →
        ∃ t'', Rose.Rewrites Ts.nodes (forget a') (forget (pushTerm a' out (Ts.nodes.slot y))) (ids y)
          t' t'' ∧ erase t'' = graft op [erase y] (erase t)) :
    Refines a t op a' out t' where
  held := h.held
  handle := h.slot
  denotes := he
  outside := fun j hj hlive =>
    ⟨h.frame j hj List.not_mem_nil (cell_forget_ne_none.2 hlive), hroot j hlive⟩
  other := fun _ hu hapart => (h.other hu fun j hj => ⟨hapart j hj, List.not_mem_nil⟩).1
  around := fun _ _ hp hu => (h.placed hp hu fun _ hj => absurd hj List.not_mem_nil).held
  made := fun j hj hj' => hmade j (cell_forget_eq_none.2 hj) (cell_forget_ne_none.2 hj')
  next := fun hl hop y hy hapart => by
    obtain ⟨t'', hrw, he''⟩ := hnext hl hop y hy hapart
    exact ⟨t'', hrw.held, hrw.slot.trans h.slot, he''⟩

/-- Nothing is done to what is no expression. -/
theorem refines_none (op : Op) (h : Rose.Held Ts.nodes (forget a) (.node (i, none) ts)) :
    prattify a (.node i) op = some (a, .node i) ∧
      Refines a (.node (i, none) ts) op a (.node i) (.node (i, none) ts) := by
  have hop : opOf a (.node i) = none := opOf_slot h.stores
  refine ⟨by rw [prattify, prattifyFrom, hop],
    refines_of_rewrites (Rose.Rewrites.refl h) ?_ (fun j hj hj' => absurd hj hj')
      (fun _ _ => rfl) fun hl => absurd rfl hl⟩
  rw [erase_node]
  by_cases hk : op.kind = .ternaryOp ∨ op.kind = .parenOp
  · rw [graft_other hk]
  · rw [graft_eq_place (not_or.1 hk), place]

/-- `prattify` rewrites the tree of an expression in place. -/
theorem refines_prattify (op : Op) (h : Rose.Held Ts.nodes (forget a) t)
    (ht : Ts.headOf t = some (i, exprOp)) :
    ∃ a' out t', prattify a (.node i) op = some (a', out) ∧ Refines a t op a' out t' := by
  have hop : Ts.opOf (forget a) i = some exprOp := by
    obtain ⟨ts, rfl⟩ := Ts.headOf_eq_some ht
    exact Ts.opOf_stores h.stores
  obtain ⟨s', t', out, hr, hrw, he, hmade, hnext⟩ := Ts.grafts_prattify op h ht
  obtain ⟨a', hp, rfl⟩ := exists_prattify hop hr
  refine ⟨a', _, t', hp, refines_of_rewrites hrw he hmade (fun j hj => ?_) fun _ hk y hy hapart => ?_⟩
  · by_cases hk : op.kind ≠ .ternaryOp ∧ op.kind ≠ .parenOp
    · rw [rootId_prattify h ht hk hp, if_neg]
      rintro rfl
      exact hj a.nodes.cell_next
    · have hidle : prattify a (.node i) op = some (a, .node i) := by
        have hopi : opOf a (.node i) = some exprOp := by rw [opOf_node, hop]
        rw [prattify, prattifyFrom, hopi]
        rw [not_and_or, not_not, not_not] at hk
        obtain hk | hk := hk <;> simp [hk]
      rw [hidle] at hp
      cases hp
      rfl
  · obtain ⟨t'', hpush, he''⟩ := hnext hk y hy hapart
    exact ⟨t'', by rwa [forget_pushTerm], he''⟩

/-- An operator that is put into no expression. -/
theorem prattify_other (hop : opOf a (.node i) = some exprOp)
    (hk : op.kind = .ternaryOp ∨ op.kind = .parenOp) : prattify a (.node i) op = some (a, .node i) := by
  rw [prattify, prattifyFrom, hop]
  obtain hk | hk := hk <;> simp [hk]

/-- `prattify` rewrites the tree of any node in place, and the node it makes records the root of the
node when the node the operator stops at does. -/
theorem inPlace_iff_root (h : Rose.Held Ts.nodes (forget a) (.node (i, o) ts)) (op : Op) :
    InPlace a (.node (i, o) ts) op ↔ op.kind = .ternaryOp ∨ op.kind = .parenOp ∨
      rootId a (.node (stop op (.node (i, o) ts))) = rootId a (.node i) := by
  cases o with
  | none =>
    have hstop : stop op (.node (i, none) ts : Nodes α) = i := by rw [stop]
    obtain ⟨hp, href⟩ := refines_none op h
    refine iff_of_true ⟨a, _, _, hp, href, fun j hj hj' => absurd hj hj'⟩ (Or.inr (Or.inr ?_))
    rw [hstop]
  | some exprOp =>
    obtain ⟨a', out, t', hp, href⟩ := refines_prattify op h rfl
    have hop : opOf a (.node i) = some exprOp := opOf_slot h.stores
    by_cases hk : op.kind = .ternaryOp ∨ op.kind = .parenOp
    · refine iff_of_true ⟨a', out, t', hp, href, fun j hj hj' => ?_⟩ (or_assoc.1 (Or.inl hk))
      rw [prattify_other hop hk] at hp
      cases hp
      exact absurd hj hj'
    · rw [← or_assoc, or_iff_right hk]
      rw [not_or] at hk
      have hroot : ∀ j, rootId a' (.node j) =
          if j = a.nodes.last + 1 then rootId a (.node (stop op (.node (i, some exprOp) ts)))
          else rootId a (.node j) := fun j => rootId_prattify h rfl hk hp
      constructor
      · rintro ⟨a'', out', t'', hp', -, hmade⟩
        rw [Ts.slot_node, hp] at hp'
        cases hp'
        -- The node made is the next one, whose root is that of the node the operator stops at.
        obtain ⟨-, q, hq⟩ := siteFrom_eq op h.stores rfl h.length_ids_le
        have hnext := hroot (a.nodes.last + 1)
        rw [if_pos rfl] at hnext
        rw [← hnext]
        refine hmade _ a.nodes.cell_next ?_
        rw [ne_eq, ← rootId_eq_none, hnext]
        exact rootId_ne_none_of_opOf hq
      · refine fun hstop => ⟨a', out, t', hp, href, fun j hj hj' => ?_⟩
        have hj'' : rootId a' (.node j) ≠ none := fun hn => hj' (rootId_eq_none.1 hn)
        rw [hroot] at hj'' ⊢
        split_ifs at hj'' ⊢ with he
        · exact hstop
        · exact absurd (rootId_eq_none.2 hj) hj''

/-- An operator that binds to the right. -/
def percent : Op := ⟨"percent", "%", .infixOp, 17, 16⟩

/-- `1 % 2`, made at once. -/
def flat : Arena ℕ := (newNode emptyArena (some percent) [.atom 1, .atom 2]).1

theorem held_flat : Rose.Held Ts.nodes (forget flat)
    (.node (1, some percent) [.leaf (some 1), .leaf (some 2)]) where
  stores := .node _ _ rfl (by
    simp only [List.mem_cons, List.not_mem_nil, or_false]
    rintro t (rfl | rfl) <;> exact .leaf _)
  nodup := by decide

theorem inPlace_flat :
    InPlace flat (.node (1, some percent) [.leaf (some 1), .leaf (some 2)]) percent :=
  (inPlace_iff_root held_flat percent).2 (Or.inr (Or.inr (by decide)))

/-- `1 % (2 % 3)`, where the operand was made before the expression that takes it in. -/
def nested : Arena ℕ :=
  let (a, operand) := newNode emptyArena (some percent) [.atom 2, .atom 3]
  (newNode a (some percent) [.atom 1, operand]).1

/-- The tree of the expression. -/
def nestedTree : Nodes ℕ :=
  .node (2, some percent) [.leaf (some 1), .node (1, some percent) [.leaf (some 2), .leaf (some 3)]]

/-- What is put into an operand with a root of its own records that root. -/
theorem not_inPlace_nested :
    Rose.Held Ts.nodes (forget nested) nestedTree ∧ ¬ InPlace nested nestedTree percent := by
  refine ⟨⟨.node _ _ rfl ?_, by decide⟩, ?_⟩
  · simp only [List.mem_cons, List.not_mem_nil, or_false]
    rintro t (rfl | rfl)
    · exact .leaf _
    · refine .node _ _ rfl ?_
      simp only [List.mem_cons, List.not_mem_nil, or_false]
      rintro t (rfl | rfl) <;> exact .leaf _
  · rintro ⟨a', out, t', hp, -, hmade⟩
    have hnode : rootId a' (.node 3) = some 1 := by
      have hroot : (prattify nested (.node 2) percent).map (fun r => rootId r.1 (.node 3)) =
          some (some 1) := by decide
      rw [show Ts.nodes.slot nestedTree = .node 2 from rfl] at hp
      rw [hp] at hroot
      exact Option.some.inj hroot
    have hlive : a'.nodes.cell 3 ≠ none := fun hn => by
      rw [rootId_node, hn] at hnode
      cases hnode
    have hother := (hmade 3 (by decide) hlive).symm.trans hnode
    revert hother
    decide

end TabnasExpr.Rust
