import TabnasExpr.Graft

/-!
# `prattify` rewrites the tree of a node in place

Whatever a node holds, as long as it heads a tree no node of which is met twice: what `prattify` leaves
under the node is `graft` of what it found there, the node `prattify` makes is in it, and a value pushed
onto the node it hands back comes after the operands the new operator has taken.
-/

namespace TabnasExpr.Ts

open Rose Terms

variable {α : Type*} {s : Heap α} {t x y : Nodes α} {ts us l r : List (Nodes α)} {i k : ℕ}
  {o : Option Op}
  {op exprOp : Op}

/-- How the tree of a node lies in the heap. -/
def nodes : Rose.Layout (Option Op) (Option α) (Val α) (Node α) where
  ref i _ := .node i
  leaf b := b.elim .undefined .atom
  cell o vs := ⟨o, vs⟩

@[simp] theorem slot_leaf_none : nodes.slot (.leaf none : Nodes α) = .undefined := rfl

@[simp] theorem slot_node (p : ℕ × Option Op) : nodes.slot (.node p ts : Nodes α) = .node p.1 := rfl

/-- The node at the head of a tree, with its operator. -/
def headOf : Nodes α → Option (ℕ × Op)
  | .leaf _ => none
  | .node (i, o) _ => o.map (i, ·)

theorem label_eq_headOf : label Prod.snd t = (headOf t).map Prod.snd := by
  cases t with
  | leaf b => rfl
  | node p ts => obtain ⟨i, _ | o⟩ := p <;> rfl

theorem label_erase : label id (erase t) = label Prod.snd t := by
  cases t with
  | leaf b => rw [erase_leaf]; rfl
  | node p ts => rw [erase_node]; rfl

theorem headOf_eq_some {p : ℕ × Op} (h : headOf t = some p) : ∃ ts, t = .node (p.1, some p.2) ts := by
  cases t with
  | leaf b => cases h
  | node q ts =>
    obtain ⟨i, _ | o⟩ := q <;> cases h
    exact ⟨ts, rfl⟩

theorem opOf_stores (h : Rose.Stores nodes s (.node (i, o) ts)) : opOf s i = o := by
  simp [opOf, h.cell, nodes]

theorem opAt_slot (h : Rose.Stores nodes s x) : opAt s (nodes.slot x) = headOf x := by
  cases x with
  | leaf b => cases b <;> rfl
  | node p ts =>
    obtain ⟨i, o⟩ := p
    rw [slot_node, opAt, opOf_stores h]
    rfl

theorem term_stores (h : Rose.Stores nodes s (.node (i, o) ts)) (hpad : pad (k - 1) ts = l ++ x :: r)
    (hl : l.length = k - 1) : term s i k = nodes.slot x := by
  have hterm : term s i k = (ts.map nodes.slot).getD (k - 1) .undefined := by
    simp [term, h.cell, nodes]
  rw [hterm]
  obtain ⟨-, rfl⟩ | ⟨hk, -, rfl, -⟩ := pad_cases hpad hl
  · rw [← hl]
    simp
  · simp [List.getElem?_eq_none (not_lt.1 hk)]

theorem setAt_slots (hpad : pad k ts = l ++ x :: r) (hl : l.length = k) (v : Val α) :
    setAt (ts.map nodes.slot) k v = l.map nodes.slot ++ v :: r.map nodes.slot := by
  rw [setAt, List.length_map]
  obtain ⟨hk, rfl⟩ | ⟨hk, rfl, -, rfl⟩ := pad_cases hpad hl
  · have hlen : (l.map nodes.slot).length = k := by rw [List.length_map, hl]
    rw [if_pos hk, List.map_append, List.map_cons, List.set_append_right _ _ hlen.le, hlen,
      Nat.sub_self,
      List.set_cons_zero]
  · rw [if_neg hk]
    simp

theorem idsAll_pad (hpad : pad k ts = l ++ x :: r) : idsAll ts = idsAll l ++ (ids x ++ idsAll r) := by
  have h : idsAll (pad k ts) = idsAll ts := by
    rw [pad, idsAll_append, idsAll_replicate, List.append_nil]
  rw [← h, hpad, idsAll_append, idsAll_cons]

theorem erase_pad (hpad : pad k ts = l ++ x :: r) :
    pad k (ts.map erase) = l.map erase ++ erase x :: r.map erase := by
  rw [← List.map_cons, ← List.map_append, ← hpad]
  simp [pad]

/-- The operands of a node are stored, those that are filled in too. -/
theorem stores_pad (h : ∀ t ∈ ts, Rose.Stores nodes s t) (hpad : pad k ts = l ++ x :: r) :
    ∀ t ∈ l ++ x :: r, Rose.Stores nodes s t := by
  rw [← hpad]
  intro t ht
  obtain ht | rfl := mem_pad ht
  · exact h t ht
  · exact .leaf none

/-! ## The two writes -/

/-- The operator goes around a node: the copy takes what the node held. -/
theorem rewrites_wrap (h : Rose.Held nodes s (.node (i, o) ts)) (op : Op) :
    Rose.Rewrites nodes s (updateExprNode (dupNode s i).1 i op [.node (s.last + 1)]) []
      (.node (i, o) ts) (.node (i, some op) [.node (s.last + 1, o) ts]) := by
  have hcell : s.cell i = some ⟨o, ts.map nodes.slot⟩ := h.stores.cell
  have hdup : (dupNode s i).1 = (s.alloc ⟨o, ts.map nodes.slot⟩).1 := by
    rw [dupNode, hcell, Option.getD_some]
  have hold : ∀ j, s.cell j ≠ none → (dupNode s i).1.cell j = s.cell j := fun j hj => by
    rw [hdup, Store.cell_alloc_of_ne_none hj]
  have hfresh : s.last + 1 ∉ ids (.node (i, o) ts) := fun hj => h.cell_ne_none hj s.cell_next
  have hn := h.nodup
  rw [ids_node] at hfresh hn
  refine Rose.Rewrites.update h hold (fun u hu => ?_) ?_ ?_ rfl rfl
  · rw [List.mem_singleton.1 hu]
    refine .node _ _ (by rw [hdup, Store.cell_alloc_self]; rfl) fun t ht => ?_
    refine (h.stores.args t ht).congr fun j hj => hold j ?_
    exact (h.stores.args t ht).cell_ne_none hj
  · simp only [List.mem_cons, not_or] at hfresh
    simp only [idsAll_cons, ids_node, idsAll_nil, List.append_nil, List.nodup_cons, List.mem_cons,
      not_or]
    exact ⟨⟨Ne.symm hfresh.1, (List.nodup_cons.1 hn).1⟩, hfresh.2, (List.nodup_cons.1 hn).2⟩
  · intro j hj
    simp only [idsAll_cons, ids_node, idsAll_nil, List.append_nil, List.mem_cons] at hj
    obtain rfl | hj := hj
    · exact Or.inr (Or.inr s.cell_next)
    · exact Or.inl hj

/-- A new node comes in the place of an operand, which it keeps or drops. -/
theorem rewrites_insert (h : Rose.Held nodes s (.node (i, o) ts)) (hpad : pad (k - 1) ts = l ++ x :: r)
    (hl : l.length = k - 1) (op : Op) :
    Rose.Rewrites nodes s
      (setTerm (newNode s op ((kept op x).map nodes.slot)).1 i k (.node (s.last + 1))) []
      (.node (i, o) ts) (.node (i, o) (l ++ .node (s.last + 1, some op) (kept op x) :: r)) := by
  have hold : ∀ j, s.cell j ≠ none →
      (newNode s op ((kept op x).map nodes.slot)).1.cell j = s.cell j :=
    fun j hj => Store.cell_alloc_of_ne_none hj
  have hstored := stores_pad h.stores.args hpad
  have hx : Rose.Stores nodes (newNode s op ((kept op x).map nodes.slot)).1 x :=
    (hstored x (by simp)).congr fun j hj => hold j ((hstored x (by simp)).cell_ne_none hj)
  have hn := h.nodup
  rw [ids_node, idsAll_pad hpad] at hn
  have hxn : (ids x).Nodup := (List.nodup_cons.1 hn).2.of_append_right.of_append_left
  have hfresh : s.last + 1 ∉ ids x := fun hj => (hstored x (by simp)).cell_ne_none hj s.cell_next
  have hy : Rose.Held nodes (newNode s op ((kept op x).map nodes.slot)).1
      (.node (s.last + 1, some op) (kept op x)) := by
    refine ⟨.node _ _ (Store.cell_alloc_self _ _) fun t ht => ?_, ?_⟩
    · rw [eq_of_mem_kept ht]
      exact hx
    · rw [ids_node]
      unfold kept
      split_ifs
      · simp
      · simpa using ⟨hfresh, hxn⟩
  refine Rose.Rewrites.put h (idsAll_pad hpad) (fun u hu => hstored u ?_) hold hy (fun j hj => ?_)
    (by simp) ?_
  · simp only [List.mem_append, List.mem_cons] at hu ⊢
    exact hu.imp_right Or.inr
  · rw [ids_node, List.mem_cons] at hj
    obtain rfl | hj := hj
    · exact Or.inr (Or.inr s.cell_next)
    · obtain ⟨t, ht, hj⟩ := mem_idsAll.1 hj
      exact Or.inl (eq_of_mem_kept ht ▸ hj)
  · show (⟨o, setAt (ts.map nodes.slot) (k - 1) (.node (s.last + 1))⟩ : Node α) = _
    rw [setAt_slots hpad hl]
    simp [nodes, Rose.Layout.slot]

/-- A value pushed onto a node comes after its operands. -/
theorem rewrites_append (h : Rose.Held nodes s (.node (i, o) ts)) (hy : Rose.Held nodes s y)
    (hout : ∀ j ∈ ids y, j ∉ ids (.node (i, o) ts)) :
    Rose.Rewrites nodes s (push s i (nodes.slot y)) (ids y) (.node (i, o) ts)
      (.node (i, o) (ts ++ [y])) := by
  have hn := h.nodup
  rw [ids_node, List.nodup_cons] at hn
  simp only [ids_node, List.mem_cons, not_or] at hout
  refine Rose.Rewrites.update h (fun _ _ => rfl) (fun u hu => ?_) ?_ ?_ rfl ?_
  · simp only [List.mem_append, List.mem_singleton] at hu
    obtain hu | rfl := hu
    · exact h.stores.args u hu
    · exact hy.stores
  · simp only [idsAll_append, idsAll_cons, idsAll_nil, List.append_nil, List.nodup_cons,
      List.mem_append,
      not_or, List.nodup_append]
    refine ⟨⟨hn.1, fun hi => (hout i hi).1 rfl⟩, hn.2, hy.nodup, ?_⟩
    rintro a ha b hb rfl
    exact (hout a hb).2 ha
  · intro j hj
    simp only [idsAll_append, idsAll_cons, idsAll_nil, List.append_nil, List.mem_append] at hj
    exact hj.imp_right Or.inl
  · simp [nodes]

/-! ## The descent -/

/-- One step of `prattify` on a stored node. -/
theorem prattifyFrom_stores {fuel : ℕ} (h : Rose.Stores nodes s (.node (i, some exprOp) ts))
    (hk : op.kind ≠ .ternaryOp ∧ op.kind ≠ .parenOp) (hpad : pad (exprOp.terms - 1) ts = l ++ x :: r)
    (hl : l.length = exprOp.terms - 1) :
    prattifyFrom (fuel + 1) s i op =
      if Rust.GoesAround exprOp op then
        some (updateExprNode (dupNode s i).1 i op [.node (s.last + 1)], i)
      else
        ((headOf x).filter fun p => Descends op p.2).elim
          (some (setTerm (newNode s op ((kept op x).map nodes.slot)).1 i exprOp.terms (.node (s.last + 1)),
            if op.kind = .suffixOp then i else s.last + 1))
          fun p => (prattifyFrom fuel s p.1 op).map fun r =>
            (r.1, if op.kind = .suffixOp then i else r.2) := by
  have hlast : term s i exprOp.terms = nodes.slot x := term_stores h hpad hl
  have hat : opAt s (nodes.slot x) = headOf x :=
    opAt_slot (stores_pad h.args hpad x (by simp))
  rw [prattifyFrom, opOf_stores h]
  cases hop : op.kind with
  | ternaryOp => exact absurd hop hk.1
  | parenOp => exact absurd hop hk.2
  | prefixOp =>
    simp [Rust.GoesAround, Descends, kept, hop, newNode]
  | infixOp =>
    simp only [Rust.GoesAround, hop, hlast, hat]
    by_cases hw : exprOp.kind = .suffixOp ∨ op.left ≤ exprOp.right
    · simp [hw, dupNode]
    · simp only [hw, if_false]
      cases hf : (headOf x).filter fun p => p.2.right < op.left <;>
        simp [Descends, kept, hop, hf, newNode]
  | suffixOp =>
    have hdesc : ((headOf x).filter fun p => decide (Descends op p.2)) =
        (headOf x).filter fun p => decide (p.2.kind = .prefixOp ∧ p.2.right < op.left) := by
      simp [Descends, hop]
    rw [hdesc]
    dsimp only
    by_cases hw : exprOp.kind ≠ .suffixOp ∧ exprOp.right ≤ op.left
    · have haround : ¬ Rust.GoesAround exprOp op := by simp [Rust.GoesAround, hop, hw]
      rw [if_pos hw, if_neg haround, hlast, hat]
      cases (headOf x).filter fun p => decide (p.2.kind = .prefixOp ∧ p.2.right < op.left) <;>
        simp [kept, hop, newNode]
    · have haround : Rust.GoesAround exprOp op := Or.inr ⟨hop, hw⟩
      rw [if_neg hw, if_pos haround]
      rfl

/-- What `prattify` does to the tree `t`: it is rewritten in place, what is made is in it, and for an
operator that takes another operand the node handed back is where the operand comes. -/
def Grafts (s : Heap α) (op : Op) (t : Nodes α) (r : Option (Heap α × ℕ)) : Prop :=
  ∃ s' t' out, r = some (s', out) ∧ Rose.Rewrites nodes s s' [] t t' ∧
    erase t' = graft op [] (erase t) ∧
    (∀ j, s.cell j = none → s'.cell j ≠ none → j ∈ ids t') ∧
    (op.kind = .infixOp ∨ op.kind = .prefixOp → ∀ y, Rose.Held nodes s' y → (∀ j ∈ ids y, j ∉ ids t') →
      ∃ t'', Rose.Rewrites nodes s' (push s' out (nodes.slot y)) (ids y) t' t'' ∧
        erase t'' = graft op [erase y] (erase t))

/-- The operator goes around the node. -/
theorem grafts_wrap (h : Rose.Held nodes s (.node (i, some exprOp) ts))
    (ha : Rust.GoesAround exprOp op) :
    Grafts s op (.node (i, some exprOp) ts)
      (some (updateExprNode (dupNode s i).1 i op [.node (s.last + 1)], i)) := by
  have hw := rewrites_wrap h op
  refine ⟨_, _, _, rfl, hw, ?_, fun j hj hj' => ?_,
    fun _ y hy hout => ⟨_, rewrites_append hw.held hy hout, ?_⟩⟩
  · simp [graft_around ha]
  · rw [Store.eq_next hj hj']
    simp
  · simp [graft_around ha]

/-- The operator comes in the place of the last operand. -/
theorem grafts_insert (h : Rose.Held nodes s (.node (i, some exprOp) ts))
    (hk : op.kind ≠ .ternaryOp ∧ op.kind ≠ .parenOp) (ha : ¬ Rust.GoesAround exprOp op)
    (hpad : pad (exprOp.terms - 1) ts = l ++ x :: r) (hl : l.length = exprOp.terms - 1)
    (hd : ∀ p, headOf x = some p → ¬ Descends op p.2) :
    Grafts s op (.node (i, some exprOp) ts)
      (some (setTerm (newNode s op ((kept op x).map nodes.slot)).1 i exprOp.terms (.node (s.last + 1)),
        if op.kind = .suffixOp then i else s.last + 1)) := by
  have hi := rewrites_insert h hpad hl op
  have hnot : ((label id (erase x)).any fun q => Descends op q) = false := by
    rw [label_erase, label_eq_headOf]
    cases hx : headOf x with
    | none => rfl
    | some p => simpa using hd p hx
  have hgraft : ∀ more : List (Terms α), graft op more (erase (.node (i, some exprOp) ts)) =
      .node (some exprOp) (l.map erase ++ .node (some op) (kept op (erase x) ++ more) :: r.map erase) := by
    intro more
    rw [erase_node, graft_into hk ha (erase_pad hpad) (by simpa using hl), placeOperand]
    simp only [pratt, hnot]
    rfl
  have hkept : (kept op x).map erase = kept op (erase x) := by
    unfold kept
    split_ifs <;> rfl
  refine ⟨_, _, _, rfl, hi, ?_, fun j hj hj' => ?_, fun hop y hy hout => ?_⟩
  · rw [hgraft]
    simp [hkept]
  · rw [Store.eq_next hj hj']
    simp
  · have hs : op.kind ≠ .suffixOp := by
      obtain hop | hop := hop <;> simp [hop]
    rw [if_neg hs]
    have hpush := rewrites_append hi.held.arg.1 hy fun j hj hin => hout j hj (mem_ids_of_mem (by simp) hin)
    refine ⟨_, Rose.Rewrites.arg hi.held hpush hout, ?_⟩
    rw [hgraft]
    simp [hkept]

/-- The operator goes down into the last operand. -/
theorem grafts_descend {r' : Option (Heap α × ℕ)} {p : ℕ × Op}
    (h : Rose.Held nodes s (.node (i, some exprOp) (l ++ x :: r)))
    (hk : op.kind ≠ .ternaryOp ∧ op.kind ≠ .parenOp) (ha : ¬ Rust.GoesAround exprOp op)
    (hpad : pad (exprOp.terms - 1) (l ++ x :: r) = l ++ x :: r) (hl : l.length = exprOp.terms - 1)
    (hp : headOf x = some p) (hd : Descends op p.2) (hx : Grafts s op x r') :
    Grafts s op (.node (i, some exprOp) (l ++ x :: r))
      (r'.map fun r => (r.1, if op.kind = .suffixOp then i else r.2)) := by
  obtain ⟨s', x', out, rfl, hrw, he, hmade, hpush⟩ := hx
  have hyes : ((label id (erase x)).any fun q => Descends op q) = true := by
    rw [label_erase, label_eq_headOf, hp]
    simpa using hd
  have hgraft : ∀ more : List (Terms α), graft op more (erase (.node (i, some exprOp) (l ++ x :: r))) =
      .node (some exprOp) (l.map erase ++ graft op more (erase x) :: r.map erase) := by
    intro more
    rw [erase_node, graft_into hk ha (erase_pad hpad) (by simpa using hl), placeOperand]
    simp only [pratt, hyes, if_true]
    rw [graft_eq_place hk]
    rfl
  have hout := Rose.Rewrites.arg h hrw (by simp)
  refine ⟨s', _, _, rfl, hout, ?_, fun j hj hj' => mem_ids_of_mem (by simp) (hmade j hj hj'),
    fun hop y hy hapart => ?_⟩
  · rw [hgraft, ← he]
    simp
  · have hs : op.kind ≠ .suffixOp := by
      obtain hop | hop := hop <;> simp [hop]
    obtain ⟨x'', hx'', he''⟩ := hpush hop y hy fun j hj hin => hapart j hj (mem_ids_of_mem (by simp) hin)
    rw [if_neg hs]
    refine ⟨_, Rose.Rewrites.arg hout.held hx'' hapart, ?_⟩
    rw [hgraft, ← he'']
    simp

/-- An operator that is put into no expression leaves the tree. -/
theorem grafts_other {fuel : ℕ} (h : Rose.Held nodes s (.node (i, some exprOp) ts))
    (hk : op.kind = .ternaryOp ∨ op.kind = .parenOp) :
    Grafts s op (.node (i, some exprOp) ts) (prattifyFrom (fuel + 1) s i op) := by
  have hr : prattifyFrom (fuel + 1) s i op = some (s, i) := by
    rw [prattifyFrom, opOf_stores h.stores]
    obtain hk | hk := hk <;> simp [hk]
  refine ⟨s, _, i, hr, Rose.Rewrites.refl h, ?_, fun j hj hj' => absurd hj hj', fun hop => ?_⟩
  · rw [graft_other hk]
  · obtain hk | hk := hk <;> simp [hk] at hop

/-- `prattify` rewrites the tree of a node in place. -/
theorem grafts_prattifyFrom {fuel : ℕ} (h : Rose.Held nodes s t) (ht : headOf t = some (i, exprOp))
    (hfuel : (ids t).length ≤ fuel) : Grafts s op t (prattifyFrom fuel s i op) := by
  induction t using Rose.induction generalizing i exprOp fuel with
  | leaf b => cases ht
  | node p ts ih =>
    obtain ⟨ts', ht'⟩ := headOf_eq_some ht
    cases ht'
    cases fuel with
    | zero => simp at hfuel
    | succ fuel =>
      by_cases hk : op.kind = .ternaryOp ∨ op.kind = .parenOp
      · exact grafts_other h hk
      rw [not_or] at hk
      obtain ⟨l, x, r, hl, hpad⟩ := exists_pad (exprOp.terms - 1) ts
      rw [prattifyFrom_stores h.stores hk hpad hl]
      by_cases ha : Rust.GoesAround exprOp op
      · rw [if_pos ha]
        exact grafts_wrap h ha
      rw [if_neg ha]
      cases hf : (headOf x).filter fun p => decide (Descends op p.2) with
      | none =>
        refine grafts_insert h hk ha hpad hl fun p hp => ?_
        simpa using Option.filter_eq_none_iff.1 hf p hp
      | some q =>
        obtain ⟨hq, hd⟩ := Option.filter_eq_some_iff.1 hf
        obtain ⟨us, rfl⟩ := headOf_eq_some hq
        obtain ⟨-, rfl⟩ | ⟨-, -, hx, -⟩ := pad_cases hpad hl
        · refine grafts_descend h hk ha hpad hl hq (by simpa using hd) ?_
          refine ih _ (by simp) h.arg.1 hq ?_
          simp only [ids_node, idsAll_append, idsAll_cons, List.length_cons,
            List.length_append] at hfuel ⊢
          omega
        · cases hx

theorem grafts_prattify (op : Op) (h : Rose.Held nodes s t) (ht : headOf t = some (i, exprOp)) :
    Grafts s op t (prattify s i op) :=
  grafts_prattifyFrom h ht h.length_ids_le

end TabnasExpr.Ts
