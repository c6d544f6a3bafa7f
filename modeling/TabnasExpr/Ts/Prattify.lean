import TabnasExpr.Located
import TabnasExpr.Ts.Heap

/-!
# What `prattify` does to a stored tree

Each branch of `prattify` rewrites the tree its argument heads in place: an infix operator is attached
at the right edge (`attach`), a prefix operator fills the operand that is due, and a suffix operator
goes where `suffixFlat` puts it.
-/

namespace TabnasExpr.Ts

open OpTree OpTree.Tree

variable {α : Type*} {s : Heap α}

/-! ## The descent of an operator -/

section Descent

/-- The descent of an infix operator stops at the operand it comes to, if it comes to one. -/
def StopsInfix (s : Heap α) (op : Op) : Tree Op (Val α) → Prop
  | leaf v => (opAt s v).filter (fun q => q.2.right < op.left) = none
  | pre p x => p.right < op.left → StopsInfix s op x
  | inf p _ r => p.right < op.left → StopsInfix s op r
  | _ => True

/-- A suffix operator that drills stops at the operand it comes to, if it comes to one. -/
def StopsDrill (s : Heap α) (op : Op) : Tree Op (Val α) → Prop
  | leaf v => (opAt s v).filter (fun q => q.2.kind = .prefixOp ∧ q.2.right < op.left) = none
  | pre p x => p.kind = .prefixOp ∧ p.right < op.left → StopsDrill s op x
  | _ => True

/-- The descent of a suffix operator stops at the operand it comes to, if it comes to one. -/
def StopsSuffix (s : Heap α) (op : Op) : Tree Op (Val α) → Prop
  | pre p x => p.right ≤ op.left → StopsDrill s op x
  | inf p _ r => p.right ≤ op.left → StopsDrill s op r
  | _ => True

variable {T : Tree Op (Val α)} {op : Op}

theorem Sealed.infix {v : Val α} (h : Sealed s op v) :
    (opAt s v).filter (fun q => q.2.right < op.left) = none := by
  refine Option.filter_eq_none_iff.2 fun q hq => ?_
  simp [(h q hq).2]

theorem Sealed.suffix {v : Val α} (h : Sealed s op v) :
    (opAt s v).filter (fun q => q.2.kind = .prefixOp ∧ q.2.right < op.left) = none := by
  refine Option.filter_eq_none_iff.2 fun q hq => ?_
  simp [(h q hq).1]

/-- An operator does not go into what binds its last operand at least as tightly. -/
theorem stopsInfix_of_not_lt {x : Tree (ℕ × Op) (Val α)} {q : ℕ × Op} (hq : rootOp x = some q)
    (h : ¬ q.2.right < op.left) : StopsInfix s op (erase x) := by
  cases x with
  | hole | leaf => cases hq
  | pre r x | inf r l x =>
    cases hq
    exact fun hlt => absurd hlt h
  | suf | grp => trivial

/-- An operator stops at operands that are sealed. -/
theorem stopsInfix_of_sealed (h : Leaves (Sealed s op) T) : StopsInfix s op T := by
  induction T with
  | leaf v => exact Sealed.infix h
  | pre p x ih => exact fun _ => ih h
  | inf p l r _ ih => exact fun _ => ih h.2
  | hole | suf | grp => trivial

theorem stopsDrill_of_sealed (h : Leaves (Sealed s op) T) : StopsDrill s op T := by
  induction T with
  | leaf v => exact Sealed.suffix h
  | pre p x ih => exact fun _ => ih h
  | hole | suf | inf | grp => trivial

theorem stopsSuffix_of_sealed (h : Leaves (Sealed s op) T) : StopsSuffix s op T := by
  cases T with
  | pre p x => exact fun _ => stopsDrill_of_sealed h
  | inf p l r => exact fun _ => stopsDrill_of_sealed h.2
  | hole | leaf | suf | grp => trivial

end Descent

section Handles

variable {t x : Tree (ℕ × Op) (Val α)} {p : ℕ × Op} {l? : Option (Tree (ℕ × Op) (Val α))}

/-- What stands for a tree in the node above it. -/
theorem slots_of_ne_hole (hx : x ≠ hole) : layout.slots x = [handle x] := by
  cases x with
  | hole => exact absurd rfl hx
  | leaf | pre | suf | inf | grp => rfl

theorem slots_of_complete (hx : Complete x) : layout.slots x = [handle x] :=
  slots_of_ne_hole fun h => by simp [h, Complete] at hx

theorem cell_root (h : Stores layout s t) (hr : rootOp t = some p) :
    ∃ vs, s.cell p.1 = some ⟨some p.2, vs⟩ := by
  cases t <;> cases hr <;> exact ⟨_, h.1⟩

theorem opOf_root (h : Stores layout s t) (hr : rootOp t = some p) : opOf s p.1 = some p.2 := by
  obtain ⟨vs, hc⟩ := cell_root h hr
  simp [opOf, hc]

theorem node_of_opAt {v : Val α} (h : opAt s v = some p) : v = .node p.1 := by
  cases v with
  | undefined | atom => cases h
  | node i =>
    obtain ⟨op, -, rfl⟩ := Option.map_eq_some_iff.1 h
    rfl

theorem opAt_handle (h : Stores layout s t) (hr : rootOp t = some p) :
    opAt s (handle t) = some p := by
  have hp : handle t = .node p.1 := by cases t <;> cases hr <;> rfl
  simp [hp, opAt, opOf_root h hr]

/-- A value the engine read is no node to go down to. -/
theorem sealed_of_isAtom {T : Tree Op (Val α)} (h : Leaves IsAtom T) (op : Op) :
    Leaves (Sealed s op) T := by
  refine h.mono ?_
  rintro v ⟨a, rfl⟩ q hq
  cases hq

/-- Looking for an operator to go down to finds it in the tree alone, when the descent stops at an
operand. -/
theorem filter_opAt_handle {f : ℕ × Op → Bool} (h : Stores layout s x) (hx : Complete x)
    (hs : ∀ v, erase x = leaf v → (opAt s v).filter f = none) :
    (opAt s (handle x)).filter f = (rootOp x).filter f := by
  cases hr : rootOp x with
  | some q => rw [opAt_handle h hr]
  | none =>
    cases x with
    | hole => exact hx.elim
    | leaf v => exact hs v rfl
    | pre | suf | inf | grp => cases hr

end Handles

section Avoids

variable {x : Tree (ℕ × Op) (Val α)} {op : Op} {fuel i : ℕ}

/-- No operand is one of the nodes. -/
def Avoids (L : List ℕ) (T : Tree Op (Val α)) : Prop := Leaves (fun v => ∀ i ∈ L, v ≠ .node i) T

theorem mem_descent_self : i ∈ descent s op fuel i := by
  cases fuel <;> exact List.mem_cons_self

theorem Avoids.below {T : Tree Op (Val α)} (h : Avoids (descent s op (fuel + 1) i) T) :
    Avoids ((below s op i).elim [] (descent s op fuel)) T :=
  h.mono fun _ hv j hj => hv j (List.mem_cons_of_mem _ hj)

/-- What the descent comes to below a node: an operand it stops at, or a tree it may go into. -/
theorem avoids_last {P : Prop} {f : ℕ × Op → Bool} (ht : Stores layout s x) (hc : Complete x)
    (hleaf : ∀ v, x = leaf v → (opAt s v).filter f = none → P)
    (hskip : ∀ r, rootOp x = some r → ¬ f r → P)
    (hs : Avoids ((((opAt s (handle x)).filter f).map Prod.fst).elim [] (descent s op fuel)) (erase x))
    (ih : ∀ r, rootOp x = some r → Avoids (descent s op fuel r.1) (erase x) → P) : P := by
  cases hr : rootOp x with
  | some r =>
    by_cases hf : f r
    · refine ih r hr ?_
      simpa [opAt_handle ht hr, hf, Option.filter] using hs
    · exact hskip r hr hf
  | none =>
    cases x with
    | hole => exact hc.elim
    | leaf v =>
      refine hleaf v rfl (Option.not_isSome_iff_eq_none.1 fun hsome => ?_)
      obtain ⟨r, hq⟩ := Option.isSome_iff_exists.1 hsome
      have hv : opAt s v = some r := (Option.filter_eq_some_iff.1 hq).1
      rw [handle, hq] at hs
      exact hs r.1 mem_descent_self (node_of_opAt hv)
    | pre | suf | inf | grp => cases hr

end Avoids

section Insert

variable {p : ℕ × Op} {l? : Option (Tree (ℕ × Op) (Val α))} {x y : Tree (ℕ × Op) (Val α)} {op : Op}

theorem setAt_front {vs ws : List (Val α)} (hw : ws.length ≤ 1) (v : Val α) :
    setAt (vs ++ ws) vs.length v = vs ++ [v] := by
  match ws, hw with
  | [], _ => simp [setAt]
  | [w], _ => simp [setAt]

theorem term_spine (h : Stores layout s (spine p l? x)) (hn : p.2.terms = (layout.front l?).length + 1)
    (hx : Complete x) : term s p.1 p.2.terms = handle x := by
  obtain ⟨hp, -, -⟩ := stores_spine.1 h
  simp [term, hp, hn, slots_of_complete hx]

/-- `expr[end] = updateExprNode([], op, ...)`: the last operand of a node is replaced by a new node
that keeps of the heap nothing but the old operand. -/
theorem rewrites_setTerm (h : Held layout s (spine p l? x))
    (hn : p.2.terms = (layout.front l?).length + 1) {vs : List (Val α)}
    (hy : Held layout (newNode s op vs).1 y) (hyn : layout.slots y = [.node (s.last + 1)])
    (hids : ∀ i ∈ ids y, i ∈ ids x ∨ s.cell i = none) :
    Rewrites layout s (setTerm (newNode s op vs).1 p.1 p.2.terms (.node (s.last + 1))) []
      (spine p l? x) (spine p l? y) := by
  refine Rewrites.put h (fun i hi => Store.cell_alloc_of_ne_none hi) hy (fun i hi => ?_)
    (fun i hi => absurd hi List.not_mem_nil) ?_
  · exact (hids i hi).imp_right Or.inr
  · have hx : (layout.slots x).length ≤ 1 := by cases x <;> simp [Layout.slots]
    simp [hyn, hn, setAt_front hx]

/-- A new node keeps what the heap holds. -/
theorem held_newNode (h : Held layout s x) (op : Op) (vs : List (Val α)) :
    Held layout (newNode s op vs).1 x :=
  ⟨h.stores.congr fun _ hi => Store.cell_alloc_of_ne_none (h.cell_ne_none hi), h.nodup⟩

theorem not_mem_ids_of_held (h : Held layout s x) : s.last + 1 ∉ ids x :=
  fun hi => h.cell_ne_none hi s.cell_next

theorem held_newNode_inf (h : Held layout s x) (hx : Complete x) :
    Held layout (newNode s op [handle x]).1 (inf (s.last + 1, op) x hole) := by
  refine ⟨⟨?_, (held_newNode h op _).stores, trivial⟩, ?_⟩
  · simp [newNode, Layout.slots, ← slots_of_complete hx]
  · simpa [ids] using ⟨not_mem_ids_of_held h, h.nodup⟩

theorem held_newNode_suf (h : Held layout s x) (hx : Complete x) :
    Held layout (newNode s op [handle x]).1 (suf (s.last + 1, op) x) := by
  refine ⟨⟨?_, (held_newNode h op _).stores⟩, ?_⟩
  · simp [newNode, ← slots_of_complete hx]
  · simpa [ids] using ⟨not_mem_ids_of_held h, h.nodup⟩

theorem held_newNode_pre : Held layout (newNode s op []).1 (pre (s.last + 1, op) hole) := by
  refine ⟨⟨?_, trivial⟩, ?_⟩
  · simp [newNode, Layout.slots]
  · simp [ids]

end Insert

/-! ## Infix operators -/

section Infix

variable {p : ℕ × Op} {l? : Option (Tree (ℕ × Op) (Val α))} {t x y : Tree (ℕ × Op) (Val α)} {op : Op}

/-- The outcome of embedding an infix operator into the stored tree `t`: the operator is attached at
the right edge in place, and the node handed back is its own. -/
def Attached (s : Heap α) (op : Op) (t : Tree (ℕ × Op) (Val α)) (r : Option (Heap α × ℕ)) : Prop :=
  ∃ s' t' out, r = some (s', out) ∧ Rewrites layout s s' [] t t' ∧
    erase t' = attach op (erase t) ∧
    ∃ l, edgeAt (attachDepth op (erase t)) t' = inf (out, op) l hole

theorem erase_spine_attach (h : p.2.right < op.left) (hy : erase y = attach op (erase x)) :
    erase (spine p l? y) = attach op (erase (spine p l? x)) := by
  cases l? <;> simp [spine, erase, attach, h, hy]

theorem attachDepth_spine (h : p.2.right < op.left) :
    attachDepth op (erase (spine p l? x)) = attachDepth op (erase x) + 1 := by
  cases l? <;> simp [spine, erase, attachDepth, h]

theorem attach_of_not_lt (h : ∀ q, rootOp x = some q → ¬ q.2.right < op.left) :
    attach op (erase x) = inf op (erase x) hole ∧ attachDepth op (erase x) = 0 := by
  cases x with
  | hole | leaf | suf | grp => exact ⟨rfl, rfl⟩
  | pre q x | inf q l x =>
    have := h q rfl
    simp [erase, attach, attachDepth, this]

/-- The operator takes the whole tree. -/
theorem attached_wrap {fuel : ℕ} (ht : Held layout s t) (hp : rootOp t = some p)
    (hop : op.kind = .infixOp) (hw : p.2.kind = .suffixOp ∨ op.left ≤ p.2.right)
    (ha : attach op (erase t) = inf op (erase t) hole ∧ attachDepth op (erase t) = 0) :
    Attached s op t (prattifyFrom (fuel + 1) s p.1 op) := by
  obtain ⟨vs, hc⟩ := cell_root ht.stores hp
  have hr : rootId t = some p.1 := by rw [rootId_eq, hp]; rfl
  refine ⟨updateExprNode (s.alloc ⟨some p.2, vs⟩).1 p.1 op [.node (s.last + 1)],
    inf (p.1, op) (moveRoot (s.last + 1) t) hole, p.1, ?_, Rewrites.wrap_inf ht hr hc rfl, ?_, ?_⟩
  · simp [prattifyFrom, opOf_root ht.stores hp, hop, hw, dupNode, hc]
  · rw [ha.1]
    simp [erase]
  · rw [ha.2]
    exact ⟨_, rfl⟩

/-- The operator goes below the root: into the last operand, or around it. -/
theorem attached_spine {fuel : ℕ} (h : Held layout s (spine p l? x)) (hl : FrontComplete l?)
    (hk : Slotted (erase (spine p l? x))) (hx : Complete x) (hop : op.kind = .infixOp)
    (hs : StopsInfix s op (erase x)) (hlt : p.2.right < op.left)
    (ih : ∀ q, rootOp x = some q → q.2.right < op.left →
      Attached s op x (prattifyFrom fuel s q.1 op)) :
    Attached s op (spine p l? x) (prattifyFrom (fuel + 1) s p.1 op) := by
  have hp : rootOp (spine p l? x) = some p := by cases l? <;> rfl
  have hsuf : p.2.kind ≠ .suffixOp := kind_spine_ne hk
  have hn := terms_spine layout hl hk
  have hfrom : prattifyFrom (fuel + 1) s p.1 op =
      ((rootOp x).filter fun q => q.2.right < op.left).elim
        (some (setTerm (newNode s op [handle x]).1 p.1 p.2.terms (.node (s.last + 1)), s.last + 1))
        fun q => prattifyFrom fuel s q.1 op := by
    rw [prattifyFrom, opOf_root h.stores hp]
    simp only [hop, hsuf, hlt.not_ge, or_self, if_false, term_spine h.stores hn hx]
    rw [filter_opAt_handle h.last.stores hx fun v hv => by simpa [hv, StopsInfix] using hs]
    cases (rootOp x).filter fun q => q.2.right < op.left <;> rfl
  rw [hfrom]
  cases hq : (rootOp x).filter fun q => q.2.right < op.left with
  | some q =>
    obtain ⟨hroot, hlt'⟩ : rootOp x = some q ∧ q.2.right < op.left := by
      simpa [Option.filter_eq_some_iff] using hq
    obtain ⟨s', y, out, hr, hrw, hy, hout⟩ := ih q hroot hlt'
    refine ⟨s', spine p l? y, out, hr, Rewrites.spine h hrw (by simp), erase_spine_attach hlt hy, ?_⟩
    rw [attachDepth_spine hlt, edgeAt_spine]
    exact hout
  | none =>
    have hnot : ∀ q, rootOp x = some q → ¬ q.2.right < op.left := by
      simpa [Option.filter_eq_none_iff] using hq
    obtain ⟨ha, hd⟩ := attach_of_not_lt hnot
    refine ⟨_, spine p l? (inf (s.last + 1, op) x hole), s.last + 1, rfl,
      rewrites_setTerm h hn (held_newNode_inf h.last hx) rfl fun i hi => ?_,
      erase_spine_attach hlt ha.symm, ?_⟩
    · simp only [ids, List.append_nil, List.mem_cons] at hi
      exact hi.symm.imp_right fun e => by rw [e, s.cell_next]
    · rw [attachDepth_spine hlt, edgeAt_spine, hd]
      exact ⟨x, rfl⟩

/-- `prattify` attaches an infix operator to a complete tree. -/
theorem prattifyFrom_infix {fuel : ℕ} (ht : Held layout s t) (hp : rootOp t = some p)
    (hc : Complete t) (hk : Slotted (erase t)) (hop : op.kind = .infixOp)
    (hs : StopsInfix s op (erase t)) (hle : op.left ≤ maxSafeInteger ∨ NoParen (erase t))
    (hfuel : (ids t).length ≤ fuel) :
    Attached s op t (prattifyFrom fuel s p.1 op) := by
  induction t generalizing p fuel with
  | hole | leaf => cases hp
  | suf q x =>
    cases hp
    cases fuel with
    | zero => simp [ids] at hfuel
    | succ fuel => exact attached_wrap ht rfl hop (Or.inl hk.1) ⟨rfl, rfl⟩
  | grp q x =>
    cases hp
    cases fuel with
    | zero => simp [ids] at hfuel
    | succ fuel =>
      have : op.left ≤ q.2.right := hk.2.1 ▸ hle.resolve_right id
      exact attached_wrap ht rfl hop (Or.inr this) ⟨rfl, rfl⟩
  | pre q x ih =>
    cases hp
    cases fuel with
    | zero => simp [ids] at hfuel
    | succ fuel =>
      have hx : Held layout s (spine q none x) := ht
      by_cases hlt : q.2.right < op.left
      · refine attached_spine hx (by simp [FrontComplete]) hk hc hop (hs hlt) hlt fun r hr _ => ?_
        exact ih hx.last hr hc hk.2 (hs hlt) hle (by simpa [ids] using hfuel)
      · refine attached_wrap ht rfl hop (Or.inr (not_lt.1 hlt)) (attach_of_not_lt ?_)
        rintro _ ⟨⟩
        exact hlt
  | inf q l r _ ih =>
    cases hp
    cases fuel with
    | zero => simp [ids] at hfuel
    | succ fuel =>
      have hr : Held layout s (spine q (some l) r) := ht
      by_cases hlt : q.2.right < op.left
      · refine attached_spine hr (by simpa [FrontComplete] using hc.1) hk hc.2 hop (hs hlt) hlt
          fun r' hr' _ => ?_
        refine ih hr.last hr' hc.2 hk.2.2 (hs hlt) (hle.imp_right And.right) ?_
        simp only [ids, List.length_cons, List.length_append] at hfuel
        omega
      · refine attached_wrap ht rfl hop (Or.inr (not_lt.1 hlt)) (attach_of_not_lt ?_)
        rintro _ ⟨⟩
        exact hlt

/-- The node an infix operator was attached at waits for its right operand. -/
theorem dueAt_of_attach {out : ℕ} (hc : Complete t) (hop : op.kind = .infixOp)
    (he : erase y = attach op (erase t)) (hd : edgeAt (attachDepth op (erase t)) y = inf (out, op) x hole) :
    DueAt (attachDepth op (erase t)) out y := by
  refine ⟨(out, op), some x, rfl, ?_, hop, hd⟩
  · -- The left operand stands on the right edge of a tree whose only operand due is the last one.
    have hopen : Open y := by
      rw [← open_erase, he]
      exact open_attach op (complete_erase.2 hc)
    have hon : OnEdge (attachDepth op (erase t)) y := onEdge_of_edgeAt hd (by simp)
    have := open_edgeAt hon hopen
    rw [hd] at this
    rintro l ⟨⟩
    exact this.1

/-- The descent goes on from a node to the root of its last operand. -/
theorem below_infix (l? : Option (Tree (ℕ × Op) (Val α))) (h : Stores layout s (spine p l? x))
    (hl : FrontComplete l?) (hk : Slotted (erase (spine p l? x))) (hx : Complete x)
    (hop : op.kind = .infixOp) (hlt : p.2.right < op.left) :
    below s op p.1 = ((opAt s (handle x)).filter fun q => q.2.right < op.left).map Prod.fst := by
  have hp : rootOp (spine p l? x) = some p := by cases l? <;> rfl
  rw [below, opOf_root h hp]
  simp only [hop, kind_spine_ne hk, hlt.not_ge, or_self, if_false,
    term_spine h (terms_spine layout hl hk) hx]

/-- An operator whose descent goes through no operand stops at the one it comes to. -/
theorem stopsInfix_of_avoids {fuel : ℕ} (ht : Stores layout s t) (hp : rootOp t = some p)
    (hc : Complete t) (hk : Slotted (erase t)) (hop : op.kind = .infixOp)
    (hs : Avoids (descent s op fuel p.1) (erase t)) (hfuel : (ids t).length ≤ fuel) :
    StopsInfix s op (erase t) := by
  induction t generalizing p fuel with
  | hole | leaf => cases hp
  | suf | grp => trivial
  | pre q x ih =>
    cases hp
    intro hlt
    obtain ⟨fuel, rfl⟩ := Nat.exists_eq_succ_of_ne_zero (Nat.ne_zero_of_lt hfuel)
    have hb := below_infix none ht (by simp [FrontComplete]) hk hc hop hlt
    refine avoids_last ht.2 hc (fun v hv hf => hv ▸ hf) (fun r hr hnot => ?_) (hb ▸ hs.below)
      fun r hr hs' => ih ht.2 hr hc hk.2 hs' (by simpa [ids] using hfuel)
    exact stopsInfix_of_not_lt hr (by simpa using hnot)
  | inf q l x _ ih =>
    cases hp
    intro hlt
    obtain ⟨fuel, rfl⟩ := Nat.exists_eq_succ_of_ne_zero (Nat.ne_zero_of_lt hfuel)
    have hb := below_infix (some l) ht (by simpa [FrontComplete] using hc.1) hk hc.2 hop hlt
    simp only [ids, List.length_cons, List.length_append] at hfuel
    refine avoids_last ht.2.2 hc.2 (fun v hv hf => hv ▸ hf) (fun r hr hnot => ?_) (hb ▸ Avoids.below hs.2)
      fun r hr hs' => ih ht.2.2 hr hc.2 hk.2.2 hs' (by omega)
    exact stopsInfix_of_not_lt hr (by simpa using hnot)

theorem prattify_infix (ht : Held layout s t) (hp : rootOp t = some p) (hc : Complete t)
    (hk : Slotted (erase t)) (hop : op.kind = .infixOp)
    (hs : StopsInfix s op (erase t)) (hle : op.left ≤ maxSafeInteger ∨ NoParen (erase t)) :
    Attached s op t (prattify s p.1 op) :=
  prattifyFrom_infix ht hp hc hk hop hs hle ht.length_ids_le

end Infix

/-! ## Suffix operators -/

section Suffix

variable {p : ℕ × Op} {l? : Option (Tree (ℕ × Op) (Val α))} {t x y : Tree (ℕ × Op) (Val α)} {op : Op}

/-- The outcome of embedding a suffix operator into the stored tree `t`: the operator goes where
`suffixFlat` puts it, in place, and the node handed back is the one given. -/
def Suffixed (s : Heap α) (op : Op) (t : Tree (ℕ × Op) (Val α)) (i : ℕ)
    (r : Option (Heap α × ℕ)) : Prop :=
  ∃ s' t', r = some (s', i) ∧ Rewrites layout s s' [] t t' ∧ erase t' = suffixFlat op (erase t)

theorem erase_spine_suffixFlat (h : p.2.right ≤ op.left) (hy : erase y = drillFlat op (erase x)) :
    erase (spine p l? y) = suffixFlat op (erase (spine p l? x)) := by
  cases l? <;> simp [spine, erase, suffixFlat, h, hy]

theorem drillFlat_of_not (h : ∀ q, rootOp x = some q → ¬ (q.2.kind = .prefixOp ∧ q.2.right < op.left)) :
    drillFlat op (erase x) = suf op (erase x) := by
  cases x with
  | hole | leaf | suf | inf | grp => rfl
  | pre q x =>
    have hnot := h q rfl
    simp only [erase, drillFlat, if_neg hnot]

theorem drillFlat_eq_suffixFlat {q : ℕ × Op} (hq : rootOp x = some q) (hk : Slotted (erase x))
    (hpre : q.2.kind = .prefixOp) (hlt : q.2.right < op.left) :
    drillFlat op (erase x) = suffixFlat op (erase x) := by
  cases x with
  | hole | leaf => cases hq
  | pre r x =>
    cases hq
    simp [erase, drillFlat, suffixFlat, hpre, hlt, hlt.le]
  | suf r x | inf r l x | grp r x =>
    cases hq
    have := hk.1
    simp [hpre] at this

/-- The operator takes the whole tree. -/
theorem suffixed_wrap {fuel : ℕ} (ht : Held layout s t) (hp : rootOp t = some p)
    (hop : op.kind = .suffixOp) (hw : ¬ (p.2.kind ≠ .suffixOp ∧ p.2.right ≤ op.left))
    (ha : suffixFlat op (erase t) = suf op (erase t)) :
    Suffixed s op t p.1 (prattifyFrom (fuel + 1) s p.1 op) := by
  obtain ⟨vs, hc⟩ := cell_root ht.stores hp
  have hr : rootId t = some p.1 := by rw [rootId_eq, hp]; rfl
  refine ⟨updateExprNode (s.alloc ⟨some p.2, vs⟩).1 p.1 op [.node (s.last + 1)],
    suf (p.1, op) (moveRoot (s.last + 1) t), ?_, Rewrites.wrap_suf ht hr hc rfl, ?_⟩
  · simp only [prattifyFrom, opOf_root ht.stores hp, hop, if_neg hw, dupNode, hc]
    rfl
  · simp [ha, erase]

/-- The operator goes below the root. -/
theorem suffixed_spine {fuel : ℕ} (h : Held layout s (spine p l? x)) (hl : FrontComplete l?)
    (hk : Slotted (erase (spine p l? x))) (hkx : Slotted (erase x)) (hx : Complete x)
    (hs : StopsDrill s op (erase x)) (hop : op.kind = .suffixOp) (hle : p.2.right ≤ op.left)
    (ih : ∀ q, rootOp x = some q → q.2.kind = .prefixOp → q.2.right < op.left →
      Suffixed s op x q.1 (prattifyFrom fuel s q.1 op)) :
    Suffixed s op (spine p l? x) p.1 (prattifyFrom (fuel + 1) s p.1 op) := by
  have hp : rootOp (spine p l? x) = some p := by cases l? <;> rfl
  have hsuf : p.2.kind ≠ .suffixOp := kind_spine_ne hk
  have hn := terms_spine layout hl hk
  have hfrom : prattifyFrom (fuel + 1) s p.1 op =
      ((rootOp x).filter fun q => q.2.kind = .prefixOp ∧ q.2.right < op.left).elim
        (some (setTerm (newNode s op [handle x]).1 p.1 p.2.terms (.node (s.last + 1)), p.1))
        fun q => (prattifyFrom fuel s q.1 op).map fun r => (r.1, p.1) := by
    rw [prattifyFrom, opOf_root h.stores hp]
    simp only [hop, ne_eq, hsuf, not_false_eq_true, hle, and_self, if_true,
      term_spine h.stores hn hx]
    rw [filter_opAt_handle h.last.stores hx fun v hv => by simpa [hv, StopsDrill] using hs]
    cases (rootOp x).filter fun q => q.2.kind = .prefixOp ∧ q.2.right < op.left <;> rfl
  rw [hfrom]
  cases hq : (rootOp x).filter fun q => q.2.kind = .prefixOp ∧ q.2.right < op.left with
  | some q =>
    obtain ⟨hroot, hpre, hlt⟩ :
        rootOp x = some q ∧ q.2.kind = .prefixOp ∧ q.2.right < op.left := by
      simpa [Option.filter_eq_some_iff] using hq
    obtain ⟨s', y, hr, hrw, hy⟩ := ih q hroot hpre hlt
    refine ⟨s', spine p l? y, by simp [hr], Rewrites.spine h hrw (by simp),
      erase_spine_suffixFlat hle ?_⟩
    rw [hy, drillFlat_eq_suffixFlat hroot hkx hpre hlt]
  | none =>
    have hnot : ∀ q, rootOp x = some q → ¬ (q.2.kind = .prefixOp ∧ q.2.right < op.left) := by
      simpa [Option.filter_eq_none_iff] using hq
    refine ⟨_, spine p l? (suf (s.last + 1, op) x), rfl,
      rewrites_setTerm h hn (held_newNode_suf h.last hx) rfl fun i hi => ?_,
      erase_spine_suffixFlat hle (drillFlat_of_not hnot).symm⟩
    simp only [ids, List.mem_cons] at hi
    exact hi.symm.imp_right fun e => by rw [e, s.cell_next]

/-- A prefix operator that is drilled into is one that a suffix operator goes into. -/
theorem StopsDrill.suffix {q : ℕ × Op} (h : StopsDrill s op (erase x)) (hq : rootOp x = some q)
    (hk : Slotted (erase x)) (hpre : q.2.kind = .prefixOp) (hlt : q.2.right < op.left) :
    StopsSuffix s op (erase x) := by
  cases x with
  | hole | leaf => cases hq
  | pre r x =>
    cases hq
    exact fun _ => h ⟨hpre, hlt⟩
  | inf r l x =>
    cases hq
    have := hk.1
    simp [hpre] at this
  | suf | grp => trivial

/-- `prattify` puts a suffix operator where `suffixFlat` does. -/
theorem prattifyFrom_suffix {fuel : ℕ} (ht : Held layout s t) (hp : rootOp t = some p)
    (hc : Complete t) (hk : Slotted (erase t)) (hop : op.kind = .suffixOp)
    (hs : StopsSuffix s op (erase t)) (hlt : op.left < maxSafeInteger ∨ NoParen (erase t))
    (hfuel : (ids t).length ≤ fuel) :
    Suffixed s op t p.1 (prattifyFrom fuel s p.1 op) := by
  induction t generalizing p fuel with
  | hole | leaf => cases hp
  | suf q x =>
    cases hp
    cases fuel with
    | zero => simp [ids] at hfuel
    | succ fuel => exact suffixed_wrap ht rfl hop (fun h => h.1 hk.1) rfl
  | grp q x =>
    cases hp
    cases fuel with
    | zero => simp [ids] at hfuel
    | succ fuel =>
      have : op.left < q.2.right := hk.2.1 ▸ hlt.resolve_right id
      exact suffixed_wrap ht rfl hop (fun h => this.not_ge h.2) rfl
  | pre q x ih =>
    cases hp
    cases fuel with
    | zero => simp [ids] at hfuel
    | succ fuel =>
      have hx : Held layout s (spine q none x) := ht
      by_cases hle : q.2.right ≤ op.left
      · refine suffixed_spine hx (by simp [FrontComplete]) hk hk.2 hc (hs hle) hop hle
          fun r hr hpre hlt' => ?_
        exact ih hx.last hr hc hk.2 ((hs hle).suffix hr hk.2 hpre hlt') hlt (by simpa [ids] using hfuel)
      · exact suffixed_wrap ht rfl hop (fun h => hle h.2) (by simp [erase, suffixFlat, hle])
  | inf q l r _ ih =>
    cases hp
    cases fuel with
    | zero => simp [ids] at hfuel
    | succ fuel =>
      have hr : Held layout s (spine q (some l) r) := ht
      by_cases hle : q.2.right ≤ op.left
      · refine suffixed_spine hr (by simpa [FrontComplete] using hc.1) hk hk.2.2 hc.2 (hs hle) hop hle
          fun r' hr' hpre hlt' => ?_
        refine ih hr.last hr' hc.2 hk.2.2 ((hs hle).suffix hr' hk.2.2 hpre hlt') (hlt.imp_right And.right) ?_
        simp only [ids, List.length_cons, List.length_append] at hfuel
        omega
      · exact suffixed_wrap ht rfl hop (fun h => hle h.2) (by simp [erase, suffixFlat, hle])

/-- The descent goes on from a node to the root of its last operand. -/
theorem below_suffix (l? : Option (Tree (ℕ × Op) (Val α))) (h : Stores layout s (spine p l? x))
    (hl : FrontComplete l?) (hk : Slotted (erase (spine p l? x))) (hx : Complete x)
    (hop : op.kind = .suffixOp) (hle : p.2.right ≤ op.left) :
    below s op p.1 = ((opAt s (handle x)).filter fun q =>
      q.2.kind = .prefixOp ∧ q.2.right < op.left).map Prod.fst := by
  have hp : rootOp (spine p l? x) = some p := by cases l? <;> rfl
  rw [below, opOf_root h hp]
  simp only [hop, ne_eq, kind_spine_ne hk, not_false_eq_true, hle, and_self, if_true,
    term_spine h (terms_spine layout hl hk) hx]

/-- A suffix operator whose descent goes through no operand stops at the one it comes to. -/
theorem stopsDrill_of_avoids {fuel : ℕ} (ht : Stores layout s x) (hc : Complete x)
    (hk : Slotted (erase x)) (hop : op.kind = .suffixOp)
    (hs : Avoids ((((opAt s (handle x)).filter fun q =>
      q.2.kind = .prefixOp ∧ q.2.right < op.left).map Prod.fst).elim [] (descent s op fuel)) (erase x))
    (hfuel : (ids x).length ≤ fuel) : StopsDrill s op (erase x) := by
  induction x generalizing fuel with
  | hole => exact hc.elim
  | leaf v =>
    refine avoids_last ht hc (fun u hu hf => ?_) (by simp [rootOp]) hs (by simp [rootOp])
    obtain rfl : v = u := leaf.inj hu
    exact hf
  | pre q x ih =>
    rintro ⟨hpre, hlt⟩
    obtain ⟨fuel, rfl⟩ := Nat.exists_eq_succ_of_ne_zero (Nat.ne_zero_of_lt hfuel)
    have hb := below_suffix none ht (by simp [FrontComplete]) hk hc hop hlt.le
    rw [opAt_handle ht rfl] at hs
    have hs' : Avoids (descent s op (fuel + 1) q.1) (erase (pre q x)) := by
      simpa [Option.filter, hpre, hlt] using hs
    exact ih ht.2 hc hk.2 (hb ▸ Avoids.below (T := erase x) hs') (by simpa [ids] using hfuel)
  | suf | inf | grp => trivial

theorem stopsSuffix_of_avoids {fuel : ℕ} (ht : Stores layout s t) (hp : rootOp t = some p)
    (hc : Complete t) (hk : Slotted (erase t)) (hop : op.kind = .suffixOp)
    (hs : Avoids (descent s op fuel p.1) (erase t)) (hfuel : (ids t).length ≤ fuel) :
    StopsSuffix s op (erase t) := by
  cases t with
  | hole | leaf => cases hp
  | suf | grp => trivial
  | pre q x =>
    cases hp
    intro hle
    obtain ⟨fuel, rfl⟩ := Nat.exists_eq_succ_of_ne_zero (Nat.ne_zero_of_lt hfuel)
    have hb := below_suffix none ht (by simp [FrontComplete]) hk hc hop hle
    exact stopsDrill_of_avoids ht.2 hc hk.2 hop (hb ▸ hs.below) (by simpa [ids] using hfuel)
  | inf q l x =>
    cases hp
    intro hle
    obtain ⟨fuel, rfl⟩ := Nat.exists_eq_succ_of_ne_zero (Nat.ne_zero_of_lt hfuel)
    have hb := below_suffix (some l) ht (by simpa [FrontComplete] using hc.1) hk hc.2 hop hle
    simp only [ids, List.length_cons, List.length_append] at hfuel
    exact stopsDrill_of_avoids ht.2.2 hc.2 hk.2.2 hop (hb ▸ Avoids.below hs.2) (by omega)

theorem prattify_suffix (ht : Held layout s t) (hp : rootOp t = some p) (hc : Complete t)
    (hk : Slotted (erase t)) (hop : op.kind = .suffixOp)
    (hs : StopsSuffix s op (erase t)) (hlt : op.left < maxSafeInteger ∨ NoParen (erase t)) :
    Suffixed s op t p.1 (prattify s p.1 op) :=
  prattifyFrom_suffix ht hp hc hk hop hs hlt ht.length_ids_le

end Suffix

/-! ## The operand that is due -/

section Due

variable {p : ℕ × Op} {l? : Option (Tree (ℕ × Op) (Val α))} {t y : Tree (ℕ × Op) (Val α)} {op : Op}
  {d : ℕ}

/-- A prefix operator fills the operand that is due, and then waits for its own. -/
theorem prattify_prefix {i : ℕ} (ht : Held layout s t) (hd : DueAt d i t)
    (hop : op.kind = .prefixOp) :
    ∃ s', prattify s i op = some (s', s.last + 1) ∧
      Rewrites layout s s' [] t (fill (pre (s.last + 1, op) hole) t) ∧
      DueAt (d + 1) (s.last + 1) (fill (pre (s.last + 1, op) hole) t) := by
  obtain ⟨p, l?, rfl, hl, hk, he⟩ := hd
  have hon := onEdge_of_edgeAt he spine_ne_hole
  have hu : Held layout s (spine p l? hole) := he ▸ ht.edgeAt
  have hp : opOf s p.1 = some p.2 := opOf_root hu.stores (by cases l? <;> rfl)
  have hnew : Held layout (newNode s op []).1 (pre (s.last + 1, op) hole) := held_newNode_pre
  have hrw := rewrites_setTerm hu (terms_due layout hl hk) hnew rfl fun i hi => by
    obtain rfl : i = s.last + 1 := by simpa [ids] using hi
    exact Or.inr s.cell_next
  refine ⟨setTerm (newNode s op []).1 p.1 p.2.terms (.node (s.last + 1)), ?_, ?_, ?_⟩
  · simp only [prattify, prattifyFrom, hp, hop]
    rfl
  · rw [fill_eq_onEdge he]
    exact Rewrites.onEdge ht hon (he ▸ hrw) (by simp)
  · refine ⟨(s.last + 1, op), none, rfl, by simp [FrontComplete], hop, ?_⟩
    rw [fill_eq_onEdge he, edgeAt_add, edgeAt_onEdge_of he spine_ne_hole, edgeAt_spine]
    rfl

/-- Pushing an operand onto the node that waits for it fills the tree. -/
theorem rewrites_push {i : ℕ} (ht : Held layout s t) (hd : DueAt d i t) (hy : Held layout s y)
    (hc : Complete y) (hout : ∀ j ∈ ids y, j ∉ ids t) :
    Rewrites layout s (push s i (handle y)) (ids y) t (fill y t) := by
  obtain ⟨p, l?, rfl, hl, hk, he⟩ := hd
  have hon := onEdge_of_edgeAt he spine_ne_hole
  have hu : Held layout s (spine p l? hole) := he ▸ ht.edgeAt
  have hrw : Rewrites layout s (push s p.1 (handle y)) (ids y) (spine p l? hole)
      (spine p l? y) := by
    refine Rewrites.put hu (fun _ _ => rfl) hy (fun j hj => Or.inr (Or.inl hj)) (fun j hj hjt => ?_) ?_
    · rw [← he] at hjt
      exact hout j hj (mem_ids_of_edgeAt hjt)
    · simp [slots_of_complete hc]
  rw [fill_eq_onEdge he]
  exact Rewrites.onEdge ht hon (he ▸ hrw) hout

end Due

end TabnasExpr.Ts
