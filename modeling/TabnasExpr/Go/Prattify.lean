import TabnasExpr.Go.Fill

/-!
# What the Go port's `prattify` does to a stored tree

An infix operator is attached at the right edge as in the other ports, a prefix operator fills the
operand that is due, and a suffix operator goes down from the root through prefix and infix operators
alike (`suffixFrom`).
-/

namespace TabnasExpr.Go

open OpTree OpTree.Tree

variable {α : Type*} {β : Type*}

/-- Go down the prefix and infix operators that bind less tightly than the suffix. -/
def sink (s : Op) : Tree Op β → Tree Op β
  | pre p x => if p.right < s.left then pre p (sink s x) else suf s (pre p x)
  | inf p l r => if p.right < s.left then inf p l (sink s r) else suf s (inf p l r)
  | t => suf s t

/-- Integrate a suffix at the root of an expression. -/
def suffixFrom (s : Op) : Tree Op β → Tree Op β
  | pre p x => if p.right ≤ s.left then pre p (sink s x) else suf s (pre p x)
  | inf p l r => if p.right ≤ s.left then inf p l (sink s r) else suf s (inf p l r)
  | t => suf s t

variable {s : Heap α} {t x y : Tree (ℕ × Op) (Val α)} {p : ℕ × Op}
  {l? : Option (Tree (ℕ × Op) (Val α))} {op : Op} {fuel : ℕ}

section Boxes

theorem makeSlots_pre (h : op.kind = .prefixOp) :
    makeSlots op ([] : List (Slot α)) = [.unfilled] := by
  simp [makeSlots, Op.terms, h]

theorem makeSlots_suf (h : op.kind = .suffixOp) (v : Slot α) : makeSlots op [v] = [v] := by
  simp [makeSlots, Op.terms, h]

theorem makeSlots_inf (h : op.kind = .infixOp) (v : Slot α) :
    makeSlots op [v] = [v, .unfilled] := by
  simp [makeSlots, Op.terms, h]

theorem held_makeExpr (h : Held layout s x) (op : Op) (vs : List (Slot α)) :
    Held layout (makeExpr s op vs).1 x :=
  ⟨h.stores.congr fun _ hi => Store.cell_alloc_of_ne_none (h.cell_ne_none hi), h.nodup⟩

theorem not_mem_ids_of_held (h : Held layout s x) : s.last + 1 ∉ ids x :=
  fun hi => h.cell_ne_none hi s.cell_next

theorem held_makeExpr_inf (h : Held layout s x) (hx : Complete x) (hop : op.kind = .infixOp) :
    Held layout (makeExpr s op [.val (handle x)]).1 (inf (s.last + 1, op) x hole) := by
  refine ⟨⟨?_, (held_makeExpr h op _).stores, trivial⟩, ?_⟩
  · simp [makeExpr, makeSlots_inf hop, slots_of_complete hx]
  · simpa [ids] using ⟨not_mem_ids_of_held h, h.nodup⟩

theorem held_makeExpr_suf (h : Held layout s x) (hx : Complete x) (hop : op.kind = .suffixOp) :
    Held layout (makeExpr s op [.val (handle x)]).1 (suf (s.last + 1, op) x) := by
  refine ⟨⟨?_, (held_makeExpr h op _).stores⟩, ?_⟩
  · simp [makeExpr, makeSlots_suf hop, slots_of_complete hx]
  · simpa [ids] using ⟨not_mem_ids_of_held h, h.nodup⟩

theorem held_makeExpr_pre (hop : op.kind = .prefixOp) :
    Held layout (makeExpr s op []).1 (pre (s.last + 1, op) hole) := by
  refine ⟨⟨?_, trivial⟩, ?_⟩
  · simp [makeExpr, makeSlots_pre hop]
  · simp [ids]

/-- `box.Val[exprOp.Terms]` is the last operand. -/
theorem slotAt_spine (h : Stores layout s (spine p l? x)) (hl : FrontComplete l?)
    (hk : Kinded (erase (spine p l? x))) (hx : Complete x) :
    slotAt s p.1 p.2.terms = some (.val (handle x)) := by
  obtain ⟨hp, -, -⟩ := stores_spine.1 h
  simp [slotAt, hp, terms_spine layout hl hk.slotted, slots_of_complete hx]

/-- The last operand of a box is replaced by a new box that keeps of the heap nothing but the old
operand. -/
theorem rewrites_setSlot (h : Held layout s (spine p l? x)) (hl : FrontComplete l?)
    (hk : Kinded (erase (spine p l? x))) (hx : Complete x) {vs : List (Slot α)}
    (hy : Held layout (makeExpr s op vs).1 y) (hyn : layout.slots y = [.val (.node (s.last + 1))])
    (hids : ∀ i ∈ ids y, i ∈ ids x ∨ i = s.last + 1) :
    Rewrites layout s (setSlot (makeExpr s op vs).1 p.1 p.2.terms (.val (.node (s.last + 1)))) []
      (spine p l? x) (spine p l? y) := by
  refine Rewrites.put h (fun i hi => Store.cell_alloc_of_ne_none hi) hy (fun i hi => ?_)
    (fun i hi => absurd hi List.not_mem_nil) ?_
  · obtain hi | rfl := hids i hi
    · exact Or.inl hi
    · exact Or.inr (Or.inr s.cell_next)
  · simp [hyn, terms_spine layout hl hk.slotted, slots_of_complete hx]

/-- `wrapExpr` with an infix operator. -/
theorem rewrites_wrapExpr_infix (ht : Held layout s t) (hp : rootOp t = some p)
    (hop : op.kind = .infixOp) :
    Rewrites layout s (wrapExpr s p.1 op) [] t
      (inf (p.1, op) (moveRoot (s.last + 1) t) hole) := by
  obtain ⟨vs, hc⟩ := cell_root ht.stores hp
  have := Rewrites.wrap_inf (o := op)
    (f := fun _ => ⟨some op, makeSlots op [.val (.node (s.last + 1))]⟩) ht (rootId_of_root hp) hc
    (by simp [makeSlots_inf hop])
  simpa [wrapExpr, dupExpr, hc] using this

/-- `wrapExpr` with a suffix operator. -/
theorem rewrites_wrapExpr_suffix (ht : Held layout s t) (hp : rootOp t = some p)
    (hop : op.kind = .suffixOp) :
    Rewrites layout s (wrapExpr s p.1 op) [] t (suf (p.1, op) (moveRoot (s.last + 1) t)) := by
  obtain ⟨vs, hc⟩ := cell_root ht.stores hp
  have := Rewrites.wrap_suf (o := op)
    (f := fun _ => ⟨some op, makeSlots op [.val (.node (s.last + 1))]⟩) ht (rootId_of_root hp) hc
    (by simp [makeSlots_suf hop])
  simpa [wrapExpr, dupExpr, hc] using this

end Boxes

/-! ## Infix operators -/

section Infix

/-- The outcome of integrating an infix operator into the stored tree `t`. -/
def Attached (s : Heap α) (op : Op) (t : Tree (ℕ × Op) (Val α)) (r : Option (Heap α × ℕ)) : Prop :=
  ∃ s' t' out, r = some (s', out) ∧ Rewrites layout s s' [] t t' ∧ erase t' = attach op (erase t)

theorem attached_wrap {fuel : ℕ} (ht : Held layout s t) (hp : rootOp t = some p)
    (hpk : p.2.kind ≠ .parenOp) (hop : op.kind = .infixOp)
    (hw : p.2.kind = .suffixOp ∨ op.left ≤ p.2.right)
    (ha : attach op (erase t) = inf op (erase t) hole) :
    Attached s op t (prattifyFrom (fuel + 1) s p.1 op) := by
  refine ⟨wrapExpr s p.1 op, _, p.1, ?_, rewrites_wrapExpr_infix ht hp hop, ?_⟩
  · simp [prattifyFrom, opOf_root ht.stores hp, hpk, hop, hw]
  · simp [ha, erase]

theorem attached_spine {fuel : ℕ} (h : Held layout s (spine p l? x)) (hl : FrontComplete l?)
    (hk : Kinded (erase (spine p l? x))) (hkx : Kinded (erase x)) (hx : Complete x)
    (hn : NoParen (erase x)) (hlx : Leaves IsAtom (erase x)) (hop : op.kind = .infixOp)
    (hlt : p.2.right < op.left)
    (ih : ∀ q, rootOp x = some q → q.2.right < op.left →
      Attached s op x (prattifyFrom fuel s q.1 op)) :
    Attached s op (spine p l? x) (prattifyFrom (fuel + 1) s p.1 op) := by
  have hp : rootOp (spine p l? x) = some p := by cases l? <;> rfl
  have hkp : p.2.kind = .prefixOp ∨ p.2.kind = .infixOp := by
    cases l? with
    | none => exact Or.inl hk.1
    | some l => exact Or.inr hk.1
  have hsuf : p.2.kind ≠ .suffixOp := by obtain h | h := hkp <;> simp [h]
  have hpar : p.2.kind ≠ .parenOp := by obtain h | h := hkp <;> simp [h]
  -- The operator at the root of an operand heads no paren and no ternary.
  have hqk : ∀ q, rootOp x = some q → q.2.kind ≠ .parenOp ∧ q.2.kind ≠ .ternaryOp := by
    intro q hq
    cases x with
    | hole | leaf => cases hq
    | pre | suf | inf =>
      cases hq
      have := hkx.1
      simp [this]
    | grp => exact hn.elim
  have hfrom : prattifyFrom (fuel + 1) s p.1 op =
      ((rootOp x).filter fun q =>
          q.2.kind ≠ .parenOp ∧ q.2.kind ≠ .ternaryOp ∧ q.2.right < op.left).elim
        (some (setSlot (makeExpr s op [.val (handle x)]).1 p.1 p.2.terms
          (.val (.node (s.last + 1))), s.last + 1))
        fun q => prattifyFrom fuel s q.1 op := by
    rw [prattifyFrom, opOf_root h.stores hp]
    simp only [if_neg hpar, hop, hsuf, hlt.not_ge, or_self, if_false,
      slotAt_spine h.stores hl hk hx, opAtSlot, opAt_handle h.last.stores hlx]
    cases (rootOp x).filter fun q =>
      q.2.kind ≠ .parenOp ∧ q.2.kind ≠ .ternaryOp ∧ q.2.right < op.left <;> rfl
  rw [hfrom]
  cases hq : (rootOp x).filter fun q =>
      q.2.kind ≠ .parenOp ∧ q.2.kind ≠ .ternaryOp ∧ q.2.right < op.left with
  | some q =>
    obtain ⟨hroot, -, -, hlt'⟩ : rootOp x = some q ∧ q.2.kind ≠ .parenOp ∧
        q.2.kind ≠ .ternaryOp ∧ q.2.right < op.left := by
      simpa [Option.filter_eq_some_iff] using hq
    obtain ⟨s', y, out, hr, hrw, hy⟩ := ih q hroot hlt'
    exact ⟨s', spine p l? y, out, hr, Rewrites.spine h hrw (by simp),
      Ts.erase_spine_attach hlt hy⟩
  | none =>
    have hnot : ∀ q, rootOp x = some q → ¬ q.2.right < op.left := by
      intro q hroot
      obtain ⟨h₁, h₂⟩ := hqk q hroot
      have := Option.filter_eq_none_iff.1 hq q hroot
      simpa [h₁, h₂] using this
    refine ⟨_, spine p l? (inf (s.last + 1, op) x hole), s.last + 1, rfl,
      rewrites_setSlot h hl hk hx (held_makeExpr_inf h.last hx hop) rfl fun i hi => ?_,
      Ts.erase_spine_attach hlt (Ts.attach_of_not_lt hnot).1.symm⟩
    simpa [ids, or_comm] using hi

theorem prattifyFrom_infix {fuel : ℕ} (ht : Held layout s t) (hp : rootOp t = some p)
    (hc : Complete t) (hk : Kinded (erase t)) (hn : NoParen (erase t))
    (hl : Leaves IsAtom (erase t)) (hop : op.kind = .infixOp) (hfuel : (ids t).length ≤ fuel) :
    Attached s op t (prattifyFrom fuel s p.1 op) := by
  induction t generalizing p fuel with
  | hole | leaf => cases hp
  | grp q x => exact hn.elim
  | suf q x =>
    cases hp
    obtain ⟨fuel, rfl⟩ := Nat.exists_eq_succ_of_ne_zero (Nat.ne_zero_of_lt hfuel)
    exact attached_wrap ht rfl (by simp [hk.1]) hop (Or.inl hk.1) rfl
  | pre q x ih =>
    cases hp
    obtain ⟨fuel, rfl⟩ := Nat.exists_eq_succ_of_ne_zero (Nat.ne_zero_of_lt hfuel)
    have hx : Held layout s (spine q none x) := ht
    by_cases hlt : q.2.right < op.left
    · refine attached_spine hx (by simp [FrontComplete]) hk hk.2 hc hn hl hop hlt fun r hr _ => ?_
      exact ih hx.last hr hc hk.2 hn hl (by simpa [ids] using hfuel)
    · refine attached_wrap ht rfl (by simp [hk.1]) hop (Or.inr (not_lt.1 hlt)) ?_
      simp [erase, attach, hlt]
  | inf q l r _ ih =>
    cases hp
    obtain ⟨fuel, rfl⟩ := Nat.exists_eq_succ_of_ne_zero (Nat.ne_zero_of_lt hfuel)
    have hr : Held layout s (spine q (some l) r) := ht
    by_cases hlt : q.2.right < op.left
    · refine attached_spine hr (by simpa [FrontComplete] using hc.1) hk hk.2.2 hc.2 hn.2 hl.2 hop
        hlt fun r' hr' _ => ?_
      refine ih hr.last hr' hc.2 hk.2.2 hn.2 hl.2 ?_
      simp only [ids, List.length_cons, List.length_append] at hfuel
      omega
    · refine attached_wrap ht rfl (by simp [hk.1]) hop (Or.inr (not_lt.1 hlt)) ?_
      simp [erase, attach, hlt]

/-- `prattify` attaches an infix operator to a complete tree. -/
theorem prattify_infix (ht : Held layout s t) (hp : rootOp t = some p) (hc : Complete t)
    (hk : Kinded (erase t)) (hn : NoParen (erase t)) (hl : Leaves IsAtom (erase t))
    (hop : op.kind = .infixOp) : Attached s op t (prattify s p.1 op) :=
  prattifyFrom_infix ht hp hc hk hn hl hop ht.length_ids_le

end Infix

/-! ## Suffix operators -/

section Suffix

/-- The outcome of integrating a suffix operator into the stored tree `t`, whose box is `i`. -/
def Suffixed (s : Heap α) (op : Op) (t : Tree (ℕ × Op) (Val α)) (i : ℕ)
    (r : Option (Heap α × ℕ)) : Prop :=
  ∃ s' t', r = some (s', i) ∧ Rewrites layout s s' [] t t' ∧ erase t' = suffixFrom op (erase t)

theorem erase_spine_suffixFrom (h : p.2.right ≤ op.left) (hy : erase y = sink op (erase x)) :
    erase (spine p l? y) = suffixFrom op (erase (spine p l? x)) := by
  cases l? <;> simp [spine, erase, suffixFrom, h, hy]

theorem sink_of_not (h : ∀ q, rootOp x = some q →
      ¬ ((q.2.kind = .prefixOp ∨ q.2.kind = .infixOp) ∧ q.2.right < op.left))
    (hk : Kinded (erase x)) : sink op (erase x) = suf op (erase x) := by
  cases x with
  | hole | leaf | suf | grp => rfl
  | pre q x | inf q l x =>
    have hlt : ¬ q.2.right < op.left := fun hlt => h q rfl ⟨by simp [hk.1], hlt⟩
    simp [erase, sink, hlt]

theorem sink_eq_suffixFrom {q : ℕ × Op} (hq : rootOp x = some q) (hlt : q.2.right < op.left) :
    sink op (erase x) = suffixFrom op (erase x) := by
  cases x with
  | hole | leaf => cases hq
  | pre r x | inf r l x =>
    cases hq
    simp [erase, sink, suffixFrom, hlt, hlt.le]
  | suf r x | grp r x => rfl

theorem suffixed_wrap {fuel : ℕ} (ht : Held layout s t) (hp : rootOp t = some p)
    (hop : op.kind = .suffixOp)
    (hw : ¬ (p.2.kind ≠ .parenOp ∧ p.2.kind ≠ .suffixOp ∧ p.2.right ≤ op.left))
    (ha : suffixFrom op (erase t) = suf op (erase t)) :
    Suffixed s op t p.1 (prattifySuffixFrom (fuel + 1) s p.1 op) := by
  refine ⟨wrapExpr s p.1 op, _, ?_, rewrites_wrapExpr_suffix ht hp hop, ?_⟩
  · simp only [prattifySuffixFrom, opOf_root ht.stores hp, if_neg hw]
  · simp [ha, erase]

theorem suffixed_spine {fuel : ℕ} (h : Held layout s (spine p l? x)) (hl : FrontComplete l?)
    (hk : Kinded (erase (spine p l? x))) (hkx : Kinded (erase x)) (hx : Complete x)
    (hlx : Leaves IsAtom (erase x)) (hop : op.kind = .suffixOp) (hle : p.2.right ≤ op.left)
    (ih : ∀ q, rootOp x = some q → q.2.right < op.left →
      Suffixed s op x q.1 (prattifySuffixFrom fuel s q.1 op)) :
    Suffixed s op (spine p l? x) p.1 (prattifySuffixFrom (fuel + 1) s p.1 op) := by
  have hp : rootOp (spine p l? x) = some p := by cases l? <;> rfl
  have hkp : p.2.kind ≠ .parenOp ∧ p.2.kind ≠ .suffixOp ∧ p.2.right ≤ op.left := by
    cases l? <;> simp [hk.1, hle]
  have hfrom : prattifySuffixFrom (fuel + 1) s p.1 op =
      ((rootOp x).filter fun q =>
          (q.2.kind = .prefixOp ∨ q.2.kind = .infixOp) ∧ q.2.right < op.left).elim
        (some (setSlot (makeExpr s op [.val (handle x)]).1 p.1 p.2.terms
          (.val (.node (s.last + 1))), p.1))
        fun q => (prattifySuffixFrom fuel s q.1 op).map fun r => (r.1, p.1) := by
    rw [prattifySuffixFrom, opOf_root h.stores hp]
    simp only [if_pos hkp, slotAt_spine h.stores hl hk hx, opAtSlot,
      opAt_handle h.last.stores hlx]
    cases (rootOp x).filter fun q =>
      (q.2.kind = .prefixOp ∨ q.2.kind = .infixOp) ∧ q.2.right < op.left <;> rfl
  rw [hfrom]
  cases hq : (rootOp x).filter fun q =>
      (q.2.kind = .prefixOp ∨ q.2.kind = .infixOp) ∧ q.2.right < op.left with
  | some q =>
    obtain ⟨hroot, -, hlt⟩ : rootOp x = some q ∧
        (q.2.kind = .prefixOp ∨ q.2.kind = .infixOp) ∧ q.2.right < op.left := by
      simpa [Option.filter_eq_some_iff] using hq
    obtain ⟨s', y, hr, hrw, hy⟩ := ih q hroot hlt
    refine ⟨s', spine p l? y, by simp [hr], Rewrites.spine h hrw (by simp),
      erase_spine_suffixFrom hle ?_⟩
    rw [hy, sink_eq_suffixFrom hroot hlt]
  | none =>
    have hnot : ∀ q, rootOp x = some q →
        ¬ ((q.2.kind = .prefixOp ∨ q.2.kind = .infixOp) ∧ q.2.right < op.left) := by
      intro q hroot
      simpa using Option.filter_eq_none_iff.1 hq q hroot
    refine ⟨_, spine p l? (suf (s.last + 1, op) x), rfl,
      rewrites_setSlot h hl hk hx (held_makeExpr_suf h.last hx hop) rfl fun i hi => ?_,
      erase_spine_suffixFrom hle (sink_of_not hnot hkx).symm⟩
    simpa [ids, or_comm] using hi

theorem prattifySuffixFrom_spec {fuel : ℕ} (ht : Held layout s t) (hp : rootOp t = some p)
    (hc : Complete t) (hk : Kinded (erase t)) (hl : Leaves IsAtom (erase t))
    (hop : op.kind = .suffixOp) (hfuel : (ids t).length ≤ fuel) :
    Suffixed s op t p.1 (prattifySuffixFrom fuel s p.1 op) := by
  induction t generalizing p fuel with
  | hole | leaf => cases hp
  | suf q x | grp q x =>
    cases hp
    obtain ⟨fuel, rfl⟩ := Nat.exists_eq_succ_of_ne_zero (Nat.ne_zero_of_lt hfuel)
    exact suffixed_wrap ht rfl hop (by simp [hk.1]) rfl
  | pre q x ih =>
    cases hp
    obtain ⟨fuel, rfl⟩ := Nat.exists_eq_succ_of_ne_zero (Nat.ne_zero_of_lt hfuel)
    have hx : Held layout s (spine q none x) := ht
    by_cases hle : q.2.right ≤ op.left
    · refine suffixed_spine hx (by simp [FrontComplete]) hk hk.2 hc hl hop hle fun r hr _ => ?_
      exact ih hx.last hr hc hk.2 hl (by simpa [ids] using hfuel)
    · exact suffixed_wrap ht rfl hop (fun h => hle h.2.2) (by simp [erase, suffixFrom, hle])
  | inf q l r _ ih =>
    cases hp
    obtain ⟨fuel, rfl⟩ := Nat.exists_eq_succ_of_ne_zero (Nat.ne_zero_of_lt hfuel)
    have hr : Held layout s (spine q (some l) r) := ht
    by_cases hle : q.2.right ≤ op.left
    · refine suffixed_spine hr (by simpa [FrontComplete] using hc.1) hk hk.2.2 hc.2 hl.2 hop hle
        fun r' hr' _ => ?_
      refine ih hr.last hr' hc.2 hk.2.2 hl.2 ?_
      simp only [ids, List.length_cons, List.length_append] at hfuel
      omega
    · exact suffixed_wrap ht rfl hop (fun h => hle h.2.2) (by simp [erase, suffixFrom, hle])

/-- `prattifySuffix` puts a suffix operator where `suffixFrom` does. -/
theorem prattifySuffix_spec (ht : Held layout s t) (hp : rootOp t = some p) (hc : Complete t)
    (hk : Kinded (erase t)) (hl : Leaves IsAtom (erase t)) (hop : op.kind = .suffixOp) :
    Suffixed s op t p.1 (prattifySuffix s p.1 op) :=
  prattifySuffixFrom_spec ht hp hc hk hl hop ht.length_ids_le

end Suffix

/-! ## The operand that is due -/

/-- A prefix operator fills the operand that is due. -/
theorem prattify_prefix (ht : Held layout s t) (ho : Open t) (hk : Kinded (erase t))
    (hl : Leaves IsAtom (erase t)) (hp : rootOp t = some p) (hop : op.kind = .prefixOp) :
    ∃ s' out, prattify s p.1 op = some (s', out) ∧
      Rewrites layout s s' [] t (fill (pre (out, op) hole) t) := by
  obtain ⟨s', hr, hrw⟩ := fillNextSlot_open (u := (makeExpr s op []).1)
    (v := .val (.node (s.last + 1))) ht (fun i hi => Store.cell_alloc_of_ne_none hi) ho hk hl
    (held_makeExpr_pre hop) rfl
    (fun i hi => by
      obtain rfl : i = s.last + 1 := by simpa [ids] using hi
      exact s.cell_next) (rootId_of_root hp)
  have hpk : p.2.kind ≠ .parenOp := by
    cases t with
    | hole => cases hp
    | pre | inf =>
      cases hp
      have := hk.1
      simp [this]
    | leaf | suf | grp => exact ho.elim
  refine ⟨s', s.last + 1, ?_, hrw⟩
  simp only [prattify, prattifyFrom, opOf_root ht.stores hp, if_neg hpk, hop]
  rw [show (makeExpr s op []).2 = s.last + 1 from rfl, hr]

/-- An operand fills the operand that is due. -/
theorem fillNextSlot_leaf (ht : Held layout s t) (ho : Open t) (hk : Kinded (erase t))
    (hl : Leaves IsAtom (erase t)) (hp : rootOp t = some p) (v : Val α) :
    ∃ s', fillNextSlot s (.node p.1) (.val v) = some (s', true) ∧
      Rewrites layout s s' [] t (fill (leaf v) t) :=
  fillNextSlot_open ht (fun _ _ => rfl) ho hk hl (held_leaf v) rfl
    (fun _ hi => absurd hi List.not_mem_nil) (rootId_of_root hp)

end TabnasExpr.Go
