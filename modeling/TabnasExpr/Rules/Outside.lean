import TabnasExpr.Rules.Flat
import TabnasExpr.Rules.Held

/-!
# Operators that go into a closed paren

A closed paren stands as a prefix operator on the nodes, with the greatest power, so an infix or suffix
operator of a greater power goes into it.  Without one what is built is the tree in which no paren is
looked into (`Expr.Outside.group_flat`).  With one there are more operators in parens than the tokens
have, which no tree that is evaluated has (`Expr.outside_of_tree_eq`).
-/

namespace TabnasExpr.Rules

open OpTree OpTree.Tree

universe u

variable {α : Type u} {β : Type*}

/-! ## Where an operator goes into a paren -/

/-- The infix operator goes into a closed paren of the tree before it. -/
def Enters (o : Op) : Tree Op β → Prop
  | pre p x => p.right < o.left ∧ (p.kind = .parenOp ∨ Enters o x)
  | inf p _ r => p.right < o.left ∧ Enters o r
  | grp p _ => p.right < o.left
  | _ => False

/-- The suffix operator goes into the closed paren at the root. -/
def EntersRoot (s : Op) : Tree Op β → Prop
  | pre p _ => p.kind = .parenOp ∧ p.right ≤ s.left
  | grp p _ => p.right ≤ s.left
  | _ => False

mutual

/-- No operator in the operand goes into a closed paren. -/
def Operand.Outside : Operand α → Prop
  | .atom _ => True
  | .paren _ e => e.Outside

/-- No operator of the expression goes into a closed paren. -/
def Expr.Outside : Expr α → Prop
  | .lead _ x => x.Outside
  | .more e o _ x => e.Outside ∧ ¬ Enters o (e.tree false) ∧ x.Outside
  | .suffixed e s => e.Outside ∧ ¬ EntersRoot s (edgeAt (e.depth false) (e.tree false))

end

section Group

variable {t y u : Tree Op β} {o s : Op} {d : ℕ} {ps : List Op}

theorem enters_group : Enters o (group t) ↔ Enters o t := by
  induction t with
  | pre p x ih =>
    by_cases hp : p.kind = .parenOp <;> simp [group, Enters, hp, ih]
  | inf p l r _ ih => simp [group, Enters, ih]
  | hole | leaf | suf | grp => rfl

theorem entersRoot_group : EntersRoot s (group t) ↔ EntersRoot s t := by
  cases t with
  | pre p x => by_cases hp : p.kind = .parenOp <;> simp [group, EntersRoot, hp]
  | hole | leaf | suf | inf | grp => rfl

theorem group_prefixes (hps : ∀ p ∈ ps, p.kind = .prefixOp) :
    group (prefixes ps y) = prefixes ps (group y) := by
  induction ps with
  | nil => rfl
  | cons p ps ih =>
    have hp := hps p List.mem_cons_self
    show group (pre p (prefixes ps y)) = pre p (prefixes ps (group y))
    simp [group, hp, ih fun q hq => hps q (List.mem_cons_of_mem _ hq)]

theorem attachDepth_group (h : ¬ Enters o t) : attachDepth o (group t) = attachDepth o t := by
  induction t with
  | pre p x ih =>
    by_cases hp : p.kind = .parenOp
    · have hlt : ¬ p.right < o.left := fun hlt => h ⟨hlt, Or.inl hp⟩
      simp [group, hp, attachDepth, hlt]
    · by_cases hlt : p.right < o.left
      · simp [group, hp, attachDepth, hlt, ih fun hx => h ⟨hlt, Or.inr hx⟩]
      · simp [group, hp, attachDepth, hlt]
  | inf p l r _ ih =>
    by_cases hlt : p.right < o.left
    · simp [group, attachDepth, hlt, ih fun hr => h ⟨hlt, hr⟩]
    · simp [group, attachDepth, hlt]
  | hole | leaf | suf | grp => rfl

theorem group_more (h : ¬ Enters o t) :
    group (fill y (attach o t)) = fill (group y) (attach o (group t)) := by
  induction t with
  | pre p x ih =>
    by_cases hp : p.kind = .parenOp
    · have hlt : ¬ p.right < o.left := fun hlt => h ⟨hlt, Or.inl hp⟩
      simp [group, hp, attach, fill, hlt]
    · by_cases hlt : p.right < o.left
      · simp [group, hp, attach, fill, hlt, ih fun hx => h ⟨hlt, Or.inr hx⟩]
      · simp [group, hp, attach, fill, hlt]
  | inf p l r _ ih =>
    by_cases hlt : p.right < o.left
    · simp [group, attach, fill, hlt, ih fun hr => h ⟨hlt, hr⟩]
    · simp [group, attach, fill, hlt]
  | hole | leaf | suf | grp => rfl

theorem group_drill (ht : Slotted t) : group (drillFlat s t) = drill s (group t) := by
  induction t with
  | pre p x ih =>
    rcases ht.1 with hp | ⟨hp, -⟩
    · by_cases hlt : p.right < s.left
      · simp [drillFlat, drill, group, hp, hlt, ih ht.2]
      · simp [drillFlat, drill, group, hp, hlt]
    · simp [drillFlat, drill, group, hp]
  | hole | leaf | suf | inf | grp => rfl

theorem group_suffix (ht : Slotted t) (h : ¬ EntersRoot s t) :
    group (suffixFlat s t) = suffixAt s (group t) := by
  cases t with
  | pre p x =>
    rcases ht.1 with hp | ⟨hp, -⟩
    · by_cases hle : p.right ≤ s.left
      · simp [suffixFlat, suffixAt, group, hp, hle, group_drill ht.2]
      · simp [suffixFlat, suffixAt, group, hp, hle]
    · have hle : ¬ p.right ≤ s.left := fun hle => h ⟨hp, hle⟩
      simp [suffixFlat, suffixAt, group, hp, hle]
  | inf p l r =>
    by_cases hle : p.right ≤ s.left
    · simp [suffixFlat, suffixAt, group, hle, group_drill ht.2.2]
    · simp [suffixFlat, suffixAt, group, hle]
  | hole | leaf | suf | grp => rfl

theorem edgeAt_group (hd : OnEdge d (group t)) : edgeAt d (group t) = group (edgeAt d t) := by
  induction d generalizing t with
  | zero => rfl
  | succ d ih =>
    cases t with
    | pre p x =>
      by_cases hp : p.kind = .parenOp
      · simp [group, hp, OnEdge] at hd
      · simp only [group, hp, if_false] at hd ⊢
        exact ih hd
    | inf p l r => exact ih hd
    | hole | leaf | suf | grp => exact hd.elim

theorem group_onEdge {f f' : Tree Op β → Tree Op β} (hd : OnEdge d (group t))
    (hf : group (f (edgeAt d t)) = f' (group (edgeAt d t))) :
    group (onEdge f d t) = onEdge f' d (group t) := by
  induction d generalizing t with
  | zero => exact hf
  | succ d ih =>
    cases t with
    | pre p x =>
      by_cases hp : p.kind = .parenOp
      · simp [group, hp, OnEdge] at hd
      · simp only [group, hp, if_false, OnEdge] at hd
        simp [onEdge, group, hp, ih hd hf]
    | inf p l r => exact congrArg (inf p (group l)) (ih hd hf)
    | hole | leaf | suf | grp => exact hd.elim

end Group

/-- An operator that binds no more tightly than parens goes into none. -/
theorem not_enters {t : Tree Op β} {o : Op} (ht : Kinded t) (ho : o.left ≤ maxSafeInteger) :
    ¬ Enters o t := by
  induction t with
  | pre p x ih =>
    rintro ⟨-, hp | hx⟩
    · exact absurd (ht.1.symm.trans hp) (by decide)
    · exact ih ht.2 hx
  | inf p l r _ ih => exact fun h => ih ht.2.2 h.2
  | grp p x => exact fun h => absurd (ht.2.1 ▸ h) (not_lt.2 ho)
  | hole | leaf | suf => exact id

theorem not_entersRoot {t : Tree Op β} {s : Op} (ht : Kinded t) (hs : s.left < maxSafeInteger) :
    ¬ EntersRoot s t := by
  cases t with
  | pre p x => exact fun h => absurd (ht.1.symm.trans h.1) (by decide)
  | grp p x => exact fun h => absurd (ht.2.1 ▸ h) (not_le.2 hs)
  | hole | leaf | suf | inf => exact id

mutual

theorem Operand.Outside.group_flat : {x : Operand α} → x.Outside → x.Kinded →
    group x.flat = x.tree false
  | .atom _, _, _ => by simp [Operand.flat, Operand.tree, group]
  | .paren p e, h, hk => by
    rw [tree_paren, Operand.flat, group, if_pos hk.1, (Expr.Outside.group_flat h hk.2.2).1]

/-- Where no operator goes into a closed paren, the tree that is built looks into none. -/
theorem Expr.Outside.group_flat : {e : Expr α} → e.Outside → e.Kinded →
    group e.flat.1 = e.tree false ∧ e.flat.2 = e.depth false
  | .lead ps x, h, hk => by
    rw [tree_lead, depth_lead, Expr.flat, group_prefixes hk.1, Operand.Outside.group_flat h hk.2]
    exact ⟨rfl, rfl⟩
  | .more e o ps x, ⟨he, ho, hx⟩, hk => by
    obtain ⟨htree, -⟩ := he.group_flat hk.1
    rw [← htree, enters_group] at ho
    rw [tree_more, depth_more, Expr.flat, group_more ho, htree, group_prefixes hk.2.2.1,
      hx.group_flat hk.2.2.2, ← attachDepth_group ho, htree]
    exact ⟨rfl, rfl⟩
  | .suffixed e s, ⟨he, hs⟩, hk => by
    obtain ⟨htree, hdepth⟩ := he.group_flat hk.1
    have hd := (e.formed_tree false hk.1).onEdge
    rw [← htree, ← hdepth] at hd hs
    rw [edgeAt_group hd, entersRoot_group] at hs
    rw [tree_suffixed (fun h => absurd h Bool.false_ne_true), depth_suffixed, Expr.flat,
      group_onEdge hd (group_suffix (kinded_edgeAt (e.formed_flat hk.1).slotted) hs), htree, hdepth]
    exact ⟨rfl, rfl⟩

end

/-! ## The operators in parens -/

/-- The number of operators in closed parens, an operator once for each paren it is in. -/
@[simp] def inside : Tree Op β → ℕ
  | hole => 0
  | leaf _ => 0
  | pre o x => (if o.kind = .parenOp then (operators x).length else 0) + inside x
  | suf _ x => inside x
  | inf _ l r => inside l + inside r
  | grp _ x => (operators x).length + inside x

mutual

/-- The number of operators in parens of an operand. -/
def Operand.inside : Operand α → ℕ
  | .atom _ => 0
  | .paren _ e => (ops e.text).length + e.inside

/-- The number of operators in parens. -/
def Expr.inside : Expr α → ℕ
  | .lead _ x => x.inside
  | .more e _ _ x => e.inside + x.inside
  | .suffixed e _ => e.inside

end

section Inside

variable {t y : Tree Op β} {o s : Op} {d : ℕ} {ps : List Op}

theorem inside_group (t : Tree Op β) : inside (group t) = inside t := by
  induction t with
  | pre p x ih => by_cases hp : p.kind = .parenOp <;> simp [group, inside, hp, ih]
  | hole | leaf => rfl
  | suf p x ih | grp p x ih => simp [group, inside, ih]
  | inf p l r ihl ihr => simp [group, inside, ihl, ihr]

theorem inside_prefixes (hps : ∀ p ∈ ps, p.kind = .prefixOp) : inside (prefixes ps y) = inside y := by
  induction ps with
  | nil => rfl
  | cons p ps ih =>
    show inside (pre p (prefixes ps y)) = inside y
    simp [inside, hps p List.mem_cons_self, ih fun q hq => hps q (List.mem_cons_of_mem _ hq)]

theorem length_operators_more (hc : Complete t) :
    (operators (fill y (attach o t))).length = (operators t).length + 1 + (operators y).length := by
  simp only [operators_fill (open_attach o hc), operators_attach, List.length_append,
    List.length_singleton]

/-- No operator leaves a paren. -/
theorem le_inside_more (hc : Complete t) : inside t + inside y ≤ inside (fill y (attach o t)) := by
  induction t with
  | hole => exact hc.elim
  | pre p x ih =>
    unfold attach
    split_ifs
    · have hx := ih hc
      have hlen := length_operators_more (t := x) (o := o) (y := y) hc
      simp only [fill, inside]
      split_ifs
      · rw [hlen]
        omega
      · omega
    · rfl
  | inf p l r _ ih =>
    unfold attach
    split_ifs
    · have hr := ih hc.2
      simp only [fill, inside]
      omega
    · rfl
  | leaf | suf | grp => rfl

/-- An operator that goes into a paren is one more in it. -/
theorem lt_inside_more (hc : Complete t) (hn : NoParen t) (h : Enters o t) :
    inside t + inside y < inside (fill y (attach o t)) := by
  induction t with
  | pre p x ih =>
    obtain ⟨hlt, h⟩ := h
    have hlen := length_operators_more (t := x) (o := o) (y := y) hc
    have hle := le_inside_more (t := x) (o := o) (y := y) hc
    have hright : right p < left o := hlt
    simp only [attach, if_pos hright, fill, inside]
    split_ifs with hp
    · rw [hlen]
      omega
    · have hx := ih hc hn (h.resolve_left hp)
      omega
  | inf p l r _ ih =>
    obtain ⟨hlt, h⟩ := h
    have hr := ih hc.2 hn.2 h
    have hright : right p < left o := hlt
    simp only [attach, if_pos hright, fill, inside]
    omega
  | grp => exact hn.elim
  | hole | leaf | suf => exact h.elim

/-- A paren that is not looked into takes nothing in. -/
theorem inside_more (ht : Kinded t) : inside (fill y (attach o t)) = inside t + inside y := by
  induction t with
  | pre p x ih =>
    unfold attach
    split_ifs
    · simp [fill, inside, ht.1, ih ht.2]
    · rfl
  | inf p l r _ ih =>
    unfold attach
    split_ifs
    · simp only [fill, inside, ih ht.2.2]
      omega
    · rfl
  | hole => simp [attach, fill, inside]
  | leaf | suf | grp => rfl

theorem inside_drillFlat : inside (drillFlat s t) = inside t := by
  induction t with
  | pre p x ih =>
    unfold drillFlat
    split_ifs with h
    · simp [inside, h.1, ih]
    · rfl
  | hole | leaf | suf | inf | grp => rfl

theorem length_operators_drillFlat :
    (operators (drillFlat s t)).length = (operators t).length + 1 := by
  obtain ⟨d, hd, h⟩ := drillFlat_eq_onEdge s t
  have hread : read (onEdge (suf s) d t) = read t ++ [.suf s] := read_wrap hd
  simp [operators, h, hread, ops]

theorem le_inside_suffixFlat : inside t ≤ inside (suffixFlat s t) := by
  cases t with
  | pre p x =>
    simp only [suffixFlat]
    split_ifs
    · simp only [inside, inside_drillFlat]
      split_ifs
      · rw [length_operators_drillFlat]
        omega
      · omega
    · rfl
  | inf p l r =>
    simp only [suffixFlat]
    split_ifs
    · simp [inside, inside_drillFlat]
    · rfl
  | hole | leaf | suf | grp => rfl

theorem lt_inside_suffixFlat (hn : NoParen t) (h : EntersRoot s t) :
    inside t < inside (suffixFlat s t) := by
  cases t with
  | pre p x =>
    simp only [suffixFlat, if_pos h.2, inside, if_pos h.1, inside_drillFlat, length_operators_drillFlat]
    omega
  | grp => exact hn.elim
  | hole | leaf | suf | inf => exact h.elim

theorem inside_suffixAt (ht : Kinded t) : inside (suffixAt s t) = inside t := by
  cases t with
  | pre p x =>
    simp only [suffixAt]
    split_ifs
    · simp [inside, ht.1, ← drillFlat_eq ht.2, inside_drillFlat]
    · rfl
  | inf p l r =>
    simp only [suffixAt]
    split_ifs
    · simp [inside, ← drillFlat_eq ht.2.2, inside_drillFlat]
    · rfl
  | hole | leaf | suf | grp => rfl

theorem length_operators_onEdge (hd : OnEdge d t) :
    (operators (onEdge (suffixFlat s) d t)).length = (operators t).length + 1 := by
  have hread : read (onEdge (suffixFlat s) d t) = read t ++ [.suf s] := read_onEdge hd read_suffixFlat
  simp [operators, hread, ops]

theorem le_inside_onEdge (hd : OnEdge d t) : inside t ≤ inside (onEdge (suffixFlat s) d t) := by
  induction d generalizing t with
  | zero => exact le_inside_suffixFlat
  | succ d ih =>
    cases t with
    | pre p x =>
      have hx := ih hd
      have hlen := length_operators_onEdge (s := s) (d := d) (t := x) hd
      simp only [onEdge, inside]
      split_ifs
      · rw [hlen]
        omega
      · omega
    | inf p l r =>
      have hr := ih hd
      simp only [onEdge, inside]
      omega
    | hole | leaf | suf | grp => exact hd.elim

theorem lt_inside_onEdge (hd : OnEdge d t) (hn : NoParen t) (h : EntersRoot s (edgeAt d t)) :
    inside t < inside (onEdge (suffixFlat s) d t) := by
  induction d generalizing t with
  | zero => exact lt_inside_suffixFlat hn h
  | succ d ih =>
    cases t with
    | pre p x =>
      have hx := ih hd hn h
      have hlen := length_operators_onEdge (s := s) (d := d) (t := x) hd
      simp only [onEdge, inside]
      split_ifs
      · rw [hlen]
        omega
      · omega
    | inf p l r =>
      have hr := ih hd hn.2 h
      simp only [onEdge, inside]
      omega
    | hole | leaf | suf | grp => exact hd.elim

theorem inside_onEdge (ht : Kinded t) : inside (onEdge (suffixAt s) d t) = inside t := by
  induction d generalizing t with
  | zero => exact inside_suffixAt ht
  | succ d ih =>
    cases t with
    | pre p x => simp [onEdge, inside, ht.1, ih ht.2]
    | inf p l r => simp [onEdge, inside, ih ht.2.2]
    | hole | leaf | suf | grp => rfl

end Inside

mutual

theorem Operand.operators_tree (early : Bool) : {x : Operand α} → x.Kinded →
    operators (x.tree early) = ops x.text
  | .atom _, _ => by simp [Operand.tree, Operand.text, ops]
  | .paren _ e, hk => by simp [Operand.text, ops, e.operators_tree early hk.2.2]

theorem Expr.operators_tree (early : Bool) : (e : Expr α) → e.Kinded →
    operators (e.tree early) = ops e.text
  | .lead ps x, hk => by
    simp [Expr.text, operators_prefixes, Operand.operators_tree early hk.2]
  | .more e o ps x, hk => by
    have hopen := open_attach o (e.formed_tree early hk.1).complete
    rw [tree_more, operators_fill hopen, operators_attach, operators_prefixes,
      e.operators_tree early hk.1, Operand.operators_tree early hk.2.2.2]
    simp [Expr.text, ops]
  | .suffixed e s, hk => by
    have he := e.operators_tree early hk.1
    by_cases h : early = true → e.front? = none
    · have hread : read (onEdge (suffixAt s) (e.depth early) (e.tree early)) = _ :=
        read_onEdge (e.formed_tree early hk.1).onEdge read_suffixAt
      rw [tree_suffixed h, operators, hread]
      simp [Expr.text, ops, ← he, operators]
    · obtain ⟨rfl, hfront⟩ := Classical.not_imp.1 h
      obtain ⟨p, hp⟩ := Option.ne_none_iff_exists'.1 hfront
      rw [tree_suffixed_front hp, operators_suf, he]
      simp [Expr.text, ops]

end

mutual

theorem Operand.inside_tree (early : Bool) : {x : Operand α} → x.Kinded →
    Rules.inside (x.tree early) = x.inside
  | .atom _, _ => by simp [Operand.tree, Rules.inside, Operand.inside]
  | .paren _ e, hk => by
    rw [tree_paren, Rules.inside, e.operators_tree early hk.2.2, e.inside_tree early hk.2.2,
      Operand.inside]

/-- In a tree that looks into no closed paren the parens hold the operators of the tokens in them. -/
theorem Expr.inside_tree (early : Bool) : (e : Expr α) → e.Kinded →
    Rules.inside (e.tree early) = e.inside
  | .lead ps x, hk => by
    rw [tree_lead, inside_prefixes hk.1, Operand.inside_tree early hk.2, Expr.inside]
  | .more e o ps x, hk => by
    rw [tree_more, inside_more (e.kinded_tree early hk.1), inside_prefixes hk.2.2.1,
      e.inside_tree early hk.1, Operand.inside_tree early hk.2.2.2, Expr.inside]
  | .suffixed e s, hk => by
    have he := e.inside_tree early hk.1
    by_cases h : early = true → e.front? = none
    · rw [tree_suffixed h, inside_onEdge (e.kinded_tree early hk.1), he, Expr.inside]
    · obtain ⟨rfl, hfront⟩ := Classical.not_imp.1 h
      obtain ⟨p, hp⟩ := Option.ne_none_iff_exists'.1 hfront
      rw [tree_suffixed_front hp, Rules.inside, he, Expr.inside]

end

mutual

theorem Operand.le_inside_flat : {x : Operand α} → x.Kinded → x.inside ≤ Rules.inside x.flat
  | .atom _, _ => by simp [Operand.flat, Rules.inside, Operand.inside]
  | .paren p e, hk => by
    have he := e.le_inside_flat hk.2.2
    rw [Operand.flat, Rules.inside, if_pos hk.1, e.operators_flat hk.2.2, Operand.inside]
    omega

/-- The parens of what is built hold these operators at least. -/
theorem Expr.le_inside_flat : (e : Expr α) → e.Kinded → e.inside ≤ Rules.inside e.flat.1
  | .lead ps x, hk => by
    rw [Expr.flat, inside_prefixes hk.1, Expr.inside]
    exact Operand.le_inside_flat hk.2
  | .more e o ps x, hk => by
    have he := e.le_inside_flat hk.1
    have hx := Operand.le_inside_flat hk.2.2.2
    have hle := le_inside_more (o := o) (y := prefixes ps x.flat) (e.formed_flat hk.1).complete
    rw [inside_prefixes hk.2.2.1] at hle
    simp only [Expr.flat, Expr.inside]
    omega
  | .suffixed e s, hk => by
    have he := e.le_inside_flat hk.1
    have hle := le_inside_onEdge (s := s) (e.formed_flat hk.1).onEdge
    simp only [Expr.flat, Expr.inside]
    omega

end

mutual

theorem Operand.outside_of_inside : {x : Operand α} → x.Kinded → Rules.inside x.flat = x.inside →
    x.Outside
  | .atom _, _, _ => trivial
  | .paren p e, hk, h => by
    rw [Operand.flat, Rules.inside, if_pos hk.1, e.operators_flat hk.2.2, Operand.inside] at h
    exact e.outside_of_inside hk.2.2 (by omega)

/-- When they hold no others, no operator goes into a paren. -/
theorem Expr.outside_of_inside : (e : Expr α) → e.Kinded → Rules.inside e.flat.1 = e.inside → e.Outside
  | .lead ps x, hk, h => by
    rw [Expr.flat, inside_prefixes hk.1, Expr.inside] at h
    exact Operand.outside_of_inside hk.2 h
  | .more e o ps x, hk, h => by
    have he := e.le_inside_flat hk.1
    have hx := Operand.le_inside_flat hk.2.2.2
    have hform := e.formed_flat hk.1
    have hle := le_inside_more (o := o) (y := prefixes ps x.flat) hform.complete
    have hlt := lt_inside_more (o := o) (y := prefixes ps x.flat) hform.complete e.noParen_flat
    rw [inside_prefixes hk.2.2.1] at hle hlt
    simp only [Expr.flat, Expr.inside] at h
    have heo : e.Outside := e.outside_of_inside hk.1 (by omega)
    refine ⟨heo, fun ho => ?_, Operand.outside_of_inside hk.2.2.2 (by omega)⟩
    rw [← (heo.group_flat hk.1).1, enters_group] at ho
    have := hlt ho
    omega
  | .suffixed e s, hk, h => by
    have he := e.le_inside_flat hk.1
    have hform := e.formed_flat hk.1
    have hle := le_inside_onEdge (s := s) hform.onEdge
    have hlt := lt_inside_onEdge (s := s) hform.onEdge e.noParen_flat
    simp only [Expr.flat, Expr.inside] at h
    have heo : e.Outside := e.outside_of_inside hk.1 (by omega)
    refine ⟨heo, fun hs => ?_⟩
    obtain ⟨htree, hdepth⟩ := heo.group_flat hk.1
    have hd := (e.formed_tree false hk.1).onEdge
    rw [← htree, ← hdepth] at hd hs
    rw [edgeAt_group hd, entersRoot_group] at hs
    have := hlt hs
    omega

end

/-- Where an operator goes into a closed paren, no tree that looks into none is built. -/
theorem Expr.outside_of_tree_eq {e : Expr α} (hk : e.Kinded) {early : Bool}
    (h : e.tree early = group e.flat.1) : e.Outside := by
  refine e.outside_of_inside hk ?_
  rw [← inside_group, ← h, e.inside_tree early hk]

end TabnasExpr.Rules
