import TabnasExpr.Op

/-!
# Where a suffix operator goes

The suffix branch of `prattify`, as a function on trees: `suffixAt` looks at the root, and `drill`
goes on down the prefix operators below it.  On a tree in which closed parens stand as prefix operators,
`suffixFlat` and `drillFlat` do the same: a suffix operator may go into the paren at the root, and it
does not drill into one.
-/

namespace TabnasExpr

open OpTree OpTree.Tree

variable {α : Type*}

/-- Go down the prefix operators that bind less tightly than the suffix, and wrap what is there. -/
def drill (s : Op) : Tree Op α → Tree Op α
  | pre p x => if p.right < s.left then pre p (drill s x) else suf s (pre p x)
  | t => suf s t

/-- Apply a suffix to a node: inside its last operand when it binds at least as tightly as the node,
around the node otherwise. -/
def suffixAt (s : Op) : Tree Op α → Tree Op α
  | pre p x => if p.right ≤ s.left then pre p (drill s x) else suf s (pre p x)
  | inf p l r => if p.right ≤ s.left then inf p l (drill s r) else suf s (inf p l r)
  | t => suf s t

/-- Go down the prefix operators that bind less tightly than the suffix, and wrap what is there, closed
parens too. -/
def drillFlat (s : Op) : Tree Op α → Tree Op α
  | pre p x =>
    if p.kind = .prefixOp ∧ p.right < s.left then pre p (drillFlat s x) else suf s (pre p x)
  | t => suf s t

/-- Apply a suffix to a node, which may be that of a closed paren. -/
def suffixFlat (s : Op) : Tree Op α → Tree Op α
  | pre p x => if p.right ≤ s.left then pre p (drillFlat s x) else suf s (pre p x)
  | inf p l r => if p.right ≤ s.left then inf p l (drillFlat s r) else suf s (inf p l r)
  | t => suf s t

variable {s : Op} {t : Tree Op α}

/-- `drill` wraps one node of the right edge. -/
theorem drill_eq_onEdge (s : Op) (t : Tree Op α) :
    ∃ d, OnEdge d t ∧ drill s t = onEdge (suf s) d t := by
  induction t with
  | pre p x ih =>
    unfold drill
    split_ifs
    · obtain ⟨d, hd, e⟩ := ih
      exact ⟨d + 1, hd, congrArg (pre p) e⟩
    · exact ⟨0, trivial, rfl⟩
  | hole | leaf | suf | inf | grp => exact ⟨0, trivial, rfl⟩

/-- `suffixAt` wraps one node of the right edge. -/
theorem suffixAt_eq_onEdge (s : Op) (t : Tree Op α) :
    ∃ d, OnEdge d t ∧ suffixAt s t = onEdge (suf s) d t := by
  cases t with
  | pre p x =>
    simp only [suffixAt]
    split_ifs
    · obtain ⟨d, hd, e⟩ := drill_eq_onEdge s x
      exact ⟨d + 1, hd, congrArg (pre p) e⟩
    · exact ⟨0, trivial, rfl⟩
  | inf p l r =>
    simp only [suffixAt]
    split_ifs
    · obtain ⟨d, hd, e⟩ := drill_eq_onEdge s r
      exact ⟨d + 1, hd, congrArg (inf p l) e⟩
    · exact ⟨0, trivial, rfl⟩
  | hole | leaf | suf | grp => exact ⟨0, trivial, rfl⟩

/-- `drillFlat` wraps one node of the right edge. -/
theorem drillFlat_eq_onEdge (s : Op) (t : Tree Op α) :
    ∃ d, OnEdge d t ∧ drillFlat s t = onEdge (suf s) d t := by
  induction t with
  | pre p x ih =>
    unfold drillFlat
    split_ifs
    · obtain ⟨d, hd, e⟩ := ih
      exact ⟨d + 1, hd, congrArg (pre p) e⟩
    · exact ⟨0, trivial, rfl⟩
  | hole | leaf | suf | inf | grp => exact ⟨0, trivial, rfl⟩

/-- `suffixFlat` wraps one node of the right edge. -/
theorem suffixFlat_eq_onEdge (s : Op) (t : Tree Op α) :
    ∃ d, OnEdge d t ∧ suffixFlat s t = onEdge (suf s) d t := by
  cases t with
  | pre p x =>
    simp only [suffixFlat]
    split_ifs
    · obtain ⟨d, hd, e⟩ := drillFlat_eq_onEdge s x
      exact ⟨d + 1, hd, congrArg (pre p) e⟩
    · exact ⟨0, trivial, rfl⟩
  | inf p l r =>
    simp only [suffixFlat]
    split_ifs
    · obtain ⟨d, hd, e⟩ := drillFlat_eq_onEdge s r
      exact ⟨d + 1, hd, congrArg (inf p l) e⟩
    · exact ⟨0, trivial, rfl⟩
  | hole | leaf | suf | grp => exact ⟨0, trivial, rfl⟩

/-- Where no closed paren stands as a prefix operator the two are alike. -/
theorem drillFlat_eq (ht : Kinded t) : drillFlat s t = drill s t := by
  induction t with
  | pre p x ih => simp [drillFlat, drill, ht.1, ih ht.2]
  | hole | leaf | suf | inf | grp => rfl

theorem suffixFlat_eq (ht : Kinded t) : suffixFlat s t = suffixAt s t := by
  cases t with
  | pre p x => simp [suffixFlat, suffixAt, drillFlat_eq ht.2]
  | inf p l r => simp [suffixFlat, suffixAt, drillFlat_eq ht.2.2]
  | hole | leaf | suf | grp => rfl

/-! ## What wrapping a node of the right edge keeps -/

section Wrap

variable {d : ℕ}

theorem complete_wrap (hd : OnEdge d t) (ht : Complete t) : Complete (onEdge (suf s) d t) :=
  complete_onEdge hd ht (complete_edgeAt hd ht)

theorem read_wrap (hd : OnEdge d t) : read (onEdge (suf s) d t) = read t ++ [.suf s] :=
  read_onEdge hd rfl

theorem kinded_wrap {K : Op → Prop} (hs : s.kind = .suffixOp) (ht : KindedBy K t) :
    KindedBy K (onEdge (suf s) d t) :=
  kinded_onEdge ht ⟨hs, kinded_edgeAt ht⟩

theorem leaves_wrap {Q : α → Prop} (ht : Leaves Q t) : Leaves Q (onEdge (suf s) d t) :=
  leaves_onEdge ht (leaves_edgeAt (t := t) ht)

theorem noParen_wrap (ht : NoParen t) : NoParen (onEdge (suf s) d t) :=
  noParen_onEdge ht (noParen_edgeAt (t := t) ht)

theorem ordered_wrap (hd : OnEdge d t) (ht : Ordered t) : Ordered (onEdge (suf s) d t) :=
  ordered_onEdge hd ht (ordered_edgeAt hd ht) fun _ _ => trivial

end Wrap

theorem complete_suffixAt (ht : Complete t) : Complete (suffixAt s t) := by
  obtain ⟨d, hd, e⟩ := suffixAt_eq_onEdge s t
  exact e ▸ complete_wrap hd ht

theorem read_suffixAt : read (suffixAt s t) = read t ++ [.suf s] := by
  obtain ⟨d, hd, e⟩ := suffixAt_eq_onEdge s t
  exact e ▸ read_wrap hd

theorem kinded_suffixAt (hs : s.kind = .suffixOp) (ht : Kinded t) : Kinded (suffixAt s t) := by
  obtain ⟨d, -, e⟩ := suffixAt_eq_onEdge s t
  exact e ▸ kinded_wrap hs ht

theorem leaves_suffixAt {Q : α → Prop} (ht : Leaves Q t) : Leaves Q (suffixAt s t) := by
  obtain ⟨d, -, e⟩ := suffixAt_eq_onEdge s t
  exact e ▸ leaves_wrap ht

theorem noParen_suffixAt (ht : NoParen t) : NoParen (suffixAt s t) := by
  obtain ⟨d, -, e⟩ := suffixAt_eq_onEdge s t
  exact e ▸ noParen_wrap ht

theorem complete_suffixFlat (ht : Complete t) : Complete (suffixFlat s t) := by
  obtain ⟨d, hd, e⟩ := suffixFlat_eq_onEdge s t
  exact e ▸ complete_wrap hd ht

theorem read_suffixFlat : read (suffixFlat s t) = read t ++ [.suf s] := by
  obtain ⟨d, hd, e⟩ := suffixFlat_eq_onEdge s t
  exact e ▸ read_wrap hd

theorem slotted_suffixFlat (hs : s.kind = .suffixOp) (ht : Slotted t) : Slotted (suffixFlat s t) := by
  obtain ⟨d, -, e⟩ := suffixFlat_eq_onEdge s t
  exact e ▸ kinded_wrap hs ht

theorem noParen_suffixFlat (ht : NoParen t) : NoParen (suffixFlat s t) := by
  obtain ⟨d, -, e⟩ := suffixFlat_eq_onEdge s t
  exact e ▸ noParen_wrap ht

theorem leaves_suffixFlat {Q : α → Prop} (ht : Leaves Q t) : Leaves Q (suffixFlat s t) := by
  obtain ⟨d, -, e⟩ := suffixFlat_eq_onEdge s t
  exact e ▸ leaves_wrap ht

theorem ordered_suffixAt (ht : Ordered t) : Ordered (suffixAt s t) := by
  obtain ⟨d, hd, e⟩ := suffixAt_eq_onEdge s t
  exact e ▸ ordered_wrap hd ht

/-- A suffix leaves a node as fit for the operator above it as it was. -/
theorem fitsRight_suffixAt {p : Op} (ht : FitsRight p t) : FitsRight p (suffixAt s t) := by
  cases t with
  | pre q x => simp only [suffixAt]; split_ifs <;> trivial
  | inf q l r =>
    simp only [suffixAt]
    split_ifs
    · exact ht
    · trivial
  | hole | leaf | suf | grp => trivial

end TabnasExpr
