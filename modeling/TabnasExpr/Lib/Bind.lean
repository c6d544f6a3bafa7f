import TabnasExpr.Lib.OpTree

/-!
# Trees in the place of operands

`bind` puts a tree in the place of every operand of an operator tree.  An operator parser looks into a
tree along its right edge only, and there not into operands and groups (`Atomic`).  So what it does at
the right edge commutes with `bind` as long as the operand at the end of the edge is replaced by a tree
it does not look into (`EdgeLeaf`).
-/

namespace OpTree.Tree

variable {ω α β P : Type*}

/-- Put the tree `g a` in the place of the operand `a`. -/
def bind (g : α → Tree ω β) : Tree ω α → Tree ω β
  | hole => hole
  | leaf a => g a
  | pre o x => pre o (bind g x)
  | suf o x => suf o (bind g x)
  | inf o l r => inf o (bind g l) (bind g r)
  | grp o x => grp o (bind g x)

/-- A tree the parser does not look into. -/
def Atomic : Tree ω α → Prop
  | leaf _ => True
  | grp _ _ => True
  | _ => False

/-- The right edge ends with no operand, or with one that satisfies `Q`. -/
def EdgeLeaf (Q : α → Prop) : Tree ω α → Prop
  | leaf a => Q a
  | pre _ x => EdgeLeaf Q x
  | inf _ _ r => EdgeLeaf Q r
  | _ => True

variable {g : α → Tree ω β} {t y : Tree ω α} {Q : α → Prop} {d : ℕ}

/-! ## The operand at the end of the edge -/

theorem edgeLeaf_of_forall (h : ∀ a, Q a) (t : Tree ω α) : EdgeLeaf Q t := by
  induction t with
  | leaf a => exact h a
  | pre o x ih => exact ih
  | inf o l r _ ih => exact ih
  | hole | suf | grp => trivial

theorem edgeLeaf_prefixes (ps : List ω) (hy : EdgeLeaf Q y) : EdgeLeaf Q (prefixes ps y) := by
  induction ps with
  | nil => exact hy
  | cons p ps ih => exact ih

theorem edgeLeaf_fill (ht : Open t) (hy : EdgeLeaf Q y) : EdgeLeaf Q (fill y t) := by
  induction t with
  | hole => exact hy
  | pre o x ih => exact ih ht
  | inf o l r _ ih => exact ih ht.2
  | leaf | suf | grp => exact ht.elim

theorem edgeLeaf_edgeAt (ht : EdgeLeaf Q t) : EdgeLeaf Q (edgeAt d t) := by
  induction d generalizing t with
  | zero => exact ht
  | succ d ih =>
    cases t with
    | pre o x => exact ih ht
    | inf o l r => exact ih ht
    | hole | leaf | suf | grp => trivial

theorem edgeLeaf_onEdge {f : Tree ω α → Tree ω α} (hd : OnEdge d t)
    (hf : EdgeLeaf Q (f (edgeAt d t))) : EdgeLeaf Q (onEdge f d t) := by
  induction d generalizing t with
  | zero => exact hf
  | succ d ih =>
    cases t with
    | pre o x => exact ih hd hf
    | inf o l r => exact ih hd hf
    | hole | leaf | suf | grp => exact hd.elim

/-! ## How the operations at the edge commute -/

theorem bind_prefixes (g : α → Tree ω β) (ps : List ω) (y : Tree ω α) :
    bind g (prefixes ps y) = prefixes ps (bind g y) := by
  induction ps with
  | nil => rfl
  | cons p ps ih => exact congrArg (pre p) ih

theorem bind_fill (ht : Open t) : bind g (fill y t) = fill (bind g y) (bind g t) := by
  induction t with
  | hole => rfl
  | pre o x ih => exact congrArg (pre o) (ih ht)
  | inf o l r _ ih => exact congrArg (inf o (bind g l)) (ih ht.2)
  | leaf | suf | grp => exact ht.elim

theorem bind_onEdge {f : Tree ω α → Tree ω α} {f' : Tree ω β → Tree ω β} (hd : OnEdge d t)
    (hf : bind g (f (edgeAt d t)) = f' (bind g (edgeAt d t))) :
    bind g (onEdge f d t) = onEdge f' d (bind g t) := by
  induction d generalizing t with
  | zero => exact hf
  | succ d ih =>
    cases t with
    | pre o x => exact congrArg (pre o) (ih hd hf)
    | inf o l r => exact congrArg (inf o (bind g l)) (ih hd hf)
    | hole | leaf | suf | grp => exact hd.elim

section Attach

variable [LinearOrder P] [Binding ω P]

theorem attach_atomic (o : ω) {x : Tree ω β} (hx : Atomic x) :
    attach o x = inf o x hole ∧ attachDepth o x = 0 := by
  cases x with
  | leaf | grp => exact ⟨rfl, rfl⟩
  | hole | pre | suf | inf => exact hx.elim

theorem bind_attach (o : ω) (ht : EdgeLeaf (fun a => Atomic (g a)) t) :
    bind g (attach o t) = attach o (bind g t) ∧ attachDepth o t = attachDepth o (bind g t) := by
  induction t with
  | leaf a =>
    obtain ⟨hattach, hdepth⟩ := attach_atomic o (x := g a) ht
    exact ⟨hattach.symm, hdepth.symm⟩
  | pre p x ih =>
    obtain ⟨hattach, hdepth⟩ := ih ht
    by_cases h : right p < left o
    · simp [attach, attachDepth, bind, h, hattach, hdepth]
    · simp [attach, attachDepth, bind, h]
  | inf p l r _ ih =>
    obtain ⟨hattach, hdepth⟩ := ih ht
    by_cases h : right p < left o
    · simp [attach, attachDepth, bind, h, hattach, hdepth]
    · simp [attach, attachDepth, bind, h]
  | hole | suf | grp => exact ⟨rfl, rfl⟩

end Attach

end OpTree.Tree
