import TabnasExpr.Rust.Calls

/-!
# The life of an arena

A thread has one arena.  The entry points of the crate hold it open with a guard for one parse, and
release it when the outermost guard drops; a parse that the engine drives releases it at its start when
no guard is held.  A node leaves the arena in no other way, and its number is not handed out again.
-/

namespace TabnasExpr.Rust

open OpTree

variable {α : Type*}

/-- The arena of a thread, and the number of parses in flight through the entry points. -/
structure Thread (α : Type*) where
  arena : Arena α
  active : ℕ

/-- Every node is dropped, and the flag is reset. -/
def Arena.clear (a : Arena α) : Arena α := ⟨a.nodes.clear, false⟩

/-- `release_arena`, at the start of a parse. -/
def releaseArena (t : Thread α) : Thread α :=
  if t.active = 0 then { t with arena := t.arena.clear } else t

/-- `ArenaGuard::enter`. -/
def enterGuard (t : Thread α) : Thread α :=
  ⟨{ t.arena with overLimit := false }, t.active + 1⟩

/-- A guard is dropped. -/
def dropGuard (t : Thread α) : Thread α :=
  if t.active - 1 = 0 then ⟨t.arena.clear, t.active - 1⟩ else ⟨t.arena, t.active - 1⟩

/-- The operations on nodes. -/
inductive NodeOp (α : Type*) where
  | newNodeUnder (op : Option Op) (terms : List (Val α)) (under : Option (Val α))
  | updateExprNode (node : Val α) (op : Option Op) (terms : List (Val α))
  | dupNode (node : Val α)
  | setTerm (node : Val α) (index : ℕ) (value : Val α)
  | pushTerm (node value : Val α)
  | prattify (expr : Val α) (op : Op)
  deriving DecidableEq

/-- The arena after an operation, if it returns. -/
def NodeOp.run (a : Arena α) : NodeOp α → Option (Arena α)
  | .newNodeUnder op terms under => some (Rust.newNodeUnder a op terms under).1
  | .updateExprNode node op terms => some (Rust.updateExprNode a node op terms)
  | .dupNode node => some (Rust.dupNode a node).1
  | .setTerm node index value => some (Rust.setTerm a node index value)
  | .pushTerm node value => some (Rust.pushTerm a node value)
  | .prattify expr op => (Rust.prattify a expr op).map Prod.fst

/-! ## What an operation keeps -/

/-- The nodes that were there are there, and those handed out since are there too. -/
structure Extends (a a' : Arena α) : Prop where
  last : a.nodes.last ≤ a'.nodes.last
  kept : ∀ i, a.nodes.cell i ≠ none → a'.nodes.cell i ≠ none
  more : ∀ i, a.nodes.last < i → i ≤ a'.nodes.last → a'.nodes.cell i ≠ none

theorem Extends.refl (a : Arena α) : Extends a a :=
  ⟨le_rfl, fun _ => id, fun i hi hi' => absurd hi' (by omega)⟩

theorem Extends.trans {a a' a'' : Arena α} (h : Extends a a') (h' : Extends a' a'') :
    Extends a a'' where
  last := h.last.trans h'.last
  kept := fun i hi => h'.kept i (h.kept i hi)
  more := fun i hi hi'' => by
    rcases le_or_gt i a'.nodes.last with hle | hgt
    · exact h'.kept i (h.more i hi hle)
    · exact h'.more i hgt hi''

theorem extends_modify (a : Arena α) (i : ℕ) (f : ExprNode α → ExprNode α) (b : Bool) :
    Extends a ⟨a.nodes.modify i f, b⟩ := by
  refine ⟨le_rfl, fun j hj => ?_, fun j hj hj' => absurd hj' (by simpa using hj)⟩
  by_cases hji : j = i
  · subst hji
    simpa using hj
  · simpa [Store.cell_modify_of_ne f hji] using hj

theorem extends_withNodeMut (a : Arena α) (v : Val α) (f : ExprNode α → ExprNode α) :
    Extends a (withNodeMut a v f) := by
  unfold withNodeMut
  split
  · exact extends_modify a _ f _
  · exact Extends.refl a

theorem extends_grow (a : Arena α) (v : Val α) (n : ℕ) : Extends a (grow a v n) := by
  unfold grow
  split
  · exact Extends.refl a
  · split
    · exact Extends.refl a
    · exact extends_modify a _ _ _

theorem extends_adopt (a : Arena α) (v t : Val α) : Extends a (adopt a v t) := by
  unfold adopt
  split
  · split_ifs
    · exact Extends.refl a
    · exact extends_grow a _ _
  · exact Extends.refl a

theorem extends_adoptAll (a : Arena α) (v : Val α) (terms : List (Val α)) :
    Extends a (adoptAll a v terms) := by
  unfold adoptAll
  induction terms generalizing a with
  | nil => exact Extends.refl a
  | cons t ts ih => exact (extends_adopt a v t).trans (ih _)

theorem extends_alloc (a : Arena α) (n : ExprNode α) :
    Extends a { a with nodes := (a.nodes.alloc n).1 } := by
  refine ⟨Nat.le_succ _, fun i hi => ?_, fun i hi hi' => ?_⟩
  · rwa [Store.cell_alloc_of_ne_none hi]
  · have : i = a.nodes.last + 1 := le_antisymm hi' hi
    rw [this, Store.cell_alloc_self]
    exact Option.some_ne_none n

theorem extends_newNodeUnder (a : Arena α) (op : Option Op) (terms : List (Val α))
    (under : Option (Val α)) : Extends a (newNodeUnder a op terms under).1 := by
  simp only [newNodeUnder]
  split_ifs
  · exact ((extends_alloc a _).trans (extends_grow _ _ _)).trans (extends_adoptAll _ _ _)
  · exact (extends_alloc a _).trans (extends_adoptAll _ _ _)

theorem extends_updateExprNode (a : Arena α) (v : Val α) (op : Option Op) (terms : List (Val α)) :
    Extends a (updateExprNode a v op terms) :=
  (extends_adoptAll a v terms).trans (extends_withNodeMut _ _ _)

theorem extends_dupNode (a : Arena α) (v : Val α) : Extends a (dupNode a v).1 := by
  unfold dupNode
  split
  · exact extends_newNodeUnder a _ _ _
  · exact Extends.refl a

theorem extends_setTerm (a : Arena α) (v : Val α) (k : ℕ) (t : Val α) :
    Extends a (setTerm a v k t) :=
  (extends_adopt a v t).trans (extends_withNodeMut _ _ _)

theorem extends_pushTerm (a : Arena α) (v t : Val α) : Extends a (pushTerm a v t) :=
  (extends_adopt a v t).trans (extends_withNodeMut _ _ _)

theorem extends_embed (a : Arena α) (v : Val α) (exprOp op : Op) :
    Extends a (embed a v exprOp op) := by
  unfold embed
  split
  · exact Extends.refl a
  · exact Extends.refl a
  · split_ifs
    · exact (extends_dupNode a v).trans (extends_updateExprNode _ _ _ _)
    · exact (extends_newNodeUnder a _ _ _).trans (extends_setTerm _ _ _ _)
    · exact (extends_newNodeUnder a _ _ _).trans (extends_setTerm _ _ _ _)

theorem extends_prattify {a : Arena α} {v : Val α} {op : Op} {r : Arena α × Val α}
    (h : prattify a v op = some r) : Extends a r.1 := by
  rw [prattifyFrom_eq h]
  split
  · exact Extends.refl a
  · exact extends_embed a _ _ op

/-- No operation drops a node. -/
theorem NodeOp.extends {o : NodeOp α} {a a' : Arena α} (h : o.run a = some a') : Extends a a' := by
  cases o with
  | newNodeUnder op terms under => cases h; exact extends_newNodeUnder a op terms under
  | updateExprNode node op terms => cases h; exact extends_updateExprNode a node op terms
  | dupNode node => cases h; exact extends_dupNode a node
  | setTerm node index value => cases h; exact extends_setTerm a node index value
  | pushTerm node value => cases h; exact extends_pushTerm a node value
  | prattify expr op =>
    obtain ⟨r, hr, rfl⟩ := Option.map_eq_some_iff.1 h
    exact extends_prattify hr

end TabnasExpr.Rust
