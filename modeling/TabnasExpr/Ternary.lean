import TabnasExpr.Drive
import TabnasExpr.Lib.Headed

/-!
# How a ternary is built

The first separator of a ternary replaces the rule before it, and the open action turns the node that
rule holds into the ternary, its own copy the condition.  The node is the attachment node of the
expression read so far: it stands `Seq.depth` steps down the right edge, and only at the root is the
whole expression the condition.
-/

namespace TabnasExpr

open OpTree OpTree.Tree

universe u

variable {α : Type u}

namespace Run

variable {P : Port α}

/-- The open action at the first separator of a ternary. -/
def openTernary (r : Run P) (op : Op) : Run P :=
  match Ts.opAt (P.heap r.store) r.attach with
  | some _ =>
    let (store, dup) := P.dupNode r.store r.attach
    { r with store := P.updateExprNode store r.attach op [dup] }
  | none => r.prior op [r.attach]

/-- A part of a ternary: an expression of its own, pushed onto the node of the ternary. -/
def part (e : Seq α) (r : Run P) : Option (Run P) :=
  (run e.text (start r.store)).map fun child =>
    { r with store := P.push child.store r.attach child.root }

/-- A ternary after the expression `e`, with its two parts. -/
def ternary (op : Op) (e a b : Seq α) (s : P.State) : Option (Run P) :=
  (run e.text (start s)).bind fun r => ((r.openTernary op).part a).bind (part b)

end Run

/-- A value is the node `[op, c, x, y]`, its terms read as these trees. -/
def IsTernary (h : Ts.Heap α) (v : Val α) (op : Op) (c x y : Tree Op (Val α)) : Prop :=
  ∃ i vs, v = .node i ∧ h.cell i = some ⟨some op, vs⟩ ∧
    vs.map (Ts.treeOf h) = [some c, some x, some y]

/-- A complete tree of operators over operands. -/
structure Readable (T : Tree Op (Val α)) : Prop where
  complete : Complete T
  kinded : Kinded T
  noParen : NoParen T
  leaves : Leaves IsAtom T

theorem Seq.readable_tree {e : Seq α} (hk : e.Kinded) : Readable e.tree :=
  ⟨e.complete_tree, Seq.kinded_tree hk, e.noParen_tree, e.leaves_tree⟩

section Steps

variable {P : Port α} {s₀ : Ts.Heap α} {r : Run P} {t : Tree (ℕ × Op) (Val α)}
  {T : Tree Op (Val α)} {ts : List (Tree (ℕ × Op) (Val α))} {d i : ℕ} {op : Op} {e : Seq α}

theorem Readable.edgeAt (h : Readable T) (hd : OnEdge d T) : Readable (edgeAt d T) :=
  ⟨complete_edgeAt hd h.complete, kinded_edgeAt h.kinded, noParen_edgeAt h.noParen,
    leaves_edgeAt h.leaves⟩

theorem Readable.treeOf {h : Ts.Heap α} (hr : Readable (erase t)) (ht : Held Ts.layout h t) :
    Ts.treeOf h (handle t) = some (erase t) :=
  Ts.treeOf_handle ht (complete_erase.1 hr.complete) hr.kinded hr.noParen
    (isOperand_of_isAtom hr.leaves)

/-- The open action makes a node over the tree at the attachment node. -/
theorem Holds.openTernary (h : Holds s₀ r T d t) (hd : OnEdge d T) (hT : Readable T) (op : Op) :
    ∃ i c, (r.openTernary op).attach = .node i ∧
      Headed Ts.layout (P.heap (r.openTernary op).store) i op [c] [] ∧
      erase c = edgeAt d T ∧
      ((r.openTernary op).root = (r.openTernary op).attach ↔ d = 0) := by
  obtain ⟨-, ht, rfl, hroot, hattach, -, hinner⟩ := h
  have hd := onEdge_erase.1 hd
  have hu : Held Ts.layout (P.heap r.store) (Tree.edgeAt d t) := ht.edgeAt
  have huc : Complete (Tree.edgeAt d t) := complete_edgeAt hd (complete_erase.1 hT.complete)
  have hul : Leaves IsAtom (erase (Tree.edgeAt d t)) := by
    rw [erase_edgeAt]
    exact leaves_edgeAt hT.leaves
  rcases leaf_or_root huc hul with ⟨a, ha⟩ | ⟨p, hp⟩
  · -- The whole expression is one operand, and the ternary is a new node.
    obtain rfl : d = 0 := hinner.resolve_right (by simp [ha, rootId])
    obtain rfl : t = leaf (.atom a) := ha
    have hr : r.attach = .atom a := hattach.symm
    have hopen : r.openTernary op = r.prior op [.atom a] := by
      simp [Run.openTernary, hr, Ts.opAt]
    rw [hopen]
    refine ⟨(P.heap r.store).last + 1, leaf (.atom a), P.newNode_snd r.store op [.atom a], ?_, rfl,
      iff_of_true rfl rfl⟩
    show Headed _ (P.heap (P.newNode r.store op [.atom a]).1) _ _ _ _
    rw [P.heap_newNode]
    exact Headed.alloc hu
  · have hi := rootId_of_root hp
    have ha : r.attach = .node p.1 := by
      rw [← hattach]
      exact handle_of_rootId hi
    have hop : Ts.opOf (P.heap r.store) p.1 = some p.2 := Ts.opOf_root hu.stores hp
    obtain ⟨hdup, hnode⟩ := P.heap_dupNode r.store p.1 p.2 hop
    obtain ⟨vs, hc⟩ := Ts.cell_root hu.stores hp
    have hopen : r.openTernary op = { r with
        store := P.updateExprNode (P.dupNode r.store (.node p.1)).1 (.node p.1) op
          [(P.dupNode r.store (.node p.1)).2] } := by
      simp [Run.openTernary, ha, Ts.opAt, hop]
    rw [hopen]
    refine ⟨p.1, moveRoot ((P.heap r.store).last + 1) (Tree.edgeAt d t), ha, ?_, ?_, ?_⟩
    · show Headed _ (P.heap (P.updateExprNode _ _ _ _)) _ _ _ _
      rw [P.heap_updateExprNode, hdup, hnode]
      simp only [Ts.dupNode, hc, Option.getD_some]
      exact Headed.wrap hu hi hc (by simp)
    · rw [erase_moveRoot, erase_edgeAt]
    · obtain ⟨j, hj⟩ := rootId_of_edgeAt hi
      show r.root = r.attach ↔ d = 0
      rw [← hroot, ha, handle_of_rootId hj]
      constructor
      · rintro ⟨⟩
        exact eq_zero_of_rootId_edgeAt ht.nodup hj hi
      · rintro rfl
        rw [Option.some.inj (hj.symm.trans hi)]

/-- A part of a ternary is its next operand, and touches nothing before it. -/
theorem headed_part (h : Headed Ts.layout (P.heap r.store) i op ts []) (ha : r.attach = .node i)
    (hk : e.Kinded) :
    ∃ r' u, r.part e = some r' ∧ r'.attach = .node i ∧ r'.root = r.root ∧
      Headed Ts.layout (P.heap r'.store) i op (ts ++ [u]) [] ∧ erase u = e.tree := by
  obtain ⟨child, u, hrun, hu⟩ := run_text r.store hk
  have hc : Complete u := complete_erase.1 (hu.tree ▸ e.complete_tree)
  refine ⟨{ r with store := P.push child.store r.attach child.root }, u, ?_, ha, rfl, ?_, hu.tree⟩
  · simp [Run.part, hrun]
  · rw [ha, P.heap_push]
    refine (h.mono hu.apart.same).put hu.held ?_ ?_
    · exact fun hmem => by simpa [h.cell] using hu.apart.new i hmem
    · simp [Ts.slots_of_complete hc, hu.root]

/-- The node of a ternary, with its three operands. -/
theorem isTernary_of_headed {h : Ts.Heap α} {c x y : Tree (ℕ × Op) (Val α)}
    (hi : Headed Ts.layout h i op [c, x, y] []) (hc : Readable (erase c)) (hx : Readable (erase x))
    (hy : Readable (erase y)) : IsTernary h (.node i) op (erase c) (erase x) (erase y) := by
  have hcell := hi.cell
  simp only [List.flatMap_cons, List.flatMap_nil, List.append_nil,
    Ts.slots_of_complete (complete_erase.1 hc.complete),
    Ts.slots_of_complete (complete_erase.1 hx.complete),
    Ts.slots_of_complete (complete_erase.1 hy.complete)] at hcell
  refine ⟨i, _, rfl, hcell, ?_⟩
  simp [hc.treeOf (hi.held c (by simp)), hx.treeOf (hi.held x (by simp)),
    hy.treeOf (hi.held y (by simp))]

/-- The condition of a ternary is the tree at the attachment node, and the ternary is the root of the
expression when that is. -/
theorem run_ternary (s : P.State) (op : Op) {e a b : Seq α} (he : e.Kinded) (ha : a.Kinded)
    (hb : b.Kinded) :
    ∃ r, Run.ternary op e a b s = some r ∧
      IsTernary (P.heap r.store) r.attach op (edgeAt e.depth e.tree) a.tree b.tree ∧
      (r.root = r.attach ↔ e.depth = 0) := by
  have hT := Seq.readable_tree he
  obtain ⟨r, t, hr, h⟩ := run_text s he
  obtain ⟨i, c, hi, hc, htree, hroot⟩ := h.openTernary e.onEdge_depth hT op
  obtain ⟨r₁, x, hr₁, hi₁, hroot₁, hx, hxt⟩ := headed_part hc hi ha
  obtain ⟨r₂, y, hr₂, hi₂, hroot₂, hy, hyt⟩ := headed_part hx hi₁ hb
  refine ⟨r₂, ?_, ?_, ?_⟩
  · simp [Run.ternary, hr, hr₁, hr₂]
  · rw [hi₂, ← htree, ← hxt, ← hyt]
    refine isTernary_of_headed hy ?_ ?_ ?_
    · exact htree ▸ hT.edgeAt e.onEdge_depth
    · exact hxt ▸ Seq.readable_tree ha
    · exact hyt ▸ Seq.readable_tree hb
  · rw [hroot₂, hroot₁, hi₂, ← hi, hroot]

end Steps

end TabnasExpr
