import TabnasExpr.Go.Drive
import TabnasExpr.Ternary

/-!
# How a ternary is built in the Go port

Every rule of an expression holds its root box, so the box the ternary rewrites is the root, and the
condition is the whole expression.  Its two parts go where `fillNextSlot` finds room.
-/

namespace TabnasExpr

open OpTree OpTree.Tree

universe u

variable {α : Type u}

theorem Seq.readable_goTree {e : Seq α} (hk : e.Kinded) : Readable e.goTree :=
  ⟨e.complete_goTree, Seq.kinded_goTree hk, e.noParen_goTree, e.leaves_goTree⟩

namespace Go

namespace Run

/-- The open action at the first separator of a ternary: the root box becomes the ternary, over a
copy of what it was. -/
def openTernary (r : Run α) (op : Op) : Run α :=
  match opAt r.heap r.root with
  | some (box, _) =>
    let (heap, priorCopy) := dupExpr r.heap box
    { r with heap := heap.modify box fun _ =>
        ⟨some op, .val (.node priorCopy) :: List.replicate (op.terms - 1) .unfilled⟩ }
  | none => r.prior op [.val r.root]

/-- A part of a ternary: an expression of its own, put into the next slot of the ternary's box. -/
def part (e : Seq α) (r : Run α) : Option (Run α) :=
  (run e.text (start r.heap)).bind fun child =>
    (fillNextSlot child.heap r.root (.val child.root)).map fun (heap, _) => { r with heap := heap }

/-- A ternary after the expression `e`, with its two parts. -/
def ternary (op : Op) (e a b : Seq α) (h : Heap α) : Option (Run α) :=
  (run e.text (start h)).bind fun r => ((r.openTernary op).part a).bind (part b)

end Run

section Steps

variable {s₀ : Heap α} {r : Run α} {t : Tree (ℕ × Op) (Val α)} {T : Tree Op (Val α)}
  {ts : List (Tree (ℕ × Op) (Val α))} {i n : ℕ} {op : Op} {e : Seq α}

/-- The open action makes a box over the whole tree. -/
theorem Holds.openTernary (h : Holds s₀ r T t) (hT : Readable T) (hop : op.kind = .ternaryOp) :
    ∃ i c, (r.openTernary op).root = .node i ∧
      Headed layout (r.openTernary op).heap i op [c] (List.replicate 2 .unfilled) ∧
      erase c = T := by
  obtain ⟨-, ht, rfl, hroot⟩ := h
  have hterms : op.terms = 3 := by simp [Op.terms, hop]
  rcases leaf_or_root (complete_erase.1 hT.complete) hT.leaves with ⟨a, rfl⟩ | ⟨p, hp⟩
  · have hr : r.root = .atom a := hroot.symm
    have hopen : r.openTernary op = r.prior op [.val (.atom a)] := by
      simp [Run.openTernary, hr, opAt]
    have hslots : makeSlots op [.val (.atom a)] =
        (.val (.atom a) : Slot α) :: List.replicate 2 .unfilled := by
      simp [makeSlots, hterms]
    rw [hopen]
    refine ⟨r.heap.last + 1, leaf (.atom a), rfl, ?_, rfl⟩
    show Headed _ (makeExpr r.heap op [.val (.atom a)]).1 _ _ _ _
    rw [makeExpr]
    rw [hslots]
    exact Headed.alloc ht
  · have hi := rootId_of_root hp
    have hr : r.root = .node p.1 := by
      rw [← hroot]
      exact handle_of_rootId hi
    obtain ⟨vs, hc⟩ := cell_root ht.stores hp
    refine ⟨p.1, moveRoot (r.heap.last + 1) t, ?_, ?_, erase_moveRoot _⟩
    · simp [Run.openTernary, hr, opAt_node ht.stores hp]
    · have : Headed layout ((r.heap.alloc ⟨some p.2, vs⟩).1.modify p.1 fun _ =>
          ⟨some op, .val (.node (r.heap.last + 1)) :: List.replicate 2 .unfilled⟩) p.1 op
          [moveRoot (r.heap.last + 1) t] (List.replicate 2 Slot.unfilled) := Headed.wrap ht hi hc rfl
      simpa [Run.openTernary, hr, opAt_node ht.stores hp, dupExpr, hc, hterms] using this

/-- A part of a ternary is its next operand, and touches nothing before it. -/
theorem headed_part
    (h : Headed layout r.heap i op ts (List.replicate (n + 1) .unfilled)) (hr : r.root = .node i)
    (hts : ∀ t ∈ ts, Readable (erase t)) (hn : op.terms = ts.length + (n + 1)) (hk : e.Kinded) :
    ∃ r' u, r.part e = some r' ∧ r'.root = .node i ∧
      Headed layout r'.heap i op (ts ++ [u]) (List.replicate n .unfilled) ∧ erase u = e.goTree := by
  obtain ⟨child, u, hrun, hu⟩ := run_text r.heap hk
  have hc : Complete u := complete_erase.1 (hu.tree ▸ e.complete_goTree)
  obtain ⟨s', hfill, hs'⟩ := fillNextSlot_headed (h.mono hu.apart.same)
    (fun t ht => complete_erase.1 (hts t ht).complete) (fun t ht => (hts t ht).kinded)
    (fun t ht => (hts t ht).leaves) hn hu.held hc
    fun hmem => by simpa [h.cell] using hu.apart.new i hmem
  refine ⟨{ r with heap := s' }, u, ?_, hr, hs', hu.tree⟩
  rw [hu.root, ← hr] at hfill
  simp [Run.part, hrun, hfill]

theorem headed_cleaned {s : Heap α} (h : Headed layout s i op ts []) :
    Headed Ts.layout (cleaned s) i op ts [] := by
  have hslots : (ts.flatMap layout.slots).filterMap Slot.val? = ts.flatMap Ts.layout.slots := by
    simp only [List.filterMap_flatMap, filterMap_slots]
  refine ⟨?_, fun t ht => held_cleaned (h.held t ht), h.out⟩
  simp [cleaned, h.cell, cleanExpr, hslots]

/-- The condition of a ternary is the whole expression before it. -/
theorem run_ternary (h : Heap α) {e a b : Seq α} (hop : op.kind = .ternaryOp) (he : e.Kinded)
    (ha : a.Kinded) (hb : b.Kinded) :
    ∃ r, Run.ternary op e a b h = some r ∧
      IsTernary (cleaned r.heap) r.root op e.goTree a.goTree b.goTree := by
  have hT := Seq.readable_goTree he
  have hterms : op.terms = 3 := by simp [Op.terms, hop]
  obtain ⟨r, t, hr, hheld⟩ := run_text h he
  obtain ⟨i, c, hi, hc, hct⟩ := hheld.openTernary hT hop
  have hc' : Readable (erase c) := hct ▸ hT
  obtain ⟨r₁, x, hr₁, hi₁, hx, hxt⟩ := headed_part (n := 1) hc hi (by simpa using hc')
    (by simp [hterms]) ha
  have hx' : Readable (erase x) := hxt ▸ Seq.readable_goTree ha
  obtain ⟨r₂, y, hr₂, hi₂, hy, hyt⟩ := headed_part (n := 0) hx hi₁ (by simpa using ⟨hc', hx'⟩)
    (by simp [hterms]) hb
  have hy' : Readable (erase y) := hyt ▸ Seq.readable_goTree hb
  refine ⟨r₂, ?_, ?_⟩
  · simp [Run.ternary, hr, hr₁, hr₂]
  · rw [hi₂, ← hct, ← hxt, ← hyt]
    exact isTernary_of_headed (headed_cleaned hy) hc' hx' hy'

end Steps

end Go

end TabnasExpr
