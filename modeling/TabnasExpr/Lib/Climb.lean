import Mathlib.Data.List.Induction
import Mathlib.Data.Set.Basic
import Mathlib.Order.Nat
import TabnasExpr.Lib.OpTree

/-!
# Precedence climbing

The textbook parser of infix expressions, `climb`, decides with a minimum binding power that it
passes down; attaching at the right edge (`Tree.attach`) decides from the root of the tree built so
far.  When the powers of a table form tiers the two agree (`foldl_embed_eq_parse`): one more token at
the end of the text is one more `attach` on the parser's result (`climbed_append`).
-/

namespace OpTree

open OpTree.Tree

variable {ω α P : Type*} [LinearOrder P] [Binding ω P]

/-- An operator of a text, with the operand that follows it. -/
abbrev Item (ω α : Type*) := ω × Tree ω α

/-- Attach an operator and put its operand in. -/
def embed (t : Tree ω α) (it : Item ω α) : Tree ω α := fill it.2 (attach it.1 t)

/-- The loop of the reference parser, with what it has not consumed: while the next operator's left
power is above the minimum, combine what has been read with the expression that starts at that
operator's right power. -/
def climb (min : P) (lhs : Tree ω α) (ts : List (Item ω α)) :
    Tree ω α × { rest : List (Item ω α) // rest.length ≤ ts.length } :=
  match ts with
  | [] => (lhs, ⟨[], Nat.le_refl _⟩)
  | (o, x) :: ts =>
    if min < left o then
      let (r, ⟨rest, h⟩) := climb (right o) x ts
      let (t, ⟨rest', h'⟩) := climb min (inf o lhs r) rest
      (t, ⟨rest', Nat.le_succ_of_le (h'.trans h)⟩)
    else (lhs, ⟨(o, x) :: ts, Nat.le_refl _⟩)
  termination_by ts.length

/-- The reference parser: take an operand, then climb. -/
def parse (min : P) (x : Tree ω α) (ts : List (Item ω α)) : Tree ω α := (climb min x ts).1

/-- The tree and the unconsumed items of `climb`, as plain values. -/
def climbed (min : P) (lhs : Tree ω α) (ts : List (Item ω α)) : Tree ω α × List (Item ω α) :=
  ((climb min lhs ts).1, (climb min lhs ts).2.1)

theorem parse_eq (min : P) (x : Tree ω α) (ts : List (Item ω α)) :
    parse min x ts = (climbed min x ts).1 := rfl

theorem climbed_nil (min : P) (lhs : Tree ω α) : climbed min lhs [] = (lhs, []) := by
  simp [climbed, climb]

theorem climbed_cons (min : P) (lhs : Tree ω α) (o : ω) (x : Tree ω α) (ts : List (Item ω α)) :
    climbed min lhs ((o, x) :: ts) =
      if min < left o then
        climbed min (inf o lhs (climbed (right o) x ts).1) (climbed (right o) x ts).2
      else (lhs, (o, x) :: ts) := by
  unfold climbed
  rw [climb]
  split_ifs <;> rfl

theorem length_climbed_le (min : P) (lhs : Tree ω α) (ts : List (Item ω α)) :
    (climbed min lhs ts).2.length ≤ ts.length :=
  (climb min lhs ts).2.2

/-- What the parser leaves over is a tail of what it was given. -/
theorem climbed_suffix (min : P) (lhs : Tree ω α) (ts : List (Item ω α)) :
    (climbed min lhs ts).2 <:+ ts := by
  induction h : ts.length using Nat.strongRec generalizing min lhs ts with
  | _ n ih =>
    cases ts with
    | nil => simp [climbed_nil]
    | cons it ts =>
      obtain ⟨o, x⟩ := it
      rw [climbed_cons]
      split_ifs
      · have inner := ih ts.length (by simp [← h]) (right o) x ts rfl
        have outer := ih _ ((length_climbed_le (right o) x ts).trans_lt (by simp [← h])) min
          (inf o lhs (climbed (right o) x ts).1) _ rfl
        exact outer.trans (inner.trans (List.suffix_cons _ _))
      · exact List.suffix_refl _

/-- Operators the ladder speaks of: one that follows less tightly than another binds its last operand
starts no lower than that other. -/
def Ladder (ops : Set ω) : Prop := ∀ q ∈ ops, ∀ o ∈ ops, right q < left o → left q ≤ left o

/-- The intervals between an operator's two powers are equal pairs or disjoint. -/
def Tiered (ops : Set ω) : Prop :=
  ∀ q ∈ ops, ∀ o ∈ ops, (left q = left o ∧ right q = right o) ∨
    max (left q) (right q) < min (left o) (right o) ∨
    max (left o) (right o) < min (left q) (right q)

theorem Tiered.ladder {ops : Set ω} (h : Tiered ops) : Ladder ops := by
  intro q hq o ho hlt
  obtain ⟨hl, -⟩ | below | above := h q hq o ho
  · exact hl.le
  · exact ((le_max_left _ _).trans (below.le.trans (min_le_left _ _)))
  · -- `o` lies wholly below `q`, so it cannot bind tighter than the right power of `q`.
    have : left o < right q := (le_max_left _ _).trans_lt (above.trans_le (min_le_right _ _))
    exact absurd hlt this.not_gt

/-- A tree no operator is ever attached inside of: an operand of a text. -/
def IsUnit : Tree ω α → Prop
  | leaf _ => True
  | grp _ _ => True
  | _ => False

theorem IsUnit.attach {t : Tree ω α} (h : IsUnit t) (o : ω) : attach o t = inf o t hole := by
  cases t with
  | leaf | grp => rfl
  | hole | pre | suf | inf => exact h.elim

theorem IsUnit.embed {t : Tree ω α} (h : IsUnit t) (it : Item ω α) :
    embed t it = inf it.1 t it.2 := by
  simp only [OpTree.embed, h.attach, fill]

variable {ops : Set ω}

/-- One more item at the end of the text.  If the parser stopped before it, the item is left over too;
otherwise it is attached at the right edge, or left over when it is looser than the minimum. -/
theorem climbed_append (ladder : Ladder ops) {m : P} {lhs : Tree ω α} {ts : List (Item ω α)}
    {it : Item ω α} (hts : ∀ jt ∈ ts, jt.1 ∈ ops ∧ IsUnit jt.2) (hit : it.1 ∈ ops)
    (start : ts = [] → IsUnit lhs) :
    climbed m lhs (ts ++ [it]) =
      if (climbed m lhs ts).2 = [] then
        if m < left it.1 then (embed (climbed m lhs ts).1 it, []) else ((climbed m lhs ts).1, [it])
      else ((climbed m lhs ts).1, (climbed m lhs ts).2 ++ [it]) := by
  induction h : ts.length using Nat.strongRecOn generalizing m lhs ts with
  | _ n ih =>
    obtain ⟨o, x⟩ := it
    cases ts with
    | nil =>
      simp only [List.nil_append, climbed_cons, climbed_nil, if_true]
      split_ifs with hlt
      · rw [(start rfl).embed]
      · rfl
    | cons jt ts =>
      obtain ⟨q, y⟩ := jt
      have hq := hts (q, y) List.mem_cons_self
      have htl : ∀ jt ∈ ts, jt.1 ∈ ops ∧ IsUnit jt.2 := fun jt hj => hts jt (List.mem_cons_of_mem _ hj)
      rw [List.cons_append, climbed_cons, climbed_cons]
      by_cases hm : m < left q
      · -- The operator `q` is taken: its own operand is climbed first, then the rest with it on top.
        simp only [if_pos hm]
        have inner : climbed (right q) y (ts ++ [(o, x)]) = _ :=
          ih ts.length (by simp [← h]) htl (fun _ => hq.2) rfl
        set R := climbed (right q) y ts with hR
        rw [inner]
        by_cases hrest : R.2 = []
        · simp only [hrest, if_true, climbed_nil]
          by_cases hlt : right q < left o
          · have hmo : m < left o := hm.trans_le (ladder q hq.1 o hit hlt)
            simp [hlt, hmo, climbed_nil, embed, attach, fill]
          · simp only [if_neg hlt, climbed_cons, climbed_nil, embed, attach, fill]
        · have hlen : R.2.length < n := by
            have := length_climbed_le (right q) y ts
            simp only [List.length_cons, ← hR] at h this
            omega
          simp only [if_neg hrest]
          refine ih R.2.length hlen (fun jt hj => htl jt ?_) (fun he => absurd he hrest) rfl
          exact (climbed_suffix (right q) y ts).mem hj
      · simp [hm]

/-- Attaching one operator after the other builds the tree of the reference parser, for every table
whose powers form tiers above the minimum. -/
theorem foldl_embed_eq_parse (tiered : Tiered ops) {m : P} (above : ∀ o ∈ ops, m < left o)
    {x : Tree ω α} (hx : IsUnit x) {ts : List (Item ω α)} (hts : ∀ it ∈ ts, it.1 ∈ ops ∧ IsUnit it.2) :
    ts.foldl embed x = parse m x ts := by
  suffices h : climbed m x ts = (ts.foldl embed x, []) from congrArg Prod.fst h.symm
  induction ts using List.reverseRecOn with
  | nil => exact climbed_nil m x
  | append_singleton ts it ih =>
    have hit := hts it (by simp)
    have htl : ∀ jt ∈ ts, jt.1 ∈ ops ∧ IsUnit jt.2 := fun jt hj => hts jt (List.mem_append_left _ hj)
    rw [climbed_append tiered.ladder htl hit.1 (fun _ => hx), ih htl]
    simp [above it.1 hit.1]

end OpTree
