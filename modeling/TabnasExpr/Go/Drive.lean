import TabnasExpr.Go.Prattify
import TabnasExpr.Drive

/-!
# How the Go port's rule actions drive `prattify`

Every rule of an expression holds the one root box: the first operator makes it, each later operator
is integrated at the root, and an operand fills the deepest open slot below the root.  The boxes then
hold `Seq.goTree` of the tokens read (`run_text`).
-/

namespace TabnasExpr

open OpTree OpTree.Tree

universe u

variable {α : Type u}

/-! ## The tree of a sequence -/

section Sink

variable {β : Type*}

/-- `sink` wraps one node of the right edge. -/
theorem Go.sink_eq_onEdge (s : Op) (t : Tree Op β) :
    ∃ d, OnEdge d t ∧ Go.sink s t = onEdge (suf s) d t := by
  induction t with
  | pre p x ih =>
    unfold Go.sink
    split_ifs
    · obtain ⟨d, hd, e⟩ := ih
      exact ⟨d + 1, hd, congrArg (pre p) e⟩
    · exact ⟨0, trivial, rfl⟩
  | inf p l r _ ih =>
    unfold Go.sink
    split_ifs
    · obtain ⟨d, hd, e⟩ := ih
      exact ⟨d + 1, hd, congrArg (inf p l) e⟩
    · exact ⟨0, trivial, rfl⟩
  | hole | leaf | suf | grp => exact ⟨0, trivial, rfl⟩

/-- `suffixFrom` wraps one node of the right edge. -/
theorem Go.suffixFrom_eq_onEdge (s : Op) (t : Tree Op β) :
    ∃ d, OnEdge d t ∧ Go.suffixFrom s t = onEdge (suf s) d t := by
  cases t with
  | pre p x =>
    simp only [Go.suffixFrom]
    split_ifs
    · obtain ⟨d, hd, e⟩ := Go.sink_eq_onEdge s x
      exact ⟨d + 1, hd, congrArg (pre p) e⟩
    · exact ⟨0, trivial, rfl⟩
  | inf p l r =>
    simp only [Go.suffixFrom]
    split_ifs
    · obtain ⟨d, hd, e⟩ := Go.sink_eq_onEdge s r
      exact ⟨d + 1, hd, congrArg (inf p l) e⟩
    · exact ⟨0, trivial, rfl⟩
  | hole | leaf | suf | grp => exact ⟨0, trivial, rfl⟩

end Sink

namespace Seq

/-- The tree the Go port builds for a sequence. -/
def goTree : Seq α → Tree Op (Val α)
  | lead ps x => operand ps x
  | more e o ps x => fill (operand ps x) (attach o (goTree e))
  | suffixed e s => Go.suffixFrom s (goTree e)

theorem complete_goTree (e : Seq α) : Complete (goTree e) := by
  induction e with
  | lead ps x => exact complete_operand
  | more e o ps x ih => exact complete_fill (open_attach o ih) complete_operand
  | suffixed e s ih =>
    obtain ⟨d, hd, he⟩ := Go.suffixFrom_eq_onEdge s (goTree e)
    rw [goTree, he]
    exact complete_wrap hd ih

theorem kinded_goTree {e : Seq α} (h : Kinded e) : TabnasExpr.Kinded (goTree e) := by
  induction e with
  | lead ps x => exact kinded_prefixes h trivial
  | more e o ps x ih =>
    exact kinded_fill (kinded_attach h.2.1 (ih h.1)) (kinded_prefixes h.2.2 trivial)
  | suffixed e s ih =>
    obtain ⟨d, -, he⟩ := Go.suffixFrom_eq_onEdge s (goTree e)
    rw [goTree, he]
    exact kinded_wrap h.2 (ih h.1)

theorem leaves_goTree (e : Seq α) : Leaves IsAtom (goTree e) := by
  induction e with
  | lead ps x => exact leaves_operand
  | more e o ps x ih => exact leaves_fill (leaves_attach o ih) leaves_operand
  | suffixed e s ih =>
    obtain ⟨d, -, he⟩ := Go.suffixFrom_eq_onEdge s (goTree e)
    rw [goTree, he]
    exact leaves_wrap ih

theorem noParen_goTree (e : Seq α) : NoParen (goTree e) := by
  induction e with
  | lead ps x => exact noParen_prefixes ps trivial
  | more e o ps x ih => exact noParen_fill (noParen_attach ih) (noParen_prefixes ps trivial)
  | suffixed e s ih =>
    obtain ⟨d, -, he⟩ := Go.suffixFrom_eq_onEdge s (goTree e)
    rw [goTree, he]
    exact noParen_wrap ih

theorem read_goTree (e : Seq α) : read (goTree e) = text e := by
  induction e with
  | lead ps x => exact read_operand
  | more e o ps x ih =>
    rw [goTree, read_fill (open_attach o (complete_goTree e)), read_attach, ih, read_operand, text,
      List.append_assoc]
    rfl
  | suffixed e s ih =>
    obtain ⟨d, hd, he⟩ := Go.suffixFrom_eq_onEdge s (goTree e)
    rw [goTree, he, read_wrap hd, ih, text]

end Seq

/-! ## The boxes read as nodes -/

namespace Go

/-- What a slot holds, and nothing when it is unfilled. -/
def Slot.val? : Slot α → Option (Val α)
  | .unfilled => none
  | .val v => some v

/-- `cleanExpr` of one box: the sentinels are left out. -/
def cleanExpr (b : Box α) : Ts.Node α := ⟨b.op, b.slots.filterMap Slot.val?⟩

/-- The boxes of a heap, each cleaned. -/
def cleaned (h : Heap α) : Ts.Heap α := h.map cleanExpr

theorem filterMap_slots (x : Tree (ℕ × Op) (Val α)) :
    (layout.slots x).filterMap Slot.val? = Ts.layout.slots x := by
  cases x <;> rfl

theorem stores_cleaned {s : Heap α} {t : Tree (ℕ × Op) (Val α)} (h : Stores layout s t) :
    Stores Ts.layout (cleaned s) t := by
  induction t with
  | hole | leaf => trivial
  | pre p x ih | suf p x ih | grp p x ih =>
    exact ⟨by simp [cleaned, h.1, cleanExpr, filterMap_slots], ih h.2⟩
  | inf p l r ihl ihr =>
    exact ⟨by simp [cleaned, h.1, cleanExpr, filterMap_slots], ihl h.2.1, ihr h.2.2⟩

theorem held_cleaned {s : Heap α} {t : Tree (ℕ × Op) (Val α)} (h : Held layout s t) :
    Held Ts.layout (cleaned s) t := ⟨stores_cleaned h.stores, h.nodup⟩

/-! ## The rule actions -/

/-- What the rules of one expression hold between two tokens: the root box, or the plain value the
expression starts with. -/
structure Run (α : Type u) where
  heap : Heap α
  root : Val α

namespace Run

/-- Nothing read yet. -/
def start (h : Heap α) : Run α := ⟨h, .undefined⟩

/-- A fresh box for the first operator. -/
def prior (r : Run α) (op : Op) (terms : List (Slot α)) : Run α :=
  let (heap, box) := makeExpr r.heap op terms
  ⟨heap, .node box⟩

/-- The actions for one token.  The tokens of a paren belong to another rule. -/
def step (r : Run α) : Sym Op (Val α) → Option (Run α)
  | .pre op =>
    match opAt r.heap r.root with
    | some (box, _) => (prattify r.heap box op).map fun (heap, _) => { r with heap := heap }
    | none => some (r.prior op [])
  | .leaf v =>
    match opAt r.heap r.root with
    | some _ => (fillNextSlot r.heap r.root (.val v)).map fun (heap, _) => { r with heap := heap }
    | none => some { r with root := v }
  | .inf op =>
    match opAt r.heap r.root with
    | some (box, _) =>
      (prattify r.heap box op).map fun (heap, out) =>
        -- A paren prior is wrapped in a new root instead of being rewritten in place.
        match opOf heap box with
        | some pop => if pop.kind = .parenOp then ⟨heap, .node out⟩ else ⟨heap, .node box⟩
        | none => ⟨heap, .node box⟩
    | none => some (r.prior op [.val r.root])
  | .suf op =>
    match opAt r.heap r.root with
    | some (box, _) => (prattifySuffix r.heap box op).map fun (heap, out) => ⟨heap, .node out⟩
    | none => some (r.prior op [.val r.root])
  | .opn _ => none
  | .cls _ => none

/-- The actions for a sequence of tokens. -/
def run : List (Sym Op (Val α)) → Run α → Option (Run α)
  | [], r => some r
  | tok :: toks, r => (r.step tok).bind (run toks)

theorem run_append (ts us : List (Sym Op (Val α))) (r : Run α) :
    run (ts ++ us) r = (run ts r).bind (run us) := by
  induction ts generalizing r with
  | nil => rfl
  | cons tok ts ih =>
    rw [List.cons_append, run, run, Option.bind_assoc]
    congr 1
    funext r'
    exact ih r'

end Run

/-- Between two tokens of an expression read from the heap `s₀` on, when no operand is due. -/
structure Holds (s₀ : Heap α) (r : Run α) (T : Tree Op (Val α)) (t : Tree (ℕ × Op) (Val α)) :
    Prop where
  apart : Apart s₀ r.heap t
  held : Held layout r.heap t
  tree : erase t = T
  root : handle t = r.root

/-- While an operand is due below the root box. -/
structure Waits (s₀ : Heap α) (r : Run α) (t : Tree (ℕ × Op) (Val α)) : Prop where
  apart : Apart s₀ r.heap t
  held : Held layout r.heap t
  isOpen : Open t
  kinded : Kinded (erase t)
  leaves : Leaves IsAtom (erase t)
  root : ∃ p, rootOp t = some p ∧ r.root = .node p.1

section Steps

variable {s₀ : Heap α} {r : Run α} {t : Tree (ℕ × Op) (Val α)} {T : Tree Op (Val α)} {op : Op}
  {p : ℕ × Op}

theorem rootOp_of_rootId {t' : Tree (ℕ × Op) (Val α)} (h : rootId t' = rootId t)
    (hp : rootOp t = some p) : ∃ q, rootOp t' = some q ∧ q.1 = p.1 := by
  rw [rootId_eq, rootId_eq, hp] at h
  exact Option.map_eq_some_iff.1 h

theorem rootOp_fill (hp : rootOp t = some p) (y : Tree (ℕ × Op) (Val α)) :
    rootOp (fill y t) = some p := by
  cases t <;> first | exact hp | cases hp

theorem opAt_node {s : Heap α} (h : Stores layout s t) (hp : rootOp t = some p) :
    opAt s (.node p.1) = some p := by
  simp [opAt, opOf_root h hp]

/-- A prefix operator in operand position. -/
theorem Waits.step_pre (h : Waits s₀ r t) (hop : op.kind = .prefixOp) :
    ∃ r' n, r.step (.pre op) = some r' ∧ Waits s₀ r' (fill (pre (n, op) hole) t) := by
  obtain ⟨p, hp, hroot⟩ := h.root
  obtain ⟨s', out, hs', hrw⟩ := prattify_prefix h.held h.isOpen h.kinded h.leaves hp hop
  refine ⟨{ r with heap := s' }, _, ?_, h.apart.rewrites hrw, hrw.held, open_fill h.isOpen trivial,
    ?_, ?_, p,
    rootOp_fill hp _, hroot⟩
  · simp [Run.step, hroot, opAt_node h.held.stores hp, hs']
  · rw [erase_fill]
    exact kinded_fill h.kinded ⟨hop, trivial⟩
  · rw [erase_fill]
    exact leaves_fill h.leaves trivial

/-- An operand. -/
theorem Waits.step_leaf (h : Waits s₀ r t) (v : Val α) :
    ∃ r', r.step (.leaf v) = some r' ∧ Holds s₀ r' (fill (leaf v) (erase t)) (fill (leaf v) t) := by
  obtain ⟨p, hp, hroot⟩ := h.root
  obtain ⟨s', hs', hrw⟩ := fillNextSlot_leaf h.held h.isOpen h.kinded h.leaves hp v
  refine ⟨{ r with heap := s' }, ?_, h.apart.rewrites hrw, hrw.held, erase_fill _, ?_⟩
  · simp [Run.step, hroot, opAt_node h.held.stores hp, hs']
  · rw [hroot]
    exact handle_of_rootId (rootId_fill (rootId_of_root hp) _)

/-- An operand under prefix operators fills the operand that is due. -/
theorem Waits.run_operand (h : Waits s₀ r t) {ps : List Op} (hps : ∀ p ∈ ps, p.kind = .prefixOp)
    (x : α) :
    ∃ r' t', Run.run (Seq.operandText ps x) r = some r' ∧
      Holds s₀ r' (fill (Seq.operand ps x) (erase t)) t' := by
  induction ps generalizing r t with
  | nil =>
    obtain ⟨r', hr', h'⟩ := h.step_leaf (.atom x)
    exact ⟨r', _, by simp [Seq.operandText, Run.run, hr'], h'⟩
  | cons p ps ih =>
    obtain ⟨r₁, n, hr₁, h₁⟩ := h.step_pre (hps p List.mem_cons_self)
    obtain ⟨r', t', hr', h'⟩ := ih h₁ fun q hq => hps q (List.mem_cons_of_mem _ hq)
    refine ⟨r', t', ?_, ?_⟩
    · have : Seq.operandText (p :: ps) x = .pre p :: Seq.operandText ps x := rfl
      rw [this, Run.run, hr₁]
      exact hr'
    · rw [erase_fill, fill_fill (open_erase.2 h.isOpen)] at h'
      exact h'

/-- An infix operator after a complete expression. -/
theorem Holds.step_inf (h : Holds s₀ r T t) (hc : Complete T) (hk : Kinded T) (hn : NoParen T)
    (hl : Leaves IsAtom T) (hop : op.kind = .infixOp) :
    ∃ r' t', r.step (.inf op) = some r' ∧ Waits s₀ r' t' ∧ erase t' = attach op T := by
  obtain ⟨hapart, ht, rfl, hroot⟩ := h
  obtain ⟨a, rfl⟩ | ⟨p, hp⟩ := leaf_or_root (complete_erase.1 hc) hl
  · -- The first operator, and its first term is a plain value.
    have hr : r.root = .atom a := hroot.symm
    refine ⟨r.prior op [.val (.atom a)], inf (r.heap.last + 1, op) (leaf (.atom a)) hole, ?_,
      ⟨hapart.alloc _ (by simp [ids]), held_makeExpr_inf ht trivial hop, ⟨trivial, trivial⟩,
        ⟨hop, trivial, trivial⟩,
        ⟨⟨a, rfl⟩, trivial⟩, _, rfl, rfl⟩, rfl⟩
    simp [Run.step, hr, opAt]
  · obtain ⟨s', t', out, hs', hrw, he⟩ := prattify_infix ht hp (complete_erase.1 hc) hk hn hl hop
    have hr : r.root = .node p.1 := by
      rw [← hroot]
      exact handle_of_rootId (rootId_of_root hp)
    obtain ⟨q, hq, hqp⟩ := rootOp_of_rootId hrw.root hp
    have hopen : Open t' := by
      rw [← open_erase, he]
      exact open_attach op hc
    have hk' : Kinded (erase t') := by
      rw [he]
      exact kinded_attach hop hk
    have hqk : q.2.kind ≠ .parenOp := by
      cases t' with
      | hole => cases hq
      | pre | inf =>
        cases hq
        have := hk'.1
        simp [this]
      | leaf | suf | grp => exact hopen.elim
    have hcell : opOf s' p.1 = some q.2 := hqp ▸ opOf_root hrw.held.stores hq
    refine ⟨⟨s', .node p.1⟩, t', ?_,
      ⟨hapart.rewrites hrw, hrw.held, hopen, hk', ?_, q, hq, by rw [hqp]⟩, he⟩
    · simp [Run.step, hr, opAt_node ht.stores hp, hs', hcell, hqk]
    · rw [he]
      exact leaves_attach op hl

/-- A suffix operator after a complete expression. -/
theorem Holds.step_suf (h : Holds s₀ r T t) (hc : Complete T) (hk : Kinded T)
    (hl : Leaves IsAtom T) (hop : op.kind = .suffixOp) :
    ∃ r' t', r.step (.suf op) = some r' ∧ Holds s₀ r' (suffixFrom op T) t' := by
  obtain ⟨hapart, ht, rfl, hroot⟩ := h
  obtain ⟨a, rfl⟩ | ⟨p, hp⟩ := leaf_or_root (complete_erase.1 hc) hl
  · have hr : r.root = .atom a := hroot.symm
    refine ⟨r.prior op [.val (.atom a)], suf (r.heap.last + 1, op) (leaf (.atom a)), ?_,
      hapart.alloc _ (by simp [ids]), held_makeExpr_suf ht trivial hop, rfl, rfl⟩
    simp [Run.step, hr, opAt]
  · obtain ⟨s', t', hs', hrw, he⟩ := prattifySuffix_spec ht hp (complete_erase.1 hc) hk hl hop
    have hr : r.root = .node p.1 := by
      rw [← hroot]
      exact handle_of_rootId (rootId_of_root hp)
    refine ⟨⟨s', .node p.1⟩, t', ?_, hapart.rewrites hrw, hrw.held, he, ?_⟩
    · simp [Run.step, hr, opAt_node ht.stores hp, hs']
    · exact handle_of_rootId (hrw.root.trans (rootId_of_root hp))

/-- The first operand, under its prefix operators. -/
theorem run_lead (s : Heap α) {ps : List Op} (hps : ∀ p ∈ ps, p.kind = .prefixOp) (x : α) :
    ∃ r t, Run.run (Seq.operandText ps x) (Run.start s) = some r ∧
      Holds s r (Seq.operand ps x) t := by
  cases ps with
  | nil => exact ⟨⟨s, .atom x⟩, leaf (.atom x), rfl, Apart.start rfl, held_leaf _, rfl, rfl⟩
  | cons p ps =>
    have hp := hps p List.mem_cons_self
    have hw : Waits s ((Run.start s).prior p []) (pre (s.last + 1, p) hole) :=
      ⟨Apart.alloc (t := hole) (Apart.start rfl) _ (by simp [ids]), held_makeExpr_pre hp, trivial,
        ⟨hp, trivial⟩, trivial, _, rfl, rfl⟩
    exact hw.run_operand (fun q hq => hps q (List.mem_cons_of_mem _ hq)) x

/-- The actions build the tree of the sequence. -/
theorem run_text (s : Heap α) {e : Seq α} (hk : e.Kinded) :
    ∃ r t, Run.run e.text (Run.start s) = some r ∧ Holds s r e.goTree t := by
  induction e with
  | lead ps x => exact run_lead s hk x
  | more e o ps x ih =>
    obtain ⟨r₀, t₀, hr₀, h₀⟩ := ih hk.1
    obtain ⟨r₁, t₁, hr₁, h₁, he₁⟩ := h₀.step_inf e.complete_goTree (Seq.kinded_goTree hk.1)
      e.noParen_goTree e.leaves_goTree hk.2.1
    obtain ⟨r, t, hr, h⟩ := h₁.run_operand hk.2.2 x
    rw [he₁] at h
    refine ⟨r, t, ?_, h⟩
    rw [Seq.text, Run.run_append, hr₀, Option.bind_some, Run.run, hr₁]
    exact hr
  | suffixed e s ih =>
    obtain ⟨r₀, t₀, hr₀, h₀⟩ := ih hk.1
    obtain ⟨r, t, hr, h⟩ := h₀.step_suf e.complete_goTree (Seq.kinded_goTree hk.1)
      e.leaves_goTree hk.2
    refine ⟨r, t, ?_, h⟩
    rw [Seq.text, Run.run_append, hr₀, Option.bind_some, Run.run, hr]
    rfl

end Steps

/-- The root of the expression is read as the tree of the sequence. -/
theorem Holds.treeOf {s₀ : Heap α} {r : Run α} {t : Tree (ℕ × Op) (Val α)} {e : Seq α}
    (h : Holds s₀ r e.goTree t) (hk : e.Kinded) :
    Ts.treeOf (cleaned r.heap) r.root = some e.goTree := by
  have he := h.tree
  rw [← h.root, ← he]
  exact Ts.treeOf_handle (held_cleaned h.held) (complete_erase.1 (he ▸ e.complete_goTree))
    (he ▸ Seq.kinded_goTree hk) (he ▸ e.noParen_goTree) (he ▸ isOperand_of_isAtom e.leaves_goTree)

end Go

end TabnasExpr
