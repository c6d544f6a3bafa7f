import TabnasExpr.Defaults
import TabnasExpr.Port
import TabnasExpr.Sequence

/-!
# How the rule actions drive `prattify`

The actions of the expr rule, as one step for each token: the first operator makes a fresh node, each
later infix operator calls `prattify` on the root, each suffix operator on the attachment node, each
prefix operator in operand position on the node whose last slot is unfilled, and an operand is pushed
onto that node.  The store then holds `Seq.tree` of the tokens read (`run_text`).
-/

namespace TabnasExpr

open OpTree OpTree.Tree

universe u

variable {α : Type u}

/-- What the rules of one expression hold between two tokens. -/
structure Run (P : Port α) where
  store : P.State
  /-- The expression, on the rule its first term belongs to. -/
  root : Val α
  /-- The node the last rule of the chain holds. -/
  attach : Val α
  /-- The node whose last slot is unfilled, and nothing when no operand is due. -/
  due : Val α

namespace Run

variable {P : Port α}

/-- Nothing read yet. -/
def start (s : P.State) : Run P := ⟨s, .undefined, .undefined, .undefined⟩

/-- A fresh node for the first operator, published to the rule of the first term (`prior`). -/
def prior (r : Run P) (op : Op) (terms : List (Val α)) : Run P :=
  let (store, node) := P.newNode r.store op terms
  { r with store := store, root := node, attach := node }

/-- The actions for one token.  The tokens of a paren belong to another rule. -/
def step (r : Run P) : Sym Op (Val α) → Option (Run P)
  | .pre op =>
    match Ts.opAt (P.heap r.store) r.due with
    | some _ =>
      (P.prattify r.store r.due op).map fun (store, out) => { r with store := store, due := out }
    | none =>
      let r := r.prior op []
      some { r with due := r.root }
  | .leaf v =>
    match Ts.opAt (P.heap r.store) r.due with
    | some _ => some { r with store := P.push r.store r.due v, due := .undefined }
    | none => some { r with root := v, attach := v }
  | .inf op =>
    match Ts.opAt (P.heap r.store) r.root with
    | some _ =>
      (P.prattify r.store r.root op).map fun (store, out) =>
        { r with store := store, attach := out, due := out }
    | none =>
      let r := r.prior op [r.root]
      some { r with due := r.root }
  | .suf op =>
    match Ts.opAt (P.heap r.store) r.attach with
    | some _ =>
      (P.prattify r.store r.attach op).map fun (store, out) =>
        { r with store := store, attach := out }
    | none => some (r.prior op [r.attach])
  | .opn _ => none
  | .cls _ => none

/-- The actions for a sequence of tokens. -/
def run : List (Sym Op (Val α)) → Run P → Option (Run P)
  | [], r => some r
  | tok :: toks, r => (r.step tok).bind (run toks)

theorem run_append (ts us : List (Sym Op (Val α))) (r : Run P) :
    run (ts ++ us) r = (run ts r).bind (run us) := by
  induction ts generalizing r with
  | nil => rfl
  | cons tok ts ih =>
    rw [List.cons_append, run, run, Option.bind_assoc]
    congr 1
    funext r'
    exact ih r'

end Run

/-- Between two tokens of an expression read from the store `s₀` on, when no operand is due: the root
stands for the tree `T`, and the attachment node is the node `d` steps down its right edge. -/
structure Holds {P : Port α} (s₀ : Ts.Heap α) (r : Run P) (T : Tree Op (Val α)) (d : ℕ)
    (t : Tree (ℕ × Op) (Val α)) : Prop where
  apart : Apart s₀ (P.heap r.store) t
  held : Held Ts.layout (P.heap r.store) t
  tree : erase t = T
  root : handle t = r.root
  attach : handle (edgeAt d t) = r.attach
  due : r.due = .undefined
  inner : d = 0 ∨ ∃ i, rootId (edgeAt d t) = some i

/-- While an operand is due, at the node `d` steps down the right edge or below it. -/
structure Waits {P : Port α} (s₀ : Ts.Heap α) (r : Run P) (d e : ℕ)
    (t : Tree (ℕ × Op) (Val α)) : Prop where
  apart : Apart s₀ (P.heap r.store) t
  held : Held Ts.layout (P.heap r.store) t
  isOpen : Open t
  root : ∃ i, rootId t = some i ∧ r.root = .node i
  attach : ∃ i, rootId (edgeAt d t) = some i ∧ r.attach = .node i
  due : ∃ i, DueAt (d + e) i t ∧ r.due = .node i

section Steps

variable {P : Port α} {s₀ : Ts.Heap α} {r : Run P} {t y : Tree (ℕ × Op) (Val α)} {d e : ℕ} {op : Op}

/-- The node that waits is an expression. -/
theorem DueAt.opAt {s : Ts.Heap α} {i : ℕ} (h : DueAt d i t) (ht : Held Ts.layout s t) :
    ∃ q, Ts.opAt s (.node i) = some q := by
  obtain ⟨p, l?, rfl, -, -, he⟩ := h
  have hu : Held Ts.layout s (spine p l? hole) := he ▸ ht.edgeAt
  have hp : Ts.opOf s p.1 = some p.2 := Ts.opOf_root hu.stores (by cases l? <;> rfl)
  exact ⟨p, by simp [Ts.opAt, hp]⟩

/-- A prefix operator in operand position. -/
theorem Waits.step_pre (h : Waits s₀ r d e t) (hop : op.kind = .prefixOp) :
    ∃ r' n, r.step (.pre op) = some r' ∧ Waits s₀ r' d (e + 1) (fill (pre (n, op) hole) t) := by
  obtain ⟨i, hd, hi⟩ := h.due
  obtain ⟨q, hq⟩ := hd.opAt h.held
  obtain ⟨s', out, hs', hrw, hd'⟩ := P.prattify_prefix h.held hd hop
  refine ⟨{ r with store := s', due := .node out }, out, ?_, h.apart.rewrites hrw, hrw.held, ?_, ?_, ?_,
    out, hd', rfl⟩
  · simp [Run.step, hi, hq, hs']
  · exact open_fill h.isOpen trivial
  · obtain ⟨j, hj, e⟩ := h.root
    exact ⟨j, rootId_fill hj _, e⟩
  · obtain ⟨j, hj, e⟩ := h.attach
    exact ⟨j, rootId_edgeAt_fill hj _, e⟩

/-- An operand. -/
theorem Waits.step_leaf (h : Waits s₀ r d e t) (v : Val α) :
    ∃ r', r.step (.leaf v) = some r' ∧
      Holds s₀ r' (fill (leaf v) (erase t)) d (fill (leaf v) t) := by
  obtain ⟨i, hd, hi⟩ := h.due
  obtain ⟨q, hq⟩ := hd.opAt h.held
  have hrw := P.rewrites_push h.held hd v
  obtain ⟨j, hj, hroot⟩ := h.root
  obtain ⟨k, hk, hattach⟩ := h.attach
  refine ⟨{ r with store := P.push r.store r.due v, due := .undefined }, ?_, ?_, ?_, erase_fill _, ?_,
    ?_,
    rfl, Or.inr ⟨k, rootId_edgeAt_fill hk _⟩⟩
  · simp [Run.step, hi, hq]
  · rw [hi]
    exact h.apart.rewrites hrw
  · rw [hi]
    exact hrw.held
  · rw [hroot]
    exact handle_of_rootId (rootId_fill hj _)
  · rw [hattach]
    exact handle_of_rootId (rootId_edgeAt_fill hk _)

/-- An operand under prefix operators fills the operand that is due. -/
theorem Waits.run_operand (h : Waits s₀ r d e t) {ps : List Op} (hps : ∀ p ∈ ps, p.kind = .prefixOp)
    (x : α) :
    ∃ r' t', Run.run (Seq.operandText ps x) r = some r' ∧
      Holds s₀ r' (fill (Seq.operand ps x) (erase t)) d t' := by
  induction ps generalizing r t e with
  | nil =>
    obtain ⟨r', hr', h'⟩ := h.step_leaf (.atom x)
    exact ⟨r', _, by simp [Seq.operandText, Run.run, hr'], h'⟩
  | cons p ps ih =>
    obtain ⟨r₁, n, hr₁, h₁⟩ := h.step_pre (hps p List.mem_cons_self)
    obtain ⟨r', t', hr', h'⟩ := ih h₁ fun q hq => hps q (List.mem_cons_of_mem _ hq)
    refine ⟨r', t', ?_, ?_⟩
    · have : Seq.operandText (p :: ps) x = .pre p :: Seq.operandText ps x := rfl
      rw [this, Run.run, hr₁]
      exact hr'
    · rw [erase_fill, fill_fill (open_erase.2 h.isOpen)] at h'
      exact h'

variable {T : Tree Op (Val α)}

/-- An infix operator after a complete expression. -/
theorem Holds.step_inf (h : Holds s₀ r T d t) (hc : Complete T) (hk : Kinded T) (hn : NoParen T)
    (hl : Leaves IsAtom T) (hop : op.kind = .infixOp) :
    ∃ r' t', r.step (.inf op) = some r' ∧ Waits s₀ r' (attachDepth op T) 0 t' ∧
      erase t' = Tree.attach op T := by
  obtain ⟨hapart, ht, rfl, hroot, -, -, -⟩ := h
  obtain ⟨a, rfl⟩ | ⟨p, hp⟩ := leaf_or_root (complete_erase.1 hc) hl
  · -- The first operator, and its first term is a plain value.
    have hr : r.root = .atom a := hroot.symm
    have hnode := P.newNode_snd r.store op [.atom a]
    refine ⟨{ r.prior op [.atom a] with due := (r.prior op [.atom a]).root },
      inf ((P.heap r.store).last + 1, op) (leaf (.atom a)) hole, ?_, ⟨?_, ?_, ⟨trivial, trivial⟩,
        ⟨_, rfl, hnode⟩, ⟨_, rfl, hnode⟩, _, ⟨_, some (leaf (.atom a)), rfl, ?_,
          hop, rfl⟩, hnode⟩, rfl⟩
    · simp [Run.step, hr, Ts.opAt]
    · show Apart _ (P.heap (P.newNode r.store op [.atom a]).1) _
      rw [P.heap_newNode]
      exact hapart.alloc _ (by simp [ids])
    · show Held _ (P.heap (P.newNode r.store op [.atom a]).1) _
      rw [P.heap_newNode]
      exact Ts.held_newNode_inf ht trivial
    · rintro l ⟨⟩
      trivial
  · obtain ⟨s', t', out, hs', hrw, he, hd⟩ := P.prattify_infix ht hp (complete_erase.1 hc) hk hop
      (Ts.sealed_of_isAtom hl op) (Or.inr hn)
    have hr : r.root = .node p.1 := by
      rw [← hroot]
      exact handle_of_rootId (rootId_of_root hp)
    refine ⟨{ r with store := s', attach := .node out, due := .node out }, t', ?_,
      ⟨hapart.rewrites hrw, hrw.held, ?_, ⟨p.1, hrw.root.trans (rootId_of_root hp), hr⟩,
        ⟨out, ?_, rfl⟩, out, hd, rfl⟩, he⟩
    · simp [Run.step, hr, Ts.opAt, Ts.opOf_root ht.stores hp, hs']
    · rw [← open_erase, he]
      exact open_attach op hc
    · obtain ⟨q, l?, rfl, -, -, hq⟩ := hd
      rw [hq, rootId_spine]

/-- A suffix operator after a complete expression. -/
theorem Holds.step_suf (h : Holds s₀ r T d t) (hon : OnEdge d T) (hc : Complete T) (hk : Kinded T)
    (hn : NoParen T) (hl : Leaves IsAtom T) (hop : op.kind = .suffixOp) :
    ∃ r' t', r.step (.suf op) = some r' ∧ Holds s₀ r' (onEdge (suffixAt op) d T) d t' := by
  obtain ⟨hapart, ht, rfl, hroot, hattach, hdue, hinner⟩ := h
  have hon := onEdge_erase.1 hon
  have hu : Held Ts.layout (P.heap r.store) (edgeAt d t) := ht.edgeAt
  have huc : Complete (edgeAt d t) := complete_edgeAt hon (complete_erase.1 hc)
  have hul : Leaves IsAtom (erase (edgeAt d t)) := by
    rw [erase_edgeAt]
    exact leaves_edgeAt hl
  obtain ⟨a, ha⟩ | ⟨p, hp⟩ := leaf_or_root huc hul
  · -- The whole expression is one operand.
    obtain rfl : d = 0 := hinner.resolve_right (by simp [ha, rootId])
    obtain rfl : t = leaf (.atom a) := ha
    have hr : r.attach = .atom a := hattach.symm
    have hnode := (P.newNode_snd r.store op [.atom a]).symm
    refine ⟨r.prior op [.atom a], suf ((P.heap r.store).last + 1, op) (leaf (.atom a)), ?_, ?_, ?_,
      rfl, hnode, hnode, hdue, Or.inl rfl⟩
    · simp [Run.step, hr, Ts.opAt]
    · show Apart _ (P.heap (P.newNode r.store op [.atom a]).1) _
      rw [P.heap_newNode]
      exact hapart.alloc _ (by simp [ids])
    · show Held _ (P.heap (P.newNode r.store op [.atom a]).1) _
      rw [P.heap_newNode]
      exact Ts.held_newNode_suf ht trivial
  · obtain ⟨s', u, hs', hrw, he⟩ := P.prattify_suffix hu hp huc
      (erase_edgeAt ▸ kinded_edgeAt hk) hop (Ts.sealed_of_isAtom hul op)
      (Or.inr (erase_edgeAt ▸ noParen_edgeAt hn))
    have hrw' := Rewrites.onEdge ht hon hrw (by simp)
    have ha : r.attach = .node p.1 := by
      rw [← hattach]
      exact handle_of_rootId (rootId_of_root hp)
    have hu' : rootId u = some p.1 := hrw.root.trans (rootId_of_root hp)
    refine ⟨{ r with store := s', attach := .node p.1 }, onEdge (fun _ => u) d t, ?_,
      hapart.rewrites hrw', hrw'.held,
      erase_onEdge ?_, ?_, ?_, hdue, Or.inr ⟨p.1, ?_⟩⟩
    · simp [Run.step, ha, Ts.opAt, Ts.opOf_root hu.stores hp, hs']
    · rw [he, erase_edgeAt]
    · obtain ⟨i, hi⟩ := rootId_of_edgeAt (rootId_of_root hp)
      rw [← hroot, handle_of_rootId hi, handle_of_rootId (hrw'.root.trans hi)]
    · rw [edgeAt_onEdge hon]
      exact handle_of_rootId hu'
    · rw [edgeAt_onEdge hon, hu']

/-- The first operand, under its prefix operators. -/
theorem run_lead (s : P.State) {ps : List Op} (hps : ∀ p ∈ ps, p.kind = .prefixOp) (x : α) :
    ∃ r t, Run.run (Seq.operandText ps x) (Run.start s : Run P) = some r ∧
      Holds (P.heap s) r (Seq.operand ps x) 0 t := by
  cases ps with
  | nil =>
    exact ⟨⟨s, .atom x, .atom x, .undefined⟩, leaf (.atom x), rfl, Apart.start rfl, held_leaf _, rfl,
      rfl, rfl, rfl, Or.inl rfl⟩
  | cons p ps =>
    have hp := hps p List.mem_cons_self
    have hnode := P.newNode_snd s p []
    let r₁ : Run P := { (Run.start s : Run P).prior p [] with
      due := ((Run.start s : Run P).prior p []).root }
    have hw : Waits (P.heap s) r₁ 0 0 (pre ((P.heap s).last + 1, p) hole) := by
      refine ⟨?_, ?_, trivial, ⟨_, rfl, hnode⟩, ⟨_, rfl, hnode⟩, _,
        ⟨_, none, rfl, ?_, hp, rfl⟩, hnode⟩
      · show Apart _ (P.heap (P.newNode s p []).1) _
        rw [P.heap_newNode]
        refine Apart.alloc (t := hole) (Apart.start rfl) _ ?_
        simp [ids]
      · show Held _ (P.heap (P.newNode s p []).1) _
        rw [P.heap_newNode]
        exact Ts.held_newNode_pre
      · simp [FrontComplete]
    obtain ⟨r, t, hr, h⟩ := hw.run_operand (fun q hq => hps q (List.mem_cons_of_mem _ hq)) x
    exact ⟨r, t, hr, h⟩

/-- The actions build the tree of the sequence. -/
theorem run_text (s : P.State) {e : Seq α} (hk : e.Kinded) :
    ∃ r t, Run.run e.text (Run.start s : Run P) = some r ∧
      Holds (P.heap s) r e.tree e.depth t := by
  induction e with
  | lead ps x => exact run_lead s hk x
  | more e o ps x ih =>
    obtain ⟨r₀, t₀, hr₀, h₀⟩ := ih hk.1
    obtain ⟨r₁, t₁, hr₁, h₁, he₁⟩ := h₀.step_inf e.complete_tree (Seq.kinded_tree hk.1)
      e.noParen_tree e.leaves_tree hk.2.1
    obtain ⟨r, t, hr, h⟩ := h₁.run_operand hk.2.2 x
    rw [he₁] at h
    refine ⟨r, t, ?_, h⟩
    rw [Seq.text, Run.run_append, hr₀, Option.bind_some, Run.run, hr₁]
    exact hr
  | suffixed e s ih =>
    obtain ⟨r₀, t₀, hr₀, h₀⟩ := ih hk.1
    obtain ⟨r, t, hr, h⟩ := h₀.step_suf e.onEdge_depth e.complete_tree (Seq.kinded_tree hk.1)
      e.noParen_tree e.leaves_tree hk.2
    refine ⟨r, t, ?_, h⟩
    rw [Seq.text, Run.run_append, hr₀, Option.bind_some, Run.run, hr]
    rfl

end Steps

theorem isOperand_of_isAtom {h : Ts.Heap α} {T : Tree Op (Val α)} (hl : Leaves IsAtom T) :
    Leaves (Ts.IsOperand h) T := by
  refine hl.mono ?_
  rintro v ⟨a, rfl⟩
  exact ⟨by simp, by simp [Ts.opAt]⟩

/-- The root of the expression is read as the tree of the sequence. -/
theorem Holds.treeOf {P : Port α} {s₀ : Ts.Heap α} {r : Run P} {t : Tree (ℕ × Op) (Val α)} {d : ℕ}
    {e : Seq α}
    (h : Holds s₀ r e.tree d t) (hk : e.Kinded) :
    Ts.treeOf (P.heap r.store) r.root = some e.tree := by
  have he := h.tree
  rw [← h.root, ← he]
  exact Ts.treeOf_handle h.held (complete_erase.1 (he ▸ e.complete_tree)) (he ▸ Seq.kinded_tree hk)
    (he ▸ e.noParen_tree) (he ▸ isOperand_of_isAtom e.leaves_tree)

/-- For any operator table and any token sequence, the actions lose, duplicate and reorder no token,
give every node all its operands, and bind nothing against the powers. -/
theorem run_text_ordered (lang : Lang) (s : (lang.port (α := α)).State) {e : Seq α}
    (hk : e.Kinded) :
    ∃ r T, Run.run e.text (Run.start s) = some r ∧
      Ts.treeOf (lang.port.heap r.store) r.root = some T ∧
      read T = e.text ∧ Complete T ∧ Ordered T := by
  obtain ⟨r, t, hr, h⟩ := run_text s hk
  exact ⟨r, e.tree, hr, h.treeOf hk, e.read_tree, e.complete_tree, e.ordered_tree⟩

/-- `--1+2*3!`, with a suffix operator that binds more tightly than the others. -/
theorem run_text_ordered_default :
    ∃ r T, Run.run (Seq.text (.suffixed (.more (.more (.lead [negative, negative] 1) addition [] 2)
        multiplication [] 3) ⟨"factorial-suffix", "!", .suffixOp, 6000000, maxSafeInteger⟩))
        (Run.start (P := Lang.rust.port) Lang.rust.start) = some r ∧
      Ts.treeOf (Lang.rust.port.heap r.store) r.root = some T ∧
      read T = [.pre negative, .pre negative, .leaf (.atom 1), .inf addition, .leaf (.atom 2),
        .inf multiplication, .leaf (.atom 3),
        .suf ⟨"factorial-suffix", "!", .suffixOp, 6000000, maxSafeInteger⟩] := by
  obtain ⟨r, T, hr, hT, hread, -⟩ := run_text_ordered .rust Lang.rust.start
    (e := .suffixed (.more (.more (.lead [negative, negative] 1) addition [] 2)
      multiplication [] 3) ⟨"factorial-suffix", "!", .suffixOp, 6000000, maxSafeInteger⟩)
    (by simp [Seq.Kinded, negative, prefixDef, addition, multiplication, infixDef])
  exact ⟨r, T, hr, hT, hread⟩

end TabnasExpr
