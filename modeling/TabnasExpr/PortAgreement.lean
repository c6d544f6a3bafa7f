import TabnasExpr.Go.Drive
import TabnasExpr.SuffixPlacement

/-!
# Where the Go port and the TypeScript port build the same tree

Both ports attach an infix operator at the right edge of the whole tree.  A suffix operator goes down
from the root in the Go port, and starts at the attachment node in the TypeScript port, so the two
trees agree exactly as long as every suffix operator finds the same place both ways (`SamePlace`).  No
later step can mend a difference, because each step can be undone: `detach` takes the last infix
operator off the right edge, and `unwrap` the first suffix operator.
-/

namespace TabnasExpr

open OpTree OpTree.Tree

universe u

variable {β : Type*} {α : Type u}

/-- The node at the root is no infix or prefix operator with this power on its right. -/
def NoTieAt (s : Op) : Tree Op β → Prop
  | pre p _ => p.right ≠ s.left
  | inf p _ _ => p.right ≠ s.left
  | _ => True

/-- A suffix operator finds the same place from the root and from the attachment node: that node is
the root, or the root binds no more tightly than the suffix, every other operator above the
attachment node less tightly, and the attachment node's own operator not exactly as tightly. -/
def SamePlace (s : Op) (T : Tree Op β) : ℕ → Prop
  | 0 => True
  | d + 1 =>
    (∀ o ∈ (above (d + 1) T).head?, o.right ≤ s.left) ∧
      (∀ o ∈ (above (d + 1) T).tail, o.right < s.left) ∧ NoTieAt s (edgeAt (d + 1) T)

instance (s : Op) (T : Tree Op β) : Decidable (NoTieAt s T) :=
  match T with
  | pre p _ => inferInstanceAs (Decidable (p.right ≠ s.left))
  | inf p _ _ => inferInstanceAs (Decidable (p.right ≠ s.left))
  | hole => .isTrue trivial
  | leaf _ => .isTrue trivial
  | suf _ _ => .isTrue trivial
  | grp _ _ => .isTrue trivial

instance (s : Op) (T : Tree Op β) (d : ℕ) : Decidable (SamePlace s T d) :=
  match d with
  | 0 => .isTrue trivial
  | d + 1 => inferInstanceAs (Decidable ((∀ o ∈ (above (d + 1) T).head?, o.right ≤ s.left) ∧
      (∀ o ∈ (above (d + 1) T).tail, o.right < s.left) ∧ NoTieAt s (edgeAt (d + 1) T)))

variable {s : Op} {t x y : Tree Op β} {d : ℕ}

/-! ## One suffix step -/

theorem sink_eq_drill (h : Plain x) : Go.sink s x = drill s x := by
  induction x with
  | pre p x ih => simp only [Go.sink, drill, ih h]
  | inf => exact h.elim
  | hole | leaf | suf | grp => rfl

/-- At the root the two ports agree. -/
theorem suffixFrom_eq_suffixAt (h : LastPlain t) : Go.suffixFrom s t = suffixAt s t := by
  cases t with
  | pre p x => simp only [Go.suffixFrom, suffixAt, sink_eq_drill (x := x) h]
  | inf p l r => simp only [Go.suffixFrom, suffixAt, sink_eq_drill (x := r) h]
  | hole | leaf | suf | grp => rfl

theorem sink_eq_suffixAt_iff (h : LastPlain t) : Go.sink s t = suffixAt s t ↔ NoTieAt s t := by
  cases t with
  | pre p x | inf p l x =>
    simp only [Go.sink, suffixAt, sink_eq_drill (x := x) h, NoTieAt]
    obtain hlt | heq | hgt := lt_trichotomy p.right s.left
    · simp [hlt, hlt.le, hlt.ne]
    · simp [heq]
    · simp [hgt.not_gt, hgt.not_ge, hgt.ne']
  | hole | leaf | suf | grp => exact iff_of_true rfl trivial

/-- A suffix that sinks through operators finds the attachment node when each of them binds less
tightly. -/
theorem sink_eq_onEdge_iff (hd : OnEdge d t) (h : LastPlain (edgeAt d t)) :
    Go.sink s t = onEdge (suffixAt s) d t ↔
      (∀ o ∈ above d t, o.right < s.left) ∧ NoTieAt s (edgeAt d t) := by
  induction d generalizing t with
  | zero => simpa [above, edgeAt, onEdge] using sink_eq_suffixAt_iff (s := s) (t := t) h
  | succ d ih =>
    cases t with
    | pre o x | inf o l x =>
      simp only [Go.sink, onEdge, above, List.forall_mem_cons, edgeAt, and_assoc]
      split_ifs with hlt
      · simpa [hlt] using ih hd h
      · simp [hlt]
    | hole | leaf | suf | grp => exact hd.elim

/-- The two ports put a suffix in the same place of a tree exactly when it finds the same place both
ways. -/
theorem suffixFrom_eq_onEdge_iff (hd : OnEdge d t) (h : LastPlain (edgeAt d t)) :
    Go.suffixFrom s t = onEdge (suffixAt s) d t ↔ SamePlace s t d := by
  cases d with
  | zero => exact iff_of_true (suffixFrom_eq_suffixAt h) trivial
  | succ d =>
    cases t with
    | pre o x | inf o l x =>
      simp only [Go.suffixFrom, onEdge, SamePlace, above, List.head?_cons, Option.mem_some_iff,
        forall_eq', List.tail_cons, edgeAt]
      split_ifs with hle
      · simpa [hle] using sink_eq_onEdge_iff (s := s) (d := d) (t := x) hd h
      · simp [hle]
    | hole | leaf | suf | grp => exact hd.elim

/-! ## Undoing a step -/

/-- Take the last infix operator off the right edge, with its last operand. -/
def detach : Tree Op β → Option (Tree Op β)
  | pre o x => (detach x).map (pre o)
  | inf o l r =>
    match detach r with
    | some r => some (inf o l r)
    | none => some l
  | _ => none

/-- Take the first suffix operator off the right edge. -/
def unwrap : Tree Op β → Tree Op β
  | pre o x => pre o (unwrap x)
  | inf o l r => inf o l (unwrap r)
  | suf _ x => x
  | t => t

theorem unwrap_wrap (hd : OnEdge d t) : unwrap (onEdge (suf s) d t) = t := by
  induction d generalizing t with
  | zero => rfl
  | succ d ih =>
    cases t with
    | pre o x => exact congrArg (pre o) (ih hd)
    | inf o l r => exact congrArg (inf o l) (ih hd)
    | hole | leaf | suf | grp => exact hd.elim

theorem unwrap_suffixFrom : unwrap (Go.suffixFrom s t) = t := by
  obtain ⟨d, hd, e⟩ := Go.suffixFrom_eq_onEdge s t
  rw [e, unwrap_wrap hd]

theorem unwrap_onEdge (hd : OnEdge d t) : unwrap (onEdge (suffixAt s) d t) = t := by
  induction d generalizing t with
  | zero =>
    obtain ⟨d, hd, e⟩ := suffixAt_eq_onEdge s t
    rw [onEdge, e, unwrap_wrap hd]
  | succ d ih =>
    cases t with
    | pre o x => exact congrArg (pre o) (ih hd)
    | inf o l r => exact congrArg (inf o l) (ih hd)
    | hole | leaf | suf | grp => exact hd.elim

theorem detach_operand (ps : List Op) (a : α) : detach (Seq.operand ps a) = none := by
  induction ps with
  | nil => rfl
  | cons p ps ih => simpa [Seq.operand, prefixes, detach] using ih

theorem detach_attach {o : Op} (ht : Complete t) (hy : detach y = none) :
    detach (fill y (attach o t)) = some t := by
  induction t with
  | hole => exact ht.elim
  | pre p x ih =>
    unfold attach
    split_ifs
    · simp [fill, detach, ih ht]
    · simp [fill, detach, hy]
  | inf p l r _ ih =>
    unfold attach
    split_ifs
    · simp [fill, detach, ih ht.2]
    · simp [fill, detach, hy]
  | leaf | suf | grp => simp [attach, fill, detach, hy]

/-! ## Whole runs -/

namespace Seq

/-- At every suffix operator of the sequence, the suffix finds the same place both ways. -/
def SamePlaces : Seq α → Prop
  | lead _ _ => True
  | more e _ _ _ => SamePlaces e
  | suffixed e s => SamePlaces e ∧ SamePlace s (tree e) (depth e)

instance decidableSamePlaces : (e : Seq α) → Decidable e.SamePlaces
  | lead _ _ => isTrue trivial
  | more e _ _ _ => decidableSamePlaces e
  | suffixed e s =>
    have := decidableSamePlaces e
    inferInstanceAs (Decidable (SamePlaces e ∧ SamePlace s (tree e) (depth e)))

/-- The trees of the two ports are the same exactly when every suffix finds the same place. -/
theorem goTree_eq_tree_iff (e : Seq α) : goTree e = tree e ↔ SamePlaces e := by
  induction e with
  | lead ps x => exact iff_of_true rfl trivial
  | more e o ps x ih =>
    rw [SamePlaces, ← ih]
    refine ⟨fun h => ?_, fun h => by rw [goTree, h, tree_more]⟩
    have hgo := detach_attach (o := o) (complete_goTree e) (detach_operand ps x)
    have hts := detach_attach (o := o) (complete_tree e) (detach_operand ps x)
    rw [goTree, tree_more] at h
    rw [h, hts] at hgo
    exact (Option.some.inj hgo).symm
  | suffixed e s ih =>
    rw [SamePlaces, ← ih, goTree, tree_suffixed]
    constructor
    · intro h
      have he : goTree e = tree e := by
        rw [← unwrap_suffixFrom (s := s) (t := goTree e), h, unwrap_onEdge (onEdge_depth e)]
      rw [he] at h
      exact ⟨he, (suffixFrom_eq_onEdge_iff (onEdge_depth e) (lastPlain_depth e)).1 h⟩
    · rintro ⟨he, hplace⟩
      rw [he]
      exact (suffixFrom_eq_onEdge_iff (onEdge_depth e) (lastPlain_depth e)).2 hplace

/-- No prefix operator of the sequence is written as one of its suffix operators. -/
def Distinct (e : Seq α) : Prop :=
  ∀ p s, .pre p ∈ e.text → .suf s ∈ e.text → p.src ≠ s.src

end Seq

/-! ## Up to simplification -/

/-- What `simplify` makes of an expression: an operand, or a list headed by the source text of its
operator. -/
inductive Simple (α : Type u) where
  | value (v : Val α)
  | list (head : String) (terms : List (Simple α))

/-- `simplify` of a term: a term never filled is dropped. -/
def simplify : Tree Op (Val α) → List (Simple α)
  | hole => []
  | leaf v => [.value v]
  | pre o x => [.list o.src (simplify x)]
  | suf o x => [.list o.src (simplify x)]
  | inf o l r => [.list o.src (simplify l ++ simplify r)]
  | grp o x => [.list o.src (simplify x)]

theorem length_simplify {t : Tree Op (Val α)} (ht : Complete t) : (simplify t).length = 1 := by
  cases t with
  | hole => exact ht.elim
  | leaf | pre | suf | inf | grp => rfl

/-- A unary node and a binary one never have the same terms. -/
theorem simplify_ne_append {x l r : Tree Op (Val α)} (hx : Complete x) (hl : Complete l)
    (hr : Complete r) : simplify x ≠ simplify l ++ simplify r := by
  intro h
  have := congrArg List.length h
  simp [length_simplify hx, length_simplify hl, length_simplify hr] at this

/-- Two trees of one text that simplify to the same value are the same tree, as long as the source
text of a unary operator says whether it is a prefix or a suffix one. -/
theorem eq_of_simplify {t t' : Tree Op (Val α)} {u u' : List (Sym Op (Val α))} (hc : Complete t)
    (hc' : Complete t') (hn : NoParen t) (hn' : NoParen t') (h : simplify t = simplify t')
    (hread : read t ++ u = read t' ++ u')
    (hsrc : ∀ p s, .pre p ∈ read t ++ u → .suf s ∈ read t ++ u → p.src ≠ s.src) :
    t = t' ∧ u = u' := by
  induction t generalizing t' u u' with
  | hole => exact hc.elim
  | grp => exact hn.elim
  | leaf v =>
    cases t' with
    | hole => exact hc'.elim
    | leaf v' => simpa using hread
    | pre | suf | inf | grp => simp [simplify] at h
  | pre o x ih =>
    cases t' with
    | hole => exact hc'.elim
    | grp => exact hn'.elim
    | leaf => simp [simplify] at h
    | inf o' l' r' =>
      simp only [simplify, List.cons.injEq, Simple.list.injEq, and_true] at h
      exact absurd h.2 (simplify_ne_append hc hc'.1 hc'.2)
    | suf o' x' =>
      simp only [simplify, List.cons.injEq, Simple.list.injEq, and_true] at h
      exact absurd h.1 (hsrc o o' (by simp) (by rw [hread]; simp))
    | pre o' x' =>
      simp only [simplify, List.cons.injEq, Simple.list.injEq, and_true] at h
      simp only [read_pre, List.cons_append, List.cons.injEq, Sym.pre.injEq] at hread
      obtain ⟨rfl, hread⟩ := hread
      have hx' : Complete x' := hc'
      obtain ⟨rfl, rfl⟩ := ih hc hx' hn hn' h.2 hread fun p s hp hs =>
        hsrc p s (List.mem_cons_of_mem _ hp) (List.mem_cons_of_mem _ hs)
      exact ⟨rfl, rfl⟩
  | suf o x ih =>
    cases t' with
    | hole => exact hc'.elim
    | grp => exact hn'.elim
    | leaf => simp [simplify] at h
    | inf o' l' r' =>
      simp only [simplify, List.cons.injEq, Simple.list.injEq, and_true] at h
      exact absurd h.2 (simplify_ne_append hc hc'.1 hc'.2)
    | pre o' x' =>
      simp only [simplify, List.cons.injEq, Simple.list.injEq, and_true] at h
      exact absurd h.1.symm (hsrc o' o (by rw [hread]; simp) (by simp))
    | suf o' x' =>
      simp only [simplify, List.cons.injEq, Simple.list.injEq, and_true] at h
      simp only [read_suf, List.append_assoc] at hread hsrc
      have hx' : Complete x' := hc'
      obtain ⟨rfl, htail⟩ := ih hc hx' hn hn' h.2 hread hsrc
      simpa using htail
  | inf o l r ihl ihr =>
    cases t' with
    | hole => exact hc'.elim
    | grp => exact hn'.elim
    | leaf => simp [simplify] at h
    | pre o' x' | suf o' x' =>
      simp only [simplify, List.cons.injEq, Simple.list.injEq, and_true] at h
      exact absurd h.2.symm (simplify_ne_append (x := x') hc' hc.1 hc.2)
    | inf o' l' r' =>
      simp only [simplify, List.cons.injEq, Simple.list.injEq, and_true] at h
      obtain ⟨hl, hr⟩ := List.append_inj h.2 (by
        rw [length_simplify hc.1, length_simplify hc'.1])
      simp only [read_inf, List.append_assoc, List.cons_append] at hread hsrc
      obtain ⟨rfl, htail⟩ := ihl hc.1 hc'.1 hn.1 hn'.1 hl hread hsrc
      simp only [List.cons.injEq, Sym.inf.injEq] at htail
      obtain ⟨rfl, htail⟩ := htail
      obtain ⟨rfl, rfl⟩ := ihr hc.2 hc'.2 hn.2 hn'.2 hr htail fun p s hp hs =>
        hsrc p s (by simp at hp ⊢; tauto) (by simp at hs ⊢; tauto)
      exact ⟨rfl, rfl⟩

/-- The Go port and the TypeScript port build trees that simplify to the same value as long as every
suffix operator finds the same place from the root and from the attachment node; and the two trees
are the same in no other case. -/
theorem run_agree_iff (s : Ts.Heap α) (h : Go.Heap α) {e : Seq α} (hk : e.Kinded) :
    ∃ r g T T', Run.run e.text (Run.start s : Run Ts.port) = some r ∧
      Go.Run.run e.text (Go.Run.start h) = some g ∧
      Ts.treeOf r.store r.root = some T ∧ Ts.treeOf (Go.cleaned g.heap) g.root = some T' ∧
      (T' = T ↔ e.SamePlaces) ∧ (e.SamePlaces → simplify T' = simplify T) ∧
      (e.Distinct → (simplify T' = simplify T ↔ e.SamePlaces)) := by
  obtain ⟨r, t, hr, hts⟩ := run_text (P := Ts.port) s hk
  obtain ⟨g, t', hg, hgo⟩ := Go.run_text h hk
  have hiff := e.goTree_eq_tree_iff
  refine ⟨r, g, e.tree, e.goTree, hr, hg, hts.treeOf hk, hgo.treeOf hk, hiff,
    fun hsame => congrArg simplify (hiff.2 hsame), fun hdist => ?_⟩
  refine ⟨fun hsimp => hiff.1 ?_, fun hsame => congrArg simplify (hiff.2 hsame)⟩
  have hread : read e.goTree ++ [] = read e.tree ++ [] := by rw [e.read_goTree, e.read_tree]
  refine (eq_of_simplify e.complete_goTree e.complete_tree e.noParen_goTree e.noParen_tree hsimp
    hread ?_).1
  rw [e.read_goTree, List.append_nil]
  exact hdist

/-- `0+1?`: the attachment node is the root. -/
theorem run_agree_iff_default :
    ∃ r g T T', Run.run (Seq.text (.suffixed (.more (.lead [] 0) addition [] 1) question))
        (Run.start Store.empty : Run (Ts.port (α := ℕ))) = some r ∧
      Go.Run.run (Seq.text (.suffixed (.more (.lead [] 0) addition [] 1) question))
        (Go.Run.start Store.empty) = some g ∧
      Ts.treeOf r.store r.root = some T ∧ Ts.treeOf (Go.cleaned g.heap) g.root = some T' ∧
      simplify T' = simplify T := by
  obtain ⟨r, g, T, T', hr, hg, hT, hT', -, hsame, -⟩ := run_agree_iff (α := ℕ) Store.empty
    Store.empty (e := .suffixed (.more (.lead [] 0) addition [] 1) question)
    (by simp [Seq.Kinded, addition, infixDef, question])
  exact ⟨r, g, T, T', hr, hg, hT, hT', hsame ⟨trivial, trivial⟩⟩

/-- `1+2*3?`: the loose suffix stays inside the sum in the TypeScript port and goes around it in the
Go port. -/
theorem loose_suffix_disagrees :
    ∃ r g T T', Run.run (Seq.text (.suffixed (.more (.more (.lead [] 1) addition [] 2)
        multiplication [] 3) question)) (Run.start Store.empty : Run (Ts.port (α := ℕ))) = some r ∧
      Go.Run.run (Seq.text (.suffixed (.more (.more (.lead [] 1) addition [] 2) multiplication [] 3)
        question)) (Go.Run.start Store.empty) = some g ∧
      Ts.treeOf r.store r.root = some T ∧ Ts.treeOf (Go.cleaned g.heap) g.root = some T' ∧
      simplify T' ≠ simplify T := by
  have hk : Seq.Kinded (α := ℕ) (.suffixed (.more (.more (.lead [] 1) addition [] 2)
      multiplication [] 3) question) := by
    simp [Seq.Kinded, addition, multiplication, infixDef, question]
  obtain ⟨r, t, hr, hts⟩ := run_text (P := Ts.port) Store.empty hk
  obtain ⟨g, t', hg, hgo⟩ := Go.run_text Store.empty hk
  refine ⟨r, g, _, _, hr, hg, hts.treeOf hk, hgo.treeOf hk, ?_⟩
  have htree : Seq.tree (α := ℕ) (.suffixed (.more (.more (.lead [] 1) addition [] 2)
      multiplication [] 3) question) = inf addition (leaf (.atom 1))
        (suf question (inf multiplication (leaf (.atom 2)) (leaf (.atom 3)))) := rfl
  have hgoTree : Seq.goTree (α := ℕ) (.suffixed (.more (.more (.lead [] 1) addition [] 2)
      multiplication [] 3) question) = suf question (inf addition (leaf (.atom 1))
        (inf multiplication (leaf (.atom 2)) (leaf (.atom 3)))) := rfl
  rw [htree, hgoTree]
  simp [simplify, addition, infixDef, question]

end TabnasExpr
