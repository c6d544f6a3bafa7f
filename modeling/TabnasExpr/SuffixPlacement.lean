import TabnasExpr.Drive

/-!
# Whether a suffix operator is placed by its power

A suffix node is placed by precedence when the operator it was applied to binds its last operand more
tightly than the suffix, and every operator whose last operand it is part of binds less tightly or as
tightly (`Placed`).  The rules apply a suffix to the attachment node, so it cannot go above that node
(`above`), and on its way down it stops at a prefix operator with the very power it has (`Tie`).
These are the only ways to miss: a step keeps the tree placed exactly when there is `Room`.
-/

namespace TabnasExpr

open OpTree OpTree.Tree

universe u

variable {β : Type*} {α : Type u}

/-- The suffix operators on the right edge of a tree. -/
def edgeSuffixes : Tree Op β → List Op
  | suf s x => s :: edgeSuffixes x
  | pre _ x => edgeSuffixes x
  | inf _ _ r => edgeSuffixes r
  | _ => []

/-- The suffix should not have bound inside its operand. -/
def Outside (s : Op) : Tree Op β → Prop
  | pre p _ => ¬ p.right ≤ s.left
  | inf p _ _ => ¬ p.right ≤ s.left
  | _ => True

/-- Every suffix node is placed by precedence. -/
def Placed : Tree Op β → Prop
  | hole => True
  | leaf _ => True
  | pre o x => (∀ s ∈ edgeSuffixes x, ¬ s.left < o.right) ∧ Placed x
  | suf s x => Outside s x ∧ Placed x
  | inf o l r => (∀ s ∈ edgeSuffixes r, ¬ s.left < o.right) ∧ Placed l ∧ Placed r
  | grp _ x => Placed x

/-- The operators above the node `d` steps down the right edge. -/
def above : ℕ → Tree Op β → List Op
  | d + 1, pre o x => o :: above d x
  | d + 1, inf o _ r => o :: above d r
  | _, _ => []

/-- Going down prefix operators that bind less tightly, a suffix comes to one with its own power. -/
def Tie (s : Op) : Tree Op β → Prop
  | pre q x => q.right = s.left ∨ q.right < s.left ∧ Tie s x
  | _ => False

/-- A suffix applied to this node does not stop at a tie. -/
def NoTie (s : Op) : Tree Op β → Prop
  | pre p x => p.right ≤ s.left → ¬ Tie s x
  | inf p _ r => p.right ≤ s.left → ¬ Tie s r
  | _ => True

/-- The state has room for a suffix: no operator above the attachment node binds more tightly, and
there is no tie below it. -/
def Room (s : Op) (T : Tree Op β) (d : ℕ) : Prop :=
  (∀ o ∈ above d T, o.right ≤ s.left) ∧ NoTie s (edgeAt d T)

/-- Prefix operators around no infix node. -/
def Plain : Tree Op β → Prop
  | pre _ x => Plain x
  | inf _ _ _ => False
  | _ => True

/-- The last operand is prefix operators around no infix node. -/
def LastPlain : Tree Op β → Prop
  | pre _ x => Plain x
  | inf _ _ r => Plain r
  | _ => True

variable {s : Op} {t x y : Tree Op β} {d : ℕ}

/-! ## One suffix step -/

theorem mem_edgeSuffixes_drill {s' : Op} :
    s' ∈ edgeSuffixes (drill s x) ↔ s' = s ∨ s' ∈ edgeSuffixes x := by
  induction x with
  | pre q x ih =>
    unfold drill
    split_ifs
    · exact ih
    · simp [edgeSuffixes]
  | hole | leaf | suf | inf | grp => simp [drill, edgeSuffixes]

theorem mem_edgeSuffixes_suffixAt {s' : Op} :
    s' ∈ edgeSuffixes (suffixAt s t) ↔ s' = s ∨ s' ∈ edgeSuffixes t := by
  cases t with
  | pre p x | inf p l x =>
    simp only [suffixAt]
    split_ifs
    · exact mem_edgeSuffixes_drill
    · simp [edgeSuffixes]
  | hole | leaf | suf | grp => simp [suffixAt, edgeSuffixes]

theorem mem_edgeSuffixes_onEdge {s' : Op} (h : OnEdge d t) :
    s' ∈ edgeSuffixes (onEdge (suffixAt s) d t) ↔ s' = s ∨ s' ∈ edgeSuffixes t := by
  induction d generalizing t with
  | zero => exact mem_edgeSuffixes_suffixAt
  | succ d ih =>
    cases t with
    | pre o x => exact ih h
    | inf o l r => exact ih h
    | hole | leaf | suf | grp => exact h.elim

/-- The suffixes below an operator that binds no more tightly stay in bounds when one is drilled in. -/
theorem bound_drill {q : Op} (hle : q.right ≤ s.left)
    (h : ∀ s' ∈ edgeSuffixes x, ¬ s'.left < q.right) :
    ∀ s' ∈ edgeSuffixes (drill s x), ¬ s'.left < q.right := by
  intro s' hs'
  obtain rfl | hs' := mem_edgeSuffixes_drill.1 hs'
  · exact hle.not_gt
  · exact h s' hs'

/-- The suffixes below an operator stay in bounds exactly when the new one is. -/
theorem bound_onEdge {o : Op} (hd : OnEdge d t) (h : ∀ s' ∈ edgeSuffixes t, ¬ s'.left < o.right) :
    (∀ s' ∈ edgeSuffixes (onEdge (suffixAt s) d t), ¬ s'.left < o.right) ↔ o.right ≤ s.left := by
  simp only [mem_edgeSuffixes_onEdge hd, not_lt]
  constructor
  · exact fun h' => h' s (Or.inl rfl)
  · rintro hle s' (rfl | hs')
    · exact hle
    · exact not_lt.1 (h s' hs')

/-- A drilled suffix is placed unless it stopped at a tie. -/
theorem placed_drill (hx : Placed x) (hp : Plain x) : Placed (drill s x) ↔ ¬ Tie s x := by
  induction x with
  | pre q x ih =>
    unfold drill
    split_ifs with hlt
    · simp only [Placed, Tie, ih hx.2 hp, hlt.ne, hlt, false_or, true_and]
      exact and_iff_right (bound_drill hlt.le hx.1)
    · have htie : Tie s (pre q x) ↔ q.right = s.left := by simp [Tie, hlt]
      rw [htie]
      exact ⟨fun h e => h.1 e.le, fun h => ⟨fun hle => h (le_antisymm hle (not_lt.1 hlt)), hx⟩⟩
  | inf => exact hp.elim
  | hole | leaf => simp [drill, Placed, Tie, Outside]
  | suf | grp => simpa [drill, Placed, Tie, Outside] using hx

/-- A suffix applied to a placed node is placed in it exactly when there is no tie. -/
theorem placed_suffixAt (ht : Placed t) (hp : LastPlain t) :
    Placed (suffixAt s t) ↔ NoTie s t := by
  cases t with
  | pre p x =>
    simp only [suffixAt, NoTie]
    split_ifs with hle
    · simp only [Placed, placed_drill ht.2 hp, hle, true_imp_iff]
      exact and_iff_right (bound_drill hle ht.1)
    · simpa [Placed, Outside, hle] using ht
  | inf p l r =>
    simp only [suffixAt, NoTie]
    split_ifs with hle
    · simp only [Placed, placed_drill ht.2.2 hp, hle, true_imp_iff]
      exact ⟨fun h => h.2.2, fun h => ⟨bound_drill hle ht.1, ht.2.1, h⟩⟩
    · simpa [Placed, Outside, hle] using ht
  | hole | leaf => simp [suffixAt, Placed, NoTie, Outside]
  | suf | grp => simpa [suffixAt, Placed, NoTie, Outside] using ht

/-- One suffix step keeps the tree placed exactly when there is room. -/
theorem placed_onEdge (ht : Placed t) (hd : OnEdge d t) (hp : LastPlain (edgeAt d t)) :
    Placed (onEdge (suffixAt s) d t) ↔ Room s t d := by
  induction d generalizing t with
  | zero =>
    have h0 : Room s t 0 ↔ NoTie s t := by simp [Room, above, edgeAt]
    exact (placed_suffixAt ht hp).trans h0.symm
  | succ d ih =>
    cases t with
    | pre o x =>
      have hx := ih ht.2 hd hp
      have hb : _ ↔ o.right ≤ s.left := bound_onEdge (t := x) hd ht.1
      simp only [onEdge, Placed, hb, hx, Room, above, List.forall_mem_cons, edgeAt, and_assoc]
    | inf o l r =>
      have hr := ih ht.2.2 hd hp
      have hb : _ ↔ o.right ≤ s.left := bound_onEdge (t := r) hd ht.1
      simp only [onEdge, Placed, hb, hr, Room, above, List.forall_mem_cons, edgeAt, and_assoc,
        ht.2.1, true_and]
    | hole | leaf | suf | grp => exact hd.elim

/-! ## One infix step -/

/-- There is no suffix on the right edge while an operand is due. -/
theorem edgeSuffixes_of_open (h : Open t) : edgeSuffixes t = [] := by
  induction t with
  | hole => rfl
  | pre o x ih => exact ih h
  | inf o l r _ ih => exact ih h.2
  | leaf | suf | grp => exact h.elim

theorem placed_attach {o : Op} (ht : Placed t) (hc : Complete t) : Placed (attach o t) := by
  induction t with
  | hole => exact hc.elim
  | pre p x ih =>
    unfold attach
    split_ifs
    · have hx : Open (attach o x) := open_attach o hc
      exact ⟨by simp [edgeSuffixes_of_open hx], ih ht.2 hc⟩
    · exact ⟨by simp [edgeSuffixes], ht, trivial⟩
  | inf p l r _ ih =>
    unfold attach
    split_ifs
    · have hr : Open (attach o r) := open_attach o hc.2
      exact ⟨by simp [edgeSuffixes_of_open hr], ht.2.1, ih ht.2.2 hc.2⟩
    · exact ⟨by simp [edgeSuffixes], ht, trivial⟩
  | leaf | suf | grp => exact ⟨by simp [edgeSuffixes], ht, trivial⟩

theorem edgeSuffixes_fill (ht : Open t) : edgeSuffixes (fill y t) = edgeSuffixes y := by
  induction t with
  | hole => rfl
  | pre o x ih => exact ih ht
  | inf o l r _ ih => exact ih ht.2
  | leaf | suf | grp => exact ht.elim

theorem placed_fill (hopen : Open t) (ht : Placed t) (hy : Placed y) (hs : edgeSuffixes y = []) :
    Placed (fill y t) := by
  induction t with
  | hole => exact hy
  | pre o x ih =>
    have hx : Open x := hopen
    exact ⟨by simp [edgeSuffixes_fill hx, hs], ih hx ht.2⟩
  | inf o l r _ ih =>
    have hr : Open r := hopen.2
    exact ⟨by simp [edgeSuffixes_fill hr, hs], ht.2.1, ih hr ht.2.2⟩
  | leaf | suf | grp => exact hopen.elim

theorem plain_fill_attach {o : Op} (hy : Plain y) :
    LastPlain (edgeAt (attachDepth o t) (fill y (attach o t))) := by
  obtain ⟨l, hl⟩ := edgeAt_attach o t
  rw [edgeAt_fill (onEdge_attach o t), hl]
  exact hy

/-! ## Whole runs -/

namespace Seq

variable {e : Seq α} {ps : List Op} {a : α}

theorem placed_operand : Placed (operand ps a) ∧ edgeSuffixes (operand ps a) = [] := by
  induction ps with
  | nil => exact ⟨trivial, rfl⟩
  | cons p ps ih => exact ⟨⟨by simp [operand, prefixes] at ih ⊢; simp [ih], ih.1⟩, ih.2⟩

theorem plain_operand : Plain (operand ps a) := by
  induction ps with
  | nil => trivial
  | cons p ps ih => exact ih

theorem plain_drill (hx : Plain x) : Plain (drill s x) := by
  induction x with
  | pre q x ih =>
    unfold drill
    split_ifs
    · exact ih hx
    · trivial
  | hole | leaf | suf | inf | grp => trivial

theorem lastPlain_suffixAt (ht : LastPlain t) : LastPlain (suffixAt s t) := by
  cases t with
  | pre p x =>
    simp only [suffixAt]
    split_ifs
    · exact plain_drill (x := x) ht
    · trivial
  | inf p l r =>
    simp only [suffixAt]
    split_ifs
    · exact plain_drill (x := r) ht
    · trivial
  | hole | leaf | suf | grp => trivial

/-- The last operand of the attachment node is prefix operators around no infix node. -/
theorem lastPlain_depth (e : Seq α) : LastPlain (edgeAt (depth e) (tree e)) := by
  induction e with
  | lead ps a =>
    cases ps with
    | nil => trivial
    | cons p ps =>
      have hplain : Plain (operand ps a) := plain_operand
      exact hplain
  | more e o ps a _ => exact plain_fill_attach plain_operand
  | suffixed e s ih =>
    rw [tree_suffixed, depth_suffixed, edgeAt_onEdge e.onEdge_depth]
    exact lastPlain_suffixAt ih

/-- The first tokens of a sequence, up to an operand or a suffix operator. -/
def Init (e' : Seq α) : Seq α → Prop
  | lead ps a => e' = lead ps a
  | more e o ps a => e' = more e o ps a ∨ Init e' e
  | suffixed e s => e' = suffixed e s ∨ Init e' e

/-- At every suffix operator of the sequence, the state before it has room for it. -/
def Roomy : Seq α → Prop
  | lead _ _ => True
  | more e _ _ _ => Roomy e
  | suffixed e s => Roomy e ∧ Room s (tree e) (depth e)

theorem kinded_init {e' : Seq α} (h : Init e' e) (hk : e.Kinded) : e'.Kinded := by
  induction e with
  | lead ps a => exact h ▸ hk
  | more e o ps a ih =>
    obtain rfl | h := h
    · exact hk
    · exact ih h hk.1
  | suffixed e s ih =>
    obtain rfl | h := h
    · exact hk
    · exact ih h hk.1

theorem init_refl (e : Seq α) : Init e e := by
  cases e with
  | lead ps a => rfl
  | more | suffixed => exact Or.inl rfl

/-- Every state of a run is placed exactly when every suffix operator had room. -/
theorem placed_inits_iff (e : Seq α) : (∀ e', Init e' e → Placed (tree e')) ↔ e.Roomy := by
  induction e with
  | lead ps a => exact iff_of_true (fun e' h => h ▸ placed_operand.1) trivial
  | more e o ps a ih =>
    rw [Roomy, ← ih]
    refine ⟨fun h e' he' => h e' (Or.inr he'), fun h e' he' => ?_⟩
    obtain rfl | he' := he'
    · exact placed_fill (open_attach o e.complete_tree)
        (placed_attach (h e (init_refl e)) e.complete_tree) placed_operand.1 placed_operand.2
    · exact h e' he'
  | suffixed e s ih =>
    have step (ht : Placed (tree e)) : Placed (tree (suffixed e s)) ↔ Room s (tree e) (depth e) :=
      placed_onEdge ht e.onEdge_depth e.lastPlain_depth
    rw [Roomy, ← ih]
    constructor
    · intro h
      have he : ∀ e', Init e' e → Placed (tree e') := fun e' he' => h e' (Or.inr he')
      exact ⟨he, (step (he e (init_refl e))).1 (h _ (Or.inl rfl))⟩
    · rintro ⟨h, hroom⟩ e' (rfl | he')
      · exact (step (h e (init_refl e))).2 hroom
      · exact h e' he'

end Seq

/-- In both ports, every tree a run goes through has its suffix nodes placed by precedence exactly
when the state before each suffix operator has room for it. -/
theorem run_placed_iff (lang : Lang) (s : (lang.port (α := α)).State) {e : Seq α}
    (hk : e.Kinded) :
    (∀ e', Seq.Init e' e → ∃ r T, Run.run e'.text (Run.start s) = some r ∧
      Ts.treeOf (lang.port.heap r.store) r.root = some T ∧ Placed T) ↔ e.Roomy := by
  rw [← Seq.placed_inits_iff]
  refine forall₂_congr fun e' he' => ?_
  have hk' := Seq.kinded_init he' hk
  obtain ⟨r, t, hr, h⟩ := run_text s hk'
  have hread := h.treeOf hk'
  constructor
  · rintro ⟨r', T, hr', hT, hplaced⟩
    obtain rfl : r = r' := Option.some.inj (hr.symm.trans hr')
    obtain rfl : e'.tree = T := Option.some.inj (hread.symm.trans hT)
    exact hplaced
  · exact fun hplaced => ⟨r, _, hr, hread, hplaced⟩

/-- A suffix operator that binds less tightly than addition. -/
def question : Op := ⟨"question-suffix", "?", .suffixOp, 1500000, maxSafeInteger⟩

/-- `1+2?`: the attachment node is the root, so the loose suffix goes around the sum. -/
theorem run_placed_iff_default :
    Seq.Roomy (.suffixed (.more (.lead [] 1) addition [] 2) question) ∧
    ∀ e', Seq.Init e' (.suffixed (.more (.lead [] 1) addition [] 2) question) →
      ∃ r T, Run.run e'.text (Run.start Lang.typescript.start) = some r ∧
        Ts.treeOf (Lang.typescript.port.heap r.store) r.root = some T ∧ Placed T := by
  have hroomy : Seq.Roomy (.suffixed (.more (.lead [] 1) addition [] 2) question) := by
    refine ⟨trivial, ?_, ?_⟩
    all_goals simp [addition, infixDef, question, Seq.tree, Seq.build, Seq.operand, prefixes,
      attach, attachDepth, Seq.depth, fill, edgeAt, above, NoTie]
  refine ⟨hroomy, (run_placed_iff .typescript Lang.typescript.start ?_).2 hroomy⟩
  simp [Seq.Kinded, addition, infixDef, question]

/-- `1+2*3?`: the attachment node is the product, so the loose suffix stays inside the sum. -/
theorem loose_suffix_not_placed :
    (∃ r T, Run.run (Seq.text (.suffixed (.more (.more (.lead [] 1) addition [] 2) multiplication []
        3) question)) (Run.start Lang.typescript.start) = some r ∧
      Ts.treeOf (Lang.typescript.port.heap r.store) r.root = some T ∧ ¬ Placed T) ∧
    ∃ r T, Run.run (Seq.text (.suffixed (.more (.more (.lead [] 1) addition [] 2) multiplication []
        3) question)) (Run.start Lang.rust.start) = some r ∧
      Ts.treeOf (Lang.rust.port.heap r.store) r.root = some T ∧ ¬ Placed T := by
  have hk : Seq.Kinded (.suffixed (.more (.more (.lead [] 1) addition [] 2) multiplication [] 3)
      question) := by
    simp [Seq.Kinded, addition, multiplication, infixDef, question]
  have htree : Seq.tree (.suffixed (.more (.more (.lead [] 1) addition [] 2) multiplication [] 3)
      question) = inf addition (leaf (.atom 1)) (suf question (inf multiplication (leaf (.atom 2))
        (leaf (.atom 3)))) := rfl
  have hnot : ¬ Placed (Seq.tree (.suffixed (.more (.more (.lead [] 1) addition [] 2)
      multiplication [] 3) question)) := by
    rw [htree]
    exact fun h => h.1 question (by simp [edgeSuffixes]) (by decide)
  obtain ⟨r, t, hr, h⟩ := run_text Lang.typescript.start hk
  obtain ⟨r', t', hr', h'⟩ := run_text Lang.rust.start hk
  exact ⟨⟨r, _, hr, h.treeOf hk, hnot⟩, r', _, hr', h'.treeOf hk, hnot⟩

end TabnasExpr
