import TabnasExpr.DepthBudget
import TabnasExpr.Rust.Thread

/-!
# Which parse is over the limit

One flag of a thread says that an expression has outgrown `NODE_LIMIT`, and the budget check of every
parse reads it.  Parses nest: an evaluator, or the closure of `parse_scope`, can start a parse of its
own.  A nest is a thread with the guards that are held and the parses that run, the innermost first;
each parse is marked when an operation of its own records an expression past the limit.  A guard that is
entered resets the flag for the parses around it, and an overflow of a nested parse is left to them.
-/

namespace TabnasExpr.Rust

open OpTree

variable {α : Type*} {a a' a'' : Arena α} {v t : Val α}

/-! ## Recorded sizes -/

/-- Every node belongs to an expression that is counted. -/
def Rooted (a : Arena α) : Prop := ∀ v R, rootId a v = some R → 0 < size a R

/-- An expression has grown, and is past the limit. -/
def Outgrows (a a' : Arena α) : Prop := ∃ i, size a i < size a' i ∧ NODE_LIMIT < size a' i

/-- Expressions only grow, and the flag is set for those that outgrow the limit. -/
structure Tracks (a a' : Arena α) : Prop where
  rooted : Rooted a'
  size_le : ∀ i, size a i ≤ size a' i
  overLimit : a'.overLimit = true ↔ a.overLimit = true ∨ Outgrows a a'

theorem rooted_emptyArena : Rooted (emptyArena : Arena α) := by
  intro v R h
  cases v <;> cases h

theorem rooted_clear (a : Arena α) : Rooted a.clear := by
  intro v R h
  cases v <;> cases h

theorem Tracks.refl (h : Rooted a) : Tracks a a where
  rooted := h
  size_le _ := le_rfl
  overLimit := by simp [Outgrows]

theorem Tracks.trans (h : Tracks a a') (h' : Tracks a' a'') : Tracks a a'' where
  rooted := h'.rooted
  size_le i := (h.size_le i).trans (h'.size_le i)
  overLimit := by
    rw [h'.overLimit, h.overLimit, or_assoc]
    refine or_congr_right ⟨?_, ?_⟩
    · rintro (⟨i, hlt, hover⟩ | ⟨i, hlt, hover⟩)
      · exact ⟨i, hlt.trans_le (h'.size_le i), hover.trans_le (h'.size_le i)⟩
      · exact ⟨i, (h.size_le i).trans_lt hlt, hover⟩
    · rintro ⟨i, hlt, hover⟩
      -- It has grown in the second step, or else all of it in the first.
      rcases (h'.size_le i).lt_or_eq with hlt' | heq
      · exact Or.inr ⟨i, hlt', hover⟩
      · exact Or.inl ⟨i, heq ▸ hlt, heq ▸ hover⟩

/-- What is written to a node leaves its root and its count alone. -/
theorem tracks_withNodeMut (h : Rooted a) {write : ExprNode α → ExprNode α}
    (hroot : ∀ n, (write n).root = n.root) (hsize : ∀ n, (write n).size = n.size) :
    Tracks a (withNodeMut a v write) := by
  have hcell (i : ℕ) : ∃ f : ExprNode α → ExprNode α, (∀ n, (f n).root = n.root ∧ (f n).size = n.size) ∧
      (withNodeMut a v write).nodes.cell i = (a.nodes.cell i).map f := by
    unfold withNodeMut
    split
    · next j _ =>
      by_cases hij : i = j
      · subst hij
        exact ⟨write, fun n => ⟨hroot n, hsize n⟩, Store.cell_modify_self write⟩
      · exact ⟨id, fun n => ⟨rfl, rfl⟩, by rw [Option.map_id]; exact Store.cell_modify_of_ne write hij⟩
    · exact ⟨id, fun n => ⟨rfl, rfl⟩, by rw [Option.map_id]; rfl⟩
  have hsizes (i : ℕ) : size (withNodeMut a v write) i = size a i := by
    obtain ⟨f, hf, hi⟩ := hcell i
    rw [size, size, hi, Option.map_map]
    congr 2
    exact funext fun n => (hf n).2
  refine ⟨fun w R hR => ?_, fun i => (hsizes i).ge, ?_⟩
  · rw [hsizes]
    refine h w R ?_
    cases w with
    | undefined | atom => cases hR
    | node i =>
      obtain ⟨f, hf, hi⟩ := hcell i
      rw [rootId_node, hi, Option.map_map] at hR
      rw [rootId_node, ← hR]
      congr 1
      exact funext fun n => (hf n).1.symm
  · have hflag : (withNodeMut a v write).overLimit = a.overLimit := by
      unfold withNodeMut
      split <;> rfl
    simp [hflag, Outgrows, hsizes]

theorem tracks_grow (h : Rooted a) {n : ℕ} (hn : 0 < n) : Tracks a (grow a v n) := by
  cases hv : rootId a v with
  | none =>
    have hsame : grow a v n = a := by rw [grow, hv]
    rw [hsame]
    exact .refl h
  | some R =>
    obtain ⟨c, hc⟩ : ∃ c, a.nodes.cell R = some c := by
      refine Option.ne_none_iff_exists'.1 fun hnone => ?_
      have hpos := h v R hv
      rw [size_of_rootId_eq_none (rootId_eq_none.2 hnone)] at hpos
      exact hpos.false
    have hsize (i : ℕ) : size (grow a v n) i = size a i + if R = i then n else 0 := by
      rw [size, size, cell_grow, hv]
      simp only [Option.some.injEq]
      by_cases hi : R = i
      · simp [← hi, hc]
      · cases hci : a.nodes.cell i <;> simp [hi]
    have hflag : (grow a v n).overLimit = (a.overLimit || decide (NODE_LIMIT < size a R + n)) := by
      rw [grow, hv]
      simp [hc, size]
    refine ⟨fun w S hS => ?_, fun i => ?_, ?_⟩
    · rw [rootId_grow] at hS
      rw [hsize]
      exact Nat.add_pos_left (h w S hS) _
    · rw [hsize]
      exact Nat.le_add_right _ _
    · rw [hflag, Bool.or_eq_true, decide_eq_true_iff]
      refine or_congr_right ⟨fun hover => ⟨R, ?_⟩, ?_⟩
      · rw [hsize, if_pos rfl]
        exact ⟨Nat.lt_add_of_pos_right hn, hover⟩
      · rintro ⟨i, hlt, hover⟩
        rw [hsize] at hlt hover
        split_ifs at hlt hover with hi
        · rwa [hi]
        · exact absurd hlt (Nat.lt_irrefl _)

theorem tracks_adopt (h : Rooted a) (v t : Val α) : Tracks a (adopt a v t) := by
  unfold adopt
  split
  · next into R hv ht =>
    split_ifs
    · exact .refl h
    · refine tracks_grow h ?_
      rw [expressionSize_eq ht]
      exact h t R ht
  · exact .refl h

theorem tracks_adoptAll (h : Rooted a) (v : Val α) (terms : List (Val α)) :
    Tracks a (adoptAll a v terms) := by
  unfold adoptAll
  induction terms generalizing a with
  | nil => exact .refl h
  | cons t ts ih =>
    have ht := tracks_adopt h v t
    exact ht.trans (ih ht.rooted)

/-- A new node counts one, at itself or at the expression it is built inside. -/
theorem tracks_allocate (h : Rooted a) (n : ExprNode α) (hsize : n.size = 1)
    (hroot : n.root = a.nodes.last + 1 ∨ 0 < size a n.root) : Tracks a (allocate a n) := by
  have hsizes (i : ℕ) : size (allocate a n) i = if i = a.nodes.last + 1 then 1 else size a i := by
    rw [size_allocate, hsize]
  have hmono (i : ℕ) : size a i ≤ size (allocate a n) i := by
    rw [hsizes]
    split_ifs with hi
    · rw [hi, size_next]
      exact Nat.zero_le 1
    · exact le_rfl
  refine ⟨fun w R hR => ?_, hmono, ?_⟩
  · cases w with
    | undefined | atom => cases hR
    | node i =>
      rw [rootId_allocate] at hR
      split_ifs at hR with hi
      · obtain rfl := Option.some.inj hR
        rcases hroot with hroot | hpos
        · rw [hsizes, if_pos hroot]
          exact Nat.one_pos
        · exact hpos.trans_le (hmono _)
      · exact (h _ R hR).trans_le (hmono R)
  · have hflag : (allocate a n).overLimit = a.overLimit := rfl
    rw [hflag, iff_self_or]
    rintro ⟨i, hlt, hover⟩
    rw [hsizes] at hlt hover
    split_ifs at hlt hover
    · exact absurd hover (by decide)
    · exact absurd hlt (Nat.lt_irrefl _)

theorem tracks_newNodeUnder (h : Rooted a) (op : Option Op) (terms : List (Val α))
    (under : Option (Val α)) : Tracks a (newNodeUnder a op terms under).1 := by
  have halloc : Tracks a
      (allocate a ⟨op, terms, (under.bind (rootId a)).getD (a.nodes.last + 1), 1⟩) := by
    refine tracks_allocate h _ rfl ?_
    cases hu : under.bind (rootId a) with
    | none => exact Or.inl rfl
    | some R =>
      obtain ⟨u, -, hR⟩ := Option.bind_eq_some_iff.1 hu
      exact Or.inr (h u R hR)
  simp only [newNodeUnder]
  split_ifs
  · have hgrow := halloc.trans (tracks_grow (v := .node (a.nodes.last + 1)) halloc.rooted Nat.one_pos)
    exact hgrow.trans (tracks_adoptAll hgrow.rooted _ _)
  · exact halloc.trans (tracks_adoptAll halloc.rooted _ _)

theorem tracks_updateExprNode (h : Rooted a) (v : Val α) (op : Option Op) (terms : List (Val α)) :
    Tracks a (updateExprNode a v op terms) := by
  have hadopt := tracks_adoptAll h v terms
  exact hadopt.trans (tracks_withNodeMut hadopt.rooted (fun _ => rfl) fun _ => rfl)

theorem tracks_dupNode (h : Rooted a) (v : Val α) : Tracks a (dupNode a v).1 := by
  unfold dupNode
  split
  · exact tracks_newNodeUnder h _ _ _
  · exact .refl h

theorem tracks_setTerm (h : Rooted a) (v : Val α) (k : ℕ) (t : Val α) : Tracks a (setTerm a v k t) := by
  have hadopt := tracks_adopt h v t
  exact hadopt.trans (tracks_withNodeMut hadopt.rooted (fun _ => rfl) fun _ => rfl)

theorem tracks_pushTerm (h : Rooted a) (v t : Val α) : Tracks a (pushTerm a v t) := by
  have hadopt := tracks_adopt h v t
  exact hadopt.trans (tracks_withNodeMut hadopt.rooted (fun _ => rfl) fun _ => rfl)

theorem tracks_insertOp (h : Rooted a) (v : Val α) (k : ℕ) (op : Op) (terms : List (Val α)) :
    Tracks a (insertOp a v k op terms) := by
  have hnew := tracks_newNodeUnder h (some op) terms (some v)
  exact hnew.trans (tracks_setTerm hnew.rooted _ _ _)

theorem tracks_embed (h : Rooted a) (v : Val α) (exprOp op : Op) : Tracks a (embed a v exprOp op) := by
  unfold embed
  split
  · exact .refl h
  · exact .refl h
  · split_ifs
    · have hdup := tracks_dupNode h v
      exact hdup.trans (tracks_updateExprNode hdup.rooted _ _ _)
    · exact tracks_insertOp h v _ op _
    · exact tracks_insertOp h v _ op _

theorem NodeOp.tracks {o : NodeOp α} (h : Rooted a) (ho : o.run a = some a') : Tracks a a' := by
  cases o with
  | newNodeUnder op terms under => cases ho; exact tracks_newNodeUnder h op terms under
  | updateExprNode node op terms => cases ho; exact tracks_updateExprNode h node op terms
  | dupNode node => cases ho; exact tracks_dupNode h node
  | setTerm node index value => cases ho; exact tracks_setTerm h node index value
  | pushTerm node value => cases ho; exact tracks_pushTerm h node value
  | prattify expr op =>
    obtain ⟨r, hr, rfl⟩ := Option.map_eq_some_iff.1 ho
    rw [prattifyFrom_eq hr]
    split
    · exact .refl h
    · exact tracks_embed h _ _ op

/-- No expression past the last node has grown. -/
theorem outgrows_iff : Outgrows a a' ↔ (List.range (a'.nodes.last + 1)).any fun i =>
    decide (size a i < size a' i ∧ NODE_LIMIT < size a' i) := by
  simp only [Outgrows, List.any_eq_true, List.mem_range, decide_eq_true_iff]
  refine exists_congr fun i => (and_iff_right_of_imp fun hi => ?_).symm
  by_contra hlast
  rw [size_of_rootId_eq_none (rootId_eq_none.2 (a'.nodes.fresh i (by omega)))] at hi
  exact absurd hi.1 (Nat.not_lt_zero _)

instance (a a' : Arena α) : Decidable (Outgrows a a') := decidable_of_iff' _ outgrows_iff

/-- An operation takes the recorded size of an expression past the limit. -/
def NodeOp.exceeds (a : Arena α) (o : NodeOp α) : Bool :=
  (o.run a).any fun a' => decide (Outgrows a a')

/-- The flag after an operation: it was set before, or the operation sets it. -/
theorem overLimit_of_run {o : NodeOp α} (h : Rooted a) (ho : o.run a = some a') :
    a'.overLimit = (o.exceeds a || a.overLimit) := by
  rw [Bool.eq_iff_iff, (NodeOp.tracks h ho).overLimit, NodeOp.exceeds, ho]
  simp [or_comm]

/-! ## Nested parses -/

/-- What is on the call stack of a thread: a guard that is held, or a parse that runs, marked when an
expression of it has outgrown the limit since it began. -/
inductive Frame where
  | guard
  | parse (exceeded : Bool)
  deriving DecidableEq

/-- A thread and its call stack, the innermost frame first. -/
structure Nest (α : Type*) where
  thread : Thread α
  frames : List Frame

/-- What happens on a thread, in the order of its calls. -/
inductive NestEvent (α : Type*) where
  /-- An entry point takes its guard. -/
  | enter
  /-- The entry point returns. -/
  | drop
  /-- A parse begins, in the guard of an entry point or driven by a caller. -/
  | begin
  /-- The innermost parse ends. -/
  | finish
  /-- An operation of the innermost parse, or of a caller that no parse runs in. -/
  | op (o : NodeOp α)
  deriving DecidableEq

/-- The innermost frame is marked, if it is a parse. -/
def mark (exceeds : Bool) : List Frame → List Frame
  | .parse exceeded :: frames => .parse (exceeds || exceeded) :: frames
  | frames => frames

/-- A parse runs. -/
def Runs (frames : List Frame) : Prop := .parse false ∈ frames ∨ .parse true ∈ frames

instance (frames : List Frame) : Decidable (Runs frames) :=
  inferInstanceAs (Decidable (_ ∨ _))

theorem runs_of_mem {exceeded : Bool} {frames : List Frame} (h : .parse exceeded ∈ frames) :
    Runs frames := by
  cases exceeded with
  | false => exact Or.inl h
  | true => exact Or.inr h

theorem Runs.cons {frames : List Frame} (h : Runs frames) (frame : Frame) : Runs (frame :: frames) :=
  h.imp (List.mem_cons_of_mem frame) (List.mem_cons_of_mem frame)

namespace Nest

variable {s s' : Nest α}

/-- A thread on which nothing has happened. -/
def start : Nest α := ⟨⟨emptyArena, 0⟩, []⟩

def step (s : Nest α) : NestEvent α → Option (Nest α)
  | .enter => some ⟨enterGuard s.thread, .guard :: s.frames⟩
  | .drop =>
    match s.frames with
    | .guard :: frames => some ⟨dropGuard s.thread, frames⟩
    | _ => none
  | .begin => some ⟨releaseArena s.thread, .parse false :: s.frames⟩
  | .finish =>
    match s.frames with
    | .parse _ :: frames => some ⟨s.thread, frames⟩
    | _ => none
  | .op o => (o.run s.thread.arena).map fun a =>
      ⟨{ s.thread with arena := a }, mark (o.exceeds s.thread.arena) s.frames⟩

/-- Nothing begins inside a parse that is over the limit, or where the flag is left set, and no
operation inside a nested parse goes over the limit. -/
def Apart (s : Nest α) : NestEvent α → Prop
  | .enter => Runs s.frames → s.thread.arena.overLimit = false
  | .begin => Runs s.frames ∨ s.thread.active ≠ 0 → s.thread.arena.overLimit = false
  | .op o => Runs s.frames.tail → o.exceeds s.thread.arena = false
  | _ => True

instance (s : Nest α) (e : NestEvent α) : Decidable (Apart s e) :=
  match e with
  | .enter => inferInstanceAs (Decidable (Runs s.frames → s.thread.arena.overLimit = false))
  | .begin => inferInstanceAs
      (Decidable (Runs s.frames ∨ s.thread.active ≠ 0 → s.thread.arena.overLimit = false))
  | .op o => inferInstanceAs
      (Decidable (Runs s.frames.tail → o.exceeds s.thread.arena = false))
  | .drop => inferInstanceAs (Decidable True)
  | .finish => inferInstanceAs (Decidable True)

/-- The nests that events of a kind lead to. -/
inductive Reached (Ok : Nest α → NestEvent α → Prop) : Nest α → Prop
  | start : Reached Ok start
  | step {s s' : Nest α} {e : NestEvent α} (h : Reached Ok s) (hok : Ok s e)
      (hs : s.step e = some s') : Reached Ok s'

/-- The nest after a list of events, each of them as it must be. -/
def runAll (Ok : Nest α → NestEvent α → Prop) [∀ s e, Decidable (Ok s e)] (s : Nest α) :
    List (NestEvent α) → Option (Nest α)
  | [] => some s
  | e :: es => if Ok s e then (s.step e).bind fun s => runAll Ok s es else none

theorem Reached.runAll {Ok : Nest α → NestEvent α → Prop} [∀ s e, Decidable (Ok s e)]
    {es : List (NestEvent α)} (h : Reached Ok s) (hs : s.runAll Ok es = some s') :
    Reached Ok s' := by
  induction es generalizing s with
  | nil =>
    cases hs
    exact h
  | cons e es ih =>
    rw [Nest.runAll] at hs
    split_ifs at hs with hok
    obtain ⟨s₁, h₁, hs⟩ := Option.bind_eq_some_iff.1 hs
    exact ih (h.step hok h₁) hs

theorem Reached.mono {Ok Ok' : Nest α → NestEvent α → Prop} (h : Reached Ok s)
    (hok : ∀ s e, Ok s e → Ok' s e) : Reached Ok' s := by
  induction h with
  | start => exact .start
  | step _ h' hs ih => exact ih.step (hok _ _ h') hs

/-- The flag is the mark of the innermost parse, and around it no parse is over the limit. -/
structure Attributed (s : Nest α) : Prop where
  rooted : Rooted s.thread.arena
  inner : ∀ exceeded frames, s.frames = .parse exceeded :: frames →
    s.thread.arena.overLimit = exceeded
  outer : ∀ frame frames, s.frames = frame :: frames → Runs frames →
    s.thread.arena.overLimit = false
  unmarked : ∀ frame frames, s.frames = frame :: frames → .parse true ∉ frames

theorem attributed_of_nil (hr : Rooted s.thread.arena) (hs : s.frames = []) : Attributed s := by
  refine ⟨hr, fun _ _ h => ?_, fun _ _ h => ?_, fun _ _ h => ?_⟩ <;>
    · rw [hs] at h
      cases h

/-- A new frame, where the flag is not set and no parse that runs is over the limit. -/
theorem Attributed.push (h : Attributed s) {t : Thread α} {frame : Frame} (hr : Rooted t.arena)
    (hquiet : Runs s.frames → s.thread.arena.overLimit = false) (hflag : t.arena.overLimit = false)
    (hframe : frame ≠ .parse true) : Attributed ⟨t, frame :: s.frames⟩ where
  rooted := hr
  inner := fun exceeded frames hs => by
    cases exceeded with
    | false => exact hflag
    | true =>
      cases hs
      exact absurd rfl hframe
  outer := fun _ _ _ _ => hflag
  unmarked := fun top rest hs hmem => by
    cases hs
    cases hf : s.frames with
    | nil =>
      rw [hf] at hmem
      cases hmem
    | cons f fs =>
      rw [hf] at hmem
      rcases List.mem_cons.1 hmem with rfl | hmem
      · have hset := h.inner true fs hf
        rw [hquiet (hf ▸ Or.inr List.mem_cons_self)] at hset
        cases hset
      · exact h.unmarked f fs hf hmem

/-- A frame is gone, and the flag is reset or as it was. -/
theorem Attributed.pop (h : Attributed s) {t : Thread α} {frame : Frame} {frames : List Frame}
    (hroot : Rooted t.arena) (hs : s.frames = frame :: frames)
    (hflag : t.arena.overLimit = false ∨ t.arena.overLimit = s.thread.arena.overLimit) :
    Attributed ⟨t, frames⟩ := by
  have hquiet : Runs frames → t.arena.overLimit = false := fun hr => by
    rcases hflag with hflag | hflag
    · exact hflag
    · rw [hflag]
      exact h.outer frame frames hs hr
  refine ⟨hroot, fun exceeded rest hrest => ?_, fun f rest hrest hr => ?_, fun f rest hrest hmem => ?_⟩
  · dsimp only at hrest
    have hmem : .parse exceeded ∈ frames := by simp [hrest]
    cases exceeded with
    | false => exact hquiet (runs_of_mem hmem)
    | true => exact absurd hmem (h.unmarked frame frames hs)
  · dsimp only at hrest
    exact hquiet (hrest ▸ hr.cons f)
  · dsimp only at hrest
    exact h.unmarked frame frames hs (hrest ▸ List.mem_cons_of_mem f hmem)

theorem Attributed.op (h : Attributed s) {o : NodeOp α} {a : Arena α}
    (hok : Apart s (.op o)) (ha : o.run s.thread.arena = some a) :
    Attributed ⟨{ s.thread with arena := a }, mark (o.exceeds s.thread.arena) s.frames⟩ := by
  have hflag := overLimit_of_run h.rooted ha
  have hrooted := (NodeOp.tracks h.rooted ha).rooted
  cases hf : s.frames with
  | nil => exact attributed_of_nil hrooted rfl
  | cons frame frames =>
    have houter : Runs frames → a.overLimit = false := fun hr => by
      have hquiet : o.exceeds s.thread.arena = false := hok (by rwa [hf])
      rw [hflag, hquiet, h.outer frame frames hf hr]
      rfl
    have hunmarked := h.unmarked frame frames hf
    cases frame with
    | guard =>
      refine ⟨hrooted, fun _ _ hs => ?_, fun _ _ hs hr => ?_, fun _ _ hs => ?_⟩
      · cases hs
      · cases hs
        exact houter hr
      · cases hs
        exact hunmarked
    | parse exceeded =>
      refine ⟨hrooted, fun _ _ hs => ?_, fun _ _ hs hr => ?_, fun _ _ hs => ?_⟩
      · cases hs
        rw [← h.inner exceeded frames hf]
        exact hflag
      · cases hs
        exact houter hr
      · cases hs
        exact hunmarked

theorem Attributed.step {e : NestEvent α} (h : Attributed s) (hok : Apart s e)
    (hs : s.step e = some s') : Attributed s' := by
  cases e with
  | enter =>
    cases hs
    exact h.push h.rooted hok rfl (by decide)
  | drop =>
    rw [Nest.step] at hs
    split at hs
    · next frames hf =>
      cases hs
      unfold dropGuard
      split_ifs
      · exact h.pop (rooted_clear _) hf (Or.inl rfl)
      · exact h.pop h.rooted hf (Or.inr rfl)
    · cases hs
  | begin =>
    cases hs
    have hquiet := fun hr => hok (Or.inl hr)
    unfold releaseArena
    split_ifs with hactive
    · exact h.push (rooted_clear _) hquiet rfl (by decide)
    · exact h.push h.rooted hquiet (hok (Or.inr hactive)) (by decide)
  | finish =>
    rw [Nest.step] at hs
    split at hs
    · next exceeded frames hf =>
      cases hs
      exact h.pop h.rooted hf (Or.inr rfl)
    · cases hs
  | op o =>
    obtain ⟨a, ha, rfl⟩ := Option.map_eq_some_iff.1 hs
    exact h.op hok ha

theorem Reached.attributed (h : Reached Apart s) : Attributed s := by
  induction h with
  | start => exact attributed_of_nil rooted_emptyArena rfl
  | step _ hok hs ih => exact ih.step hok hs

/-- The check of the innermost parse sees the flag set exactly when an expression of that parse has
outgrown the limit since it began. -/
theorem overLimit_eq_exceeded (h : Reached Apart s) {exceeded : Bool} {frames : List Frame}
    (hs : s.frames = .parse exceeded :: frames) : s.thread.arena.overLimit = exceeded :=
  h.attributed.inner exceeded frames hs

/-- The operations of an operand with a hundred and twenty-eight suffixes. -/
def overflow : List (NestEvent ℕ) :=
  .op (.newNodeUnder (some bang) [.atom 0] none) ::
    List.replicate 127 (.op (.prattify (.node 1) bang))

/-- A frame is that of a parse. -/
def Frame.isParse : Frame → Bool
  | .guard => false
  | .parse _ => true

theorem exists_overflow : ∃ s ∈ start.runAll Apart (.enter :: .begin :: overflow),
    s.frames.map Frame.isParse = [true, false] ∧ s.thread.arena.overLimit = true ∧
      s.thread.active = 1 := by
  decide +kernel

theorem frames_eq {frames : List Frame} (h : frames.map Frame.isParse = [true, false]) :
    ∃ exceeded, frames = [.parse exceeded, .guard] := by
  obtain ⟨frame, rest, rfl, hframe, hrest⟩ := List.map_eq_cons_iff.1 h
  obtain ⟨frame', rest', rfl, hframe', hrest'⟩ := List.map_eq_cons_iff.1 hrest
  obtain rfl := List.map_eq_nil_iff.1 hrest'
  cases frame with
  | guard => cases hframe
  | parse exceeded =>
    cases frame' with
    | guard => exact ⟨exceeded, rfl⟩
    | parse => cases hframe'

theorem overLimit_eq_exceeded_overflow : ∃ s ∈ start.runAll Apart (.enter :: .begin :: overflow),
    s.frames = [.parse true, .guard] ∧ s.thread.arena.overLimit = true := by
  obtain ⟨s, hs, hframes, hflag, -⟩ := exists_overflow
  obtain ⟨exceeded, hf⟩ := frames_eq hframes
  have heq := overLimit_eq_exceeded (Reached.start.runAll hs) hf
  exact ⟨s, hs, by rw [hf, ← heq, hflag], hflag⟩

/-- A parse that is nested in an overflow clears it, and a nested overflow is left to the parse around
it. -/
theorem overLimit_misattributed :
    (∃ s : Nest ℕ, Reached (fun _ _ => True) s ∧ s.frames = [.parse true, .guard] ∧
      s.thread.arena.overLimit = false) ∧
    ∃ s : Nest ℕ, Reached (fun _ _ => True) s ∧ s.frames = [.parse false, .guard] ∧
      s.thread.arena.overLimit = true := by
  constructor
  · obtain ⟨s, hs, hframes, hflag, hactive⟩ := exists_overflow
    have hreach := Reached.start.runAll hs
    obtain ⟨exceeded, hf⟩ := frames_eq hframes
    have hmark : exceeded = true := (hreach.attributed.inner exceeded _ hf).symm.trans hflag
    have hrun : s.runAll (fun _ _ => True) [.enter, .begin, .finish, .drop] =
        some ⟨dropGuard (releaseArena (enterGuard s.thread)), s.frames⟩ := rfl
    refine ⟨_, (hreach.mono fun _ _ _ => trivial).runAll hrun, by rw [hf, hmark], ?_⟩
    simp [enterGuard, releaseArena, dropGuard, hactive]
  · have hleaked : ∃ s ∈ start.runAll (fun _ _ => True)
        (.enter :: .begin :: .enter :: .begin :: overflow ++ [.finish, .drop]),
        s.frames = [.parse false, .guard] ∧ s.thread.arena.overLimit = true := by
      decide +kernel
    obtain ⟨s, hs, hleaked⟩ := hleaked
    exact ⟨s, Reached.start.runAll hs, hleaked⟩

end Nest

end TabnasExpr.Rust
