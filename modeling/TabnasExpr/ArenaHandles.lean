import Mathlib.Data.Nat.Size
import TabnasExpr.Rust.Thread

/-!
# Handles across parses

A handle carries the number of its node as a double, and can outlive the parse it was made in.  A
session is a thread with what happened on it: how many guards are held, which event stored the node that
stands under a number, and which handles were issued when.  Below `2 ^ 53` a handle resolves to the
node it was made for or to nothing, and to its node for as long as the guard it was made under, or one
around that, is held.
-/

namespace TabnasExpr.Rust

open OpTree

variable {α : Type*}

/-- The double next to a number, a tie going to the even one (`id as f64`). -/
def asF64 (n : ℕ) : ℕ :=
  let unit := 2 ^ (n.size - 53)
  let low := n / unit
  if unit < 2 * (n % unit) ∨ unit = 2 * (n % unit) ∧ low % 2 = 1 then (low + 1) * unit
  else low * unit

theorem asF64_of_lt {n : ℕ} (h : n < 2 ^ 53) : asF64 n = n := by
  have hsize : n.size - 53 = 0 := Nat.sub_eq_zero_of_le (Nat.size_le.2 h)
  simp [asF64, hsize, Nat.mod_one]

/-- A handle, the event that issued it, and how often the outermost guard had dropped by then, if a
guard was held. -/
structure Issue where
  handle : ℕ
  event : ℕ
  guarded : Option ℕ
  deriving DecidableEq

/-- A thread and what happened on it. -/
structure Session (α : Type*) where
  thread : Thread α
  /-- The guards that are held. -/
  guards : ℕ
  /-- The number of events so far. -/
  clock : ℕ
  /-- How often the outermost guard dropped. -/
  drops : ℕ
  /-- The event that stored the node under a number. -/
  born : ℕ → ℕ
  issued : List Issue

/-- What happens on a thread. -/
inductive ThreadEvent (α : Type*) where
  | enter
  | drop
  /-- The start of a parse, by an entry point or by a caller that drives the engine. -/
  | parse
  | op (o : NodeOp α)
  deriving DecidableEq

namespace Session

variable {s s' : Session α}

/-- The session of a thread on which nothing has happened. -/
def start : Session α := ⟨⟨emptyArena, 0⟩, 0, 0, 0, fun _ => 0, []⟩

/-- The handles of the nodes with these numbers, issued now. -/
def issues (s : Session α) (ids : List ℕ) : List Issue :=
  ids.map fun i => ⟨asF64 i, s.clock, if s.guards = 0 then none else some s.drops⟩

/-- A guard drops only where one is held. -/
def step (s : Session α) : ThreadEvent α → Option (Session α)
  | .enter =>
    some { s with thread := enterGuard s.thread, guards := s.guards + 1, clock := s.clock + 1 }
  | .drop =>
    if s.guards = 0 then none
    else some { s with
      thread := dropGuard s.thread
      guards := s.guards - 1
      clock := s.clock + 1
      drops := if s.guards = 1 then s.drops + 1 else s.drops }
  | .parse => some { s with thread := releaseArena s.thread, clock := s.clock + 1 }
  | .op o => (o.run s.thread.arena).map fun a => { s with
      thread := { s.thread with arena := a }
      clock := s.clock + 1
      born := fun i => if s.thread.arena.nodes.last < i then s.clock else s.born i
      issued := s.issued ++ s.issues
        ((List.range (a.nodes.last - s.thread.arena.nodes.last)).map
          (s.thread.arena.nodes.last + 1 + ·)) }

/-- The node a handle resolves to, with the event that stored it. -/
def resolve (s : Session α) (handle : ℕ) : Option (ExprNode α × ℕ) :=
  (s.thread.arena.nodes.cell handle).map fun n => (n, s.born handle)

/-- The sessions of a thread. -/
inductive Reached : Session α → Prop
  | start : Reached start
  | step {s s' : Session α} {e : ThreadEvent α} (h : Reached s) (hs : s.step e = some s') : Reached s'

/-- The session after a list of events. -/
def runAll (s : Session α) : List (ThreadEvent α) → Option (Session α)
  | [] => some s
  | e :: es => (s.step e).bind fun s => runAll s es

theorem Reached.runAll {es : List (ThreadEvent α)} (h : Reached s) (hs : s.runAll es = some s') :
    Reached s' := by
  induction es generalizing s with
  | nil =>
    cases hs
    exact h
  | cons e es ih =>
    obtain ⟨s₁, h₁, hs⟩ := Option.bind_eq_some_iff.1 hs
    exact ih (h.step h₁) hs

/-- A handle has the number of a node that was stored when the handle was issued, and the node is
there while the guard that was held then, or one around it, is held. -/
structure Kept (s : Session α) (x : Issue) (i : ℕ) : Prop where
  handle : x.handle = asF64 i
  last : i ≤ s.thread.arena.nodes.last
  born : s.born i = x.event
  drops : ∀ k ∈ x.guarded, k ≤ s.drops
  held : x.guarded = some s.drops → 0 < s.guards ∧ s.thread.arena.nodes.cell i ≠ none

structure Sound (s : Session α) : Prop where
  active : s.thread.active = s.guards
  kept : ∀ x ∈ s.issued, ∃ i, Kept s x i

theorem sound_start : Sound (start : Session α) := ⟨rfl, fun x hx => by cases hx⟩

/-- A thread whose arena is cleared only when no guard is held keeps what was issued. -/
theorem Kept.enter {x : Issue} {i : ℕ} (h : Kept s x i) :
    Kept
      { s with thread := enterGuard s.thread, guards := s.guards + 1, clock := s.clock + 1 } x i where
  handle := h.handle
  last := h.last
  born := h.born
  drops := h.drops
  held := fun hk => ⟨Nat.succ_pos _, (h.held hk).2⟩

theorem last_dropGuard (t : Thread α) : (dropGuard t).arena.nodes.last = t.arena.nodes.last := by
  unfold dropGuard
  split_ifs <;> rfl

theorem last_releaseArena (t : Thread α) :
    (releaseArena t).arena.nodes.last = t.arena.nodes.last := by
  unfold releaseArena
  split_ifs <;> rfl

theorem sound_drop (h : Sound s) (hg : s.guards ≠ 0) :
    Sound { s with
      thread := dropGuard s.thread
      guards := s.guards - 1
      clock := s.clock + 1
      drops := if s.guards = 1 then s.drops + 1 else s.drops } := by
  refine ⟨?_, fun x hx => ?_⟩
  · have := h.active
    unfold dropGuard
    split_ifs <;> simp [this]
  · obtain ⟨i, hi⟩ := h.kept x hx
    refine ⟨i, hi.handle, (last_dropGuard _).symm ▸ hi.last, hi.born, fun k hk => ?_, fun hk => ?_⟩
    · have := hi.drops k hk
      dsimp only
      split_ifs <;> omega
    · have hd := hi.drops _ hk
      by_cases hone : s.guards = 1
      · simp only [hone, if_true] at hd
        omega
      · simp only [if_neg hone] at hk
        have hopen : dropGuard s.thread = ⟨s.thread.arena, s.thread.active - 1⟩ :=
          if_neg (by have := h.active; omega)
        refine ⟨by dsimp only; omega, ?_⟩
        dsimp only
        rw [hopen]
        exact (hi.held hk).2

theorem sound_parse (h : Sound s) :
    Sound { s with thread := releaseArena s.thread, clock := s.clock + 1 } := by
  refine ⟨?_, fun x hx => ?_⟩
  · have := h.active
    unfold releaseArena
    split_ifs <;> exact this
  · obtain ⟨i, hi⟩ := h.kept x hx
    refine ⟨i, hi.handle, (last_releaseArena _).symm ▸ hi.last, hi.born, hi.drops, fun hk => ?_⟩
    obtain ⟨hg, hcell⟩ := hi.held hk
    have hopen : releaseArena s.thread = s.thread := if_neg (by have := h.active; omega)
    refine ⟨hg, ?_⟩
    dsimp only
    rw [hopen]
    exact hcell

theorem sound_op (h : Sound s) {o : NodeOp α} {a : Arena α} (ha : o.run s.thread.arena = some a) :
    Sound { s with
      thread := { s.thread with arena := a }
      clock := s.clock + 1
      born := fun i => if s.thread.arena.nodes.last < i then s.clock else s.born i
      issued := s.issued ++ s.issues
        ((List.range (a.nodes.last - s.thread.arena.nodes.last)).map
          (s.thread.arena.nodes.last + 1 + ·)) } := by
  have hext := NodeOp.extends ha
  refine ⟨h.active, fun x hx => ?_⟩
  rcases List.mem_append.1 hx with hx | hx
  · obtain ⟨i, hi⟩ := h.kept x hx
    refine ⟨i, hi.handle, hi.last.trans hext.last, ?_, hi.drops, fun hk => ?_⟩
    · dsimp only
      rw [if_neg (not_lt.2 hi.last), hi.born]
    · obtain ⟨hg, hcell⟩ := hi.held hk
      exact ⟨hg, hext.kept i hcell⟩
  · rcases List.mem_map.1 hx with ⟨i, hi, rfl⟩
    rcases List.mem_map.1 hi with ⟨k, hk, rfl⟩
    rw [List.mem_range] at hk
    refine ⟨s.thread.arena.nodes.last + 1 + k, rfl, by dsimp only; omega, ?_, fun d hd => ?_,
      fun hd => ?_⟩
    · dsimp only
      rw [if_pos (by omega)]
    · dsimp only at hd ⊢
      split_ifs at hd with hg
      · cases hd
      · cases hd
        exact le_rfl
    · dsimp only at hd ⊢
      split_ifs at hd with hg
      exact ⟨Nat.pos_of_ne_zero hg, hext.more _ (by omega) (by omega)⟩

theorem Sound.step {e : ThreadEvent α} (h : Sound s) (hs : s.step e = some s') : Sound s' := by
  cases e with
  | enter =>
    cases hs
    refine ⟨congrArg (· + 1) h.active, fun x hx => ?_⟩
    obtain ⟨i, hi⟩ := h.kept x hx
    exact ⟨i, hi.enter⟩
  | drop =>
    rw [Session.step] at hs
    by_cases hg : s.guards = 0
    · rw [if_pos hg] at hs
      cases hs
    · rw [if_neg hg] at hs
      cases hs
      exact sound_drop h hg
  | parse =>
    cases hs
    exact sound_parse h
  | op o =>
    obtain ⟨a, ha, rfl⟩ := Option.map_eq_some_iff.1 hs
    exact sound_op h ha

theorem Reached.sound (h : Reached s) : Sound s := by
  induction h with
  | start => exact sound_start
  | step _ hs ih => exact ih.step hs

/-- On a thread that has issued fewer than `2 ^ 53` nodes every handle resolves to the node it was
issued for or to nothing, a handle issued under a guard resolves until the outermost guard drops, and
the counter of active parses is the number of guards held. -/
theorem handles_safe (h : Reached s) (hfew : s.thread.arena.nodes.last < 2 ^ 53) :
    (∀ x ∈ s.issued, (∀ r ∈ s.resolve x.handle, r.2 = x.event) ∧
      (x.guarded = some s.drops → s.resolve x.handle ≠ none)) ∧ s.thread.active = s.guards := by
  have hsound := h.sound
  refine ⟨fun x hx => ?_, hsound.active⟩
  obtain ⟨i, hi⟩ := hsound.kept x hx
  have hhandle : x.handle = i := hi.handle.trans (asF64_of_lt (hi.last.trans_lt hfew))
  rw [hhandle]
  refine ⟨fun r hr => ?_, fun hk => ?_⟩
  · obtain ⟨n, -, rfl⟩ := Option.map_eq_some_iff.1 hr
    exact hi.born
  · rw [resolve, ne_eq, Option.map_eq_none_iff]
    exact (hi.held hk).2

/-- A parse in a guard, one that is driven inside it, and one that is driven after it. -/
def nestedParses : List (ThreadEvent ℕ) :=
  [.enter, .parse, .op (.newNodeUnder none [] none), .parse, .op (.newNodeUnder none [.node 1] none),
    .drop, .parse, .op (.newNodeUnder none [] none)]

theorem handles_safe_nestedParses : ∃ s ∈ start.runAll nestedParses,
    (∀ x ∈ s.issued, (∀ r ∈ s.resolve x.handle, r.2 = x.event) ∧
      (x.guarded = some s.drops → s.resolve x.handle ≠ none)) ∧ s.thread.active = s.guards := by
  have hrun : ∃ s ∈ start.runAll nestedParses, s.thread.arena.nodes.last < 2 ^ 53 := by
    decide +kernel
  obtain ⟨s, hs, hfew⟩ := hrun
  exact ⟨s, hs, handles_safe (Reached.start.runAll hs) hfew⟩

end Session

end TabnasExpr.Rust
