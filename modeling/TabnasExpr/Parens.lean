import Mathlib.Logic.Function.Basic
import TabnasExpr.Defaults
import TabnasExpr.Lib.Dyck

/-!
# Parens

The paren rules of a parse, one frame for each paren that is open: the rules between two of them only
hand a close token on.  A frame starts from a copy of the counters `n` around it and keeps its own
record `u`.  The close alternate tests the counters alone, so a paren can be closed by the token of a
paren around it; `matched_iff` says that this is the only way in which the parens of a parse are not
a Dyck word.
-/

namespace TabnasExpr

/-- A paren operator of the options: the key it is declared under, and its two sources. -/
structure Paren where
  key : String
  osrc : String
  csrc : String
  deriving DecidableEq, Repr

/-- Its description in the paren maps. -/
def Paren.op (p : Paren) : Op := parenDef p.key p.osrc

/-- The operators of a table are told apart by their names. -/
theorem Paren.name_eq_iff {p q : Paren} : p.op.name = q.op.name ↔ p.key = q.key := by
  simp [Paren.op, parenDef]

namespace Parens

universe u

variable {α : Type u}

/-- A counter of a rule. -/
inductive Counter where
  | exprParen
  | exprParenDepth (name : String)
  deriving DecidableEq, Repr

/-- A value of the parse: one the engine read, an implicit list, or a paren node with its terms. -/
inductive Value (α : Type u) where
  | atom (a : α)
  | list (xs : List (Value α))
  | paren (op : Op) (terms : List (Value α))

/-- A token of the source: an opening one, with whether the alternate that took it gives the value
before it to the paren, a value, or a closing one. -/
abbrev Tok (α : Type u) := Dyck.Tok (Paren × Bool) Paren α

/-- A paren rule, with the values read around it before it was opened. -/
structure Frame (α : Type u) where
  opener : Paren
  n : Counter → ℕ
  u : Counter → ℕ
  preval : Bool
  outer : List (Value α)

/-- The values read in the innermost paren, and the parens open around them, innermost first. -/
structure State (α : Type u) where
  items : List (Value α)
  frames : List (Frame α)

/-- The counters of the rules inside the innermost paren. -/
def counters : List (Frame α) → Counter → ℕ
  | [] => fun _ => 0
  | f :: _ => f.n

/-- The open alternate and its action `openParen`. -/
def openParen (p : Paren) (preval : Bool) (s : State α) : State α :=
  let depth := Counter.exprParenDepth p.op.name
  let n := Function.update (counters s.frames) .exprParen (counters s.frames .exprParen + 1)
  { items := []
    frames := ⟨p, Function.update n depth 1, Function.update (fun _ => 0) depth 1, preval, s.items⟩ ::
      s.frames }

/-- The value of the child of a paren: several values are an implicit list. -/
def content : List (Value α) → Option (Value α)
  | [] => none
  | [x] => some x
  | xs => some (.list xs)

/-- The value before a paren, when the paren takes it. -/
def prevalTerm (preval : Bool) (outer : List (Value α)) : List (Value α) :=
  if preval then outer.getLast?.toList else []

/-- The values before a paren that it does not take. -/
def beforeParen (preval : Bool) (outer : List (Value α)) : List (Value α) :=
  if preval then outer.dropLast else outer

/-- A completed paren expression. -/
def parenNode (p : Paren) (preval : Bool) (outer items : List (Value α)) : Value α :=
  .paren p.op (prevalTerm preval outer ++ (content items).toList)

/-- The action `closeParen`.  The Go port makes a node whatever opened the paren. -/
def closeParen (lang : Language) (p : Paren) (f : Frame α) (items : List (Value α)) :
    Option (Value α) :=
  let depth := Counter.exprParenDepth p.op.name
  match lang with
  | .go => some (parenNode p f.preval f.outer items)
  | .typescript | .rust =>
    if f.u depth = f.n depth then some (parenNode p f.preval f.outer items) else content items

/-- The alternates that lead to the close of the innermost paren at a close token.  When nothing
stands in it, only the open alternate for two tokens of one name has left the close token to it. -/
def closes (p : Paren) (f : Frame α) (items : List (Value α)) : Bool :=
  if items.isEmpty then f.opener.op.name = p.op.name
  else f.n .exprParen ≠ 0 ∧ f.n (.exprParenDepth p.op.name) ≠ 0

/-- The rules for one token. -/
def step (lang : Language) (s : State α) : Tok α → Option (State α)
  | .opn (p, preval) => some (openParen p preval s)
  | .val a => some { s with items := s.items ++ [.atom a] }
  | .cls p =>
    match s.frames with
    | [] => none
    | f :: frames =>
      if closes p f s.items then
        some ⟨beforeParen f.preval f.outer ++ (closeParen lang p f s.items).toList, frames⟩
      else none

/-- Nothing read yet. -/
def start : State α := ⟨[], []⟩

/-- The rules for a sequence of tokens. -/
def run (lang : Language) (ts : List (Tok α)) (s : State α) : Option (State α) :=
  ts.foldlM (step lang) s

/-! ## The specification -/

/-- A close token belongs to the operator of an open token. -/
def Same (o : Paren × Bool) (p : Paren) : Prop := o.1.key = p.key

instance : ∀ o p, Decidable (Same o p) := fun o p => inferInstanceAs (Decidable (o.1.key = p.key))

/-- Every pair is one paren node. -/
def reading : Dyck.Reading (Paren × Bool) Paren α (Value α) where
  value := .atom
  pair o p outer items := beforeParen o.2 outer ++ [parenNode p o.2 outer items]

/-- A close token meets a paren of another operator, with something in it, while a paren around that
one is of its own operator. -/
def Stray (s : State α) (p : Paren) : Prop :=
  ∃ f frames, s.frames = f :: frames ∧ f.opener.key ≠ p.key ∧ s.items ≠ [] ∧
    ∃ g ∈ frames, g.opener.key = p.key

/-- No close token of the sequence strays. -/
def NoStray (lang : Language) (ts : List (Tok α)) : Prop :=
  ∀ us p s, us ++ [.cls p] <+: ts → run lang us start = some s → ¬ Stray s p

/-- The parens of a sequence are matched, as far as it was read: it is accepted exactly when it is
balanced, with one paren node for each pair, and a close token is consumed by a paren of its own
operator only. -/
structure Matched (lang : Language) (ts : List (Tok α)) : Prop where
  accepted : ∀ us, us <+: ts →
    ((∃ xs, run lang us start = some ⟨xs, []⟩) ↔ Dyck.Balanced Same us)
  nodes : ∀ us xs, us <+: ts → run lang us start = some ⟨xs, []⟩ → Dyck.Reads Same reading us xs
  consumed : ∀ us p s s', us ++ [.cls p] <+: ts → run lang us start = some s →
    step lang s (.cls p) = some s' → ∃ f frames, s.frames = f :: frames ∧ f.opener.key = p.key

/-! ## What the counters say -/

/-- The counters of a paren say which operators are open, and its record which one is its own. -/
def Counted : List (Frame α) → Prop
  | [] => True
  | f :: frames =>
    (∀ name, f.n (.exprParenDepth name) ≠ 0 ↔ ∃ g ∈ f :: frames, g.opener.op.name = name) ∧
    f.n .exprParen ≠ 0 ∧
    (∀ name, f.u (.exprParenDepth name) = f.n (.exprParenDepth name) ∧
      f.n (.exprParenDepth name) ≠ 0 ↔ f.opener.op.name = name) ∧
    Counted frames

variable {lang : Language} {s s' : State α} {p : Paren} {ts us : List (Tok α)} {preval : Bool}

theorem counters_ne_zero_iff {frames : List (Frame α)} (h : Counted frames) (name : String) :
    counters frames (.exprParenDepth name) ≠ 0 ↔ ∃ g ∈ frames, g.opener.op.name = name := by
  cases frames with
  | nil => simp [counters]
  | cons f frames => exact h.1 name

theorem counted_openParen (h : Counted s.frames) : Counted (openParen p preval s).frames := by
  refine ⟨fun name => ?_, ?_, fun name => ?_, h⟩
  · by_cases hp : p.op.name = name
    · subst hp
      simp
    · have hne : Counter.exprParenDepth name ≠ .exprParenDepth p.op.name := by
        rintro ⟨⟩
        exact hp rfl
      dsimp only
      rw [Function.update_of_ne hne, Function.update_of_ne (by simp), counters_ne_zero_iff h]
      simp [hp]
  · simp
  · by_cases hp : p.op.name = name
    · subst hp
      simp
    · have hne : Counter.exprParenDepth name ≠ .exprParenDepth p.op.name := by
        rintro ⟨⟩
        exact hp rfl
      dsimp only
      rw [Function.update_of_ne hne, Function.update_of_ne hne]
      simp only [hp, iff_false]
      rintro ⟨h₀, h₁⟩
      exact h₁ h₀.symm

theorem counted_step {tok : Tok α} (h : Counted s.frames) (hs : step lang s tok = some s') :
    Counted s'.frames := by
  cases tok with
  | opn o =>
    cases hs
    exact counted_openParen h
  | val a =>
    cases hs
    exact h
  | cls p =>
    obtain ⟨items, frames⟩ := s
    cases frames with
    | nil => cases hs
    | cons f frames =>
      simp only [step, Option.ite_none_right_eq_some, Option.some.injEq] at hs
      obtain ⟨-, rfl⟩ := hs
      exact h.2.2.2

@[simp] theorem run_nil (s : State α) : run lang [] s = some s := rfl

theorem run_concat (ts : List (Tok α)) (tok : Tok α) (s : State α) :
    run lang (ts ++ [tok]) s = (run lang ts s).bind fun s => step lang s tok := by
  rw [run, List.foldlM_append]
  show (run lang ts s).bind _ = _
  congr 1
  funext s'
  show (step lang s' tok).bind some = _
  cases step lang s' tok <;> rfl

theorem counted_run (h : run lang ts start = some s) : Counted s.frames := by
  induction ts using List.reverseRecOn generalizing s with
  | nil =>
    cases h
    trivial
  | append_singleton ts tok ih =>
    rw [run_concat] at h
    obtain ⟨s₀, hs₀, hstep⟩ := Option.bind_eq_some_iff.1 h
    exact counted_step (ih hs₀) hstep

/-- The paren at the innermost level is closed by its own operator's token, and by a stray one. -/
theorem closes_iff {f : Frame α} {frames : List (Frame α)} (h : Counted (f :: frames))
    (hs : s.frames = f :: frames) :
    closes p f s.items ↔ f.opener.key = p.key ∨ Stray s p := by
  have hstray : Stray s p ↔ f.opener.key ≠ p.key ∧ s.items ≠ [] ∧
      ∃ g ∈ frames, g.opener.key = p.key := by
    constructor
    · rintro ⟨f', frames', he, h'⟩
      rw [hs] at he
      cases he
      exact h'
    · exact fun h' => ⟨f, frames, hs, h'⟩
  have hn := h.1 p.op.name
  simp only [Paren.name_eq_iff, List.mem_cons, exists_eq_or_imp] at hn
  rw [hstray, closes]
  by_cases hi : s.items = []
  · simp [hi, Paren.name_eq_iff]
  · simp only [List.isEmpty_iff, hi, if_false, decide_eq_true_eq, h.2.1, ne_eq, not_false_eq_true,
      true_and]
    rw [← ne_eq, hn]
    tauto

/-- On its own operator's close token, every port makes the paren node. -/
theorem closeParen_of_own {f : Frame α} {frames : List (Frame α)} (h : Counted (f :: frames))
    (hf : f.opener.key = p.key) (items : List (Value α)) :
    closeParen lang p f items = some (parenNode p f.preval f.outer items) := by
  have hu := ((h.2.2.1 p.op.name).2 (Paren.name_eq_iff.2 hf)).1
  cases lang <;> simp [closeParen, hu]

/-! ## The rules are the stack machine of Dyck words, but for stray tokens -/

/-- The open tokens of a state, each with the values before it. -/
def view (s : State α) : Dyck.State (Paren × Bool) (Value α) :=
  ⟨s.items, s.frames.map fun f => ((f.opener, f.preval), f.outer)⟩

theorem view_step {tok : Tok α} (h : Counted s.frames) (hs : ∀ p, tok = .cls p → ¬ Stray s p) :
    (step lang s tok).map view = Dyck.step Same reading (view s) tok := by
  cases tok with
  | opn | val => rfl
  | cls p =>
    have hp := hs p rfl
    obtain ⟨items, frames⟩ := s
    cases frames with
    | nil => rfl
    | cons f frames =>
      have hc : closes p f items ↔ f.opener.key = p.key :=
        (closes_iff h (s := ⟨items, f :: frames⟩) rfl).trans (or_iff_left hp)
      by_cases hf : f.opener.key = p.key
      · simp [step, view, Dyck.step, Same, hc.2 hf, hf, closeParen_of_own h hf, reading]
      · simp [step, view, Dyck.step, Same, mt hc.1 hf, hf]

theorem view_run (h : NoStray lang ts) (hus : us <+: ts) :
    (run lang us start).map view = Dyck.run Same reading us ⟨[], []⟩ := by
  induction us using List.reverseRecOn with
  | nil => rfl
  | append_singleton us tok ih =>
    have hus' := (List.prefix_append us [tok]).trans hus
    rw [run_concat, Dyck.run_concat, ← ih hus']
    cases hs : run lang us start with
    | none => rfl
    | some s =>
      refine view_step (counted_run hs) ?_
      rintro p rfl
      exact h us p s hus hs

theorem view_eq_iff {xs : List (Value α)} : view s = ⟨xs, []⟩ ↔ s = ⟨xs, []⟩ := by
  obtain ⟨items, frames⟩ := s
  simp [view]

theorem run_eq_some_iff {xs : List (Value α)} (h : NoStray lang ts) (hus : us <+: ts) :
    run lang us start = some ⟨xs, []⟩ ↔ Dyck.Reads Same reading us xs := by
  rw [← Dyck.run_eq_some_nil_iff, ← view_run h hus, Option.map_eq_some_iff]
  simp only [view_eq_iff, exists_eq_right]

/-- A close token is consumed by a paren that `closes` it. -/
theorem step_cls_eq_some_iff :
    (∃ s', step lang s (.cls p) = some s') ↔
      ∃ f frames, s.frames = f :: frames ∧ closes p f s.items := by
  obtain ⟨items, frames⟩ := s
  cases frames <;> simp [step]

/-- In every port, the parens of a sequence are matched exactly when none of its close tokens
strays. -/
theorem matched_iff (lang : Language) (ts : List (Tok α)) : Matched lang ts ↔ NoStray lang ts := by
  constructor
  · intro h us p s hus hs hstray
    obtain ⟨f, frames, hf, hne, hrest⟩ := hstray
    -- The innermost paren consumes the stray token, though it is of another operator.
    have hcloses := (closes_iff (hf ▸ counted_run hs) hf).2 (Or.inr ⟨f, frames, hf, hne, hrest⟩)
    obtain ⟨s', hs'⟩ : ∃ s', step lang s (.cls p) = some s' :=
      step_cls_eq_some_iff.2 ⟨f, frames, hf, hcloses⟩
    obtain ⟨g, frames', hg, hkey⟩ := h.consumed us p s s' hus hs hs'
    rw [hf] at hg
    cases hg
    exact hne hkey
  · intro h
    refine ⟨fun us hus => ?_, fun us xs hus => (run_eq_some_iff h hus).1, ?_⟩
    · rw [Dyck.balanced_iff_reads (R := reading)]
      exact exists_congr fun xs => run_eq_some_iff h hus
    · intro us p s s' hus hs hs'
      obtain ⟨f, frames, hf, hcloses⟩ := step_cls_eq_some_iff.1 ⟨s', hs'⟩
      refine ⟨f, frames, hf, ?_⟩
      exact ((closes_iff (hf ▸ counted_run hs) hf).1 hcloses).resolve_right (h us p s hus hs)

/-- Two paren operators. -/
def round : Paren := ⟨"plain", "(", ")"⟩

def angle : Paren := ⟨"angle", "<", ">"⟩

/-- `( < 1 ) )` -/
def crossed : List (Tok ℕ) :=
  [.opn (round, false), .opn (angle, false), .val 1, .cls round, .cls round]

theorem not_balanced_crossed : ¬ Dyck.Balanced Same crossed := by
  rw [Dyck.balanced_iff_reads (R := reading)]
  simp only [← Dyck.run_eq_some_nil_iff]
  rintro ⟨xs, h⟩
  have : Dyck.run Same reading crossed ⟨[], []⟩ = none := by decide
  rw [this] at h
  cases h

/-- The angle paren consumes the first close token, and the whole is accepted: in Go with a node for
each pair, in TypeScript and Rust with one node for the two pairs. -/
theorem crossed_parens_accepted :
    run .typescript crossed start = some ⟨[.paren round.op [.atom 1]], []⟩ ∧
    run .rust crossed start = some ⟨[.paren round.op [.atom 1]], []⟩ ∧
    run .go crossed start = some ⟨[.paren round.op [.paren round.op [.atom 1]]], []⟩ ∧
    ∀ lang, ¬ Matched lang crossed := by
  have hts : run .typescript crossed start = some ⟨[.paren round.op [.atom 1]], []⟩ := rfl
  have hrust : run .rust crossed start = some ⟨[.paren round.op [.atom 1]], []⟩ := rfl
  have hgo : run .go crossed start =
    some ⟨[.paren round.op [.paren round.op [.atom 1]]], []⟩ := rfl
  refine ⟨hts, hrust, hgo, ?_⟩
  rintro (_ | _ | _) h
  · exact not_balanced_crossed ((h.accepted crossed (List.prefix_refl _)).1 ⟨_, hts⟩)
  · exact not_balanced_crossed ((h.accepted crossed (List.prefix_refl _)).1 ⟨_, hrust⟩)
  · exact not_balanced_crossed ((h.accepted crossed (List.prefix_refl _)).1 ⟨_, hgo⟩)

end Parens

end TabnasExpr
