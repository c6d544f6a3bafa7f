import Mathlib.Data.List.Induction
import TabnasExpr.Op

/-!
# Ternary separators

The ternary rules of a parse, one frame for each ternary whose parts are being read: a val or an expr
hands control back at any second separator while a ternary is open, and so does a ternary that has
both its parts.  The frame that still awaits its second separator takes it, in TypeScript and Rust
when the names agree, in Go whatever its operator.  A first separator right behind a second one opens
a ternary anew in TypeScript and Rust, with the one so far for its condition.  `paired_iff` says when
the separators of a sequence pair by operator.
-/

namespace TabnasExpr.Ternaries

universe u

variable {α : Type u}

/-- A value of the parse: an operand or an expression, or a ternary's node with its terms. -/
inductive Value (α : Type u) where
  | atom (a : α)
  | ternary (op : Op) (terms : List (Value α))

/-- A token of the source: an operand, or an expression that other rules read, or a separator. -/
inductive Tok (α : Type u) where
  | val (a : α)
  | first (op : Op)
  | second (op : Op)
  deriving DecidableEq

/-- A ternary rule while a part of it is read. -/
structure Frame (α : Type u) where
  step : ℕ
  name : Option String
  op : Op
  terms : List (Value α)

/-- The value read last, unless one is due, and the ternaries open around it, innermost first. -/
structure State (α : Type u) where
  cur : Option α
  frames : List (Frame α)

/-- The open alternate at a first separator, with the node before it.  The Go port keeps no name. -/
def Frame.opened (lang : Language) (op : Op) (c : Value α) : Frame α :=
  match lang with
  | .go => ⟨0, none, op, [c]⟩
  | .typescript | .rust => ⟨1, some op.name, op, [c]⟩

/-- A part is read. -/
def Frame.push (f : Frame α) (child : Value α) : Frame α := { f with terms := f.terms ++ [child] }

/-- The before-close action of the Go port: the part goes into the next slot. -/
def Frame.beforeClose (f : Frame α) (child : Value α) : Frame α :=
  { f.push child with step := if f.step < 2 then f.step + 1 else f.step }

/-- The node of a ternary. -/
def Frame.node (f : Frame α) : Value α := .ternary f.op f.terms

/-- The close alternates at a second separator, from the innermost ternary outwards. -/
def close (lang : Language) (op : Op) : List (Frame α) → Value α → Option (List (Frame α))
  | [], _ => none
  | f :: frames, child =>
    match lang with
    | .go =>
      let f := f.beforeClose child
      if f.step = 1 then some (f :: frames)
      else if f.step = 2 then close lang op frames f.node
      else none
    | .typescript | .rust =>
      if f.step = 1 ∧ f.name = some op.name then
        -- The rule is replaced by one for the second step, which has no name of its own.
        some ({ f.push child with step := 2, name := none } :: frames)
      else if f.step = 2 then close lang op frames (f.push child).node
      else none

/-- The close alternates at the end of the source. -/
def finish (lang : Language) : List (Frame α) → Value α → Option (Value α)
  | [], v => some v
  | f :: frames, child =>
    match lang with
    | .go =>
      let f := f.beforeClose child
      if f.step = 2 then finish lang frames f.node else none
    | .typescript | .rust =>
      if f.step = 2 then finish lang frames (f.push child).node else none

/-- A first separator where a value is due.  The rule for the second step of a ternary has the open
alternates of the rule it replaces, and the first of them asks for no more than the separator; Go has
no rule for the second step. -/
def reopen (lang : Language) (op : Op) : List (Frame α) → Option (List (Frame α))
  | [] => none
  | f :: frames =>
    match lang with
    | .go => none
    | .typescript | .rust => if f.step = 2 then some (.opened lang op f.node :: frames) else none

/-- The rules for one token.  Two operands side by side would start an implicit list. -/
def step (lang : Language) (s : State α) : Tok α → Option (State α)
  | .val a =>
    match s.cur with
    | none => some { s with cur := some a }
    | some _ => none
  | .first op =>
    match s.cur with
    | none => (reopen lang op s.frames).map fun frames => ⟨none, frames⟩
    | some c => some ⟨none, .opened lang op (.atom c) :: s.frames⟩
  | .second op => s.cur.bind fun y =>
    (close lang op s.frames (.atom y)).map fun frames => ⟨none, frames⟩

/-- Nothing read yet. -/
def start : State α := ⟨none, []⟩

/-- The rules for a sequence of tokens. -/
def run (lang : Language) (ts : List (Tok α)) (s : State α) : Option (State α) :=
  ts.foldlM (step lang) s

/-- The parse of a source that ends in a value.  The end of the source where a value is due is the host
grammar's. -/
def parse (lang : Language) (ts : List (Tok α)) : Option (Value α) :=
  (run lang ts start).bind fun s => s.cur.bind fun y => finish lang s.frames (.atom y)

/-! ## The specification -/

/-- What a piece of a source stands for: a value, or the condition of a ternary. -/
inductive Part where
  | value
  | condition

/-- A nesting of ternaries.  The condition of each is an operand or an expression, or a ternary that
another first separator cuts off behind its second part. -/
inductive Nest (α : Type u) : Part → Type u where
  | leaf {p : Part} (a : α) : Nest α p
  | ternary (op : Op) (c : Nest α .condition) (x y : Nest α .value) : Nest α .value
  | cut (op : Op) (c : Nest α .condition) (x : Nest α .value) : Nest α .condition

/-- The source of a nesting: each ternary is written with its own operator's two separators. -/
def Nest.write {p : Part} : Nest α p → List (Tok α)
  | leaf a => [.val a]
  | ternary op c x y => c.write ++ .first op :: (x.write ++ .second op :: y.write)
  | cut op c x => c.write ++ .first op :: (x.write ++ [.second op])

/-- The value of a nesting. -/
def Nest.value {p : Part} : Nest α p → Value α
  | leaf a => .atom a
  | ternary op c x y => .ternary op [c.value, x.value, y.value]
  | cut op c x => .ternary op [c.value, x.value]

/-- The nestings of a port: Go has no ternary that is cut off. -/
def Nest.Fits (lang : Language) {p : Part} : Nest α p → Prop
  | leaf _ => True
  | ternary _ c x y => c.Fits lang ∧ x.Fits lang ∧ y.Fits lang
  | cut _ c x => lang ≠ .go ∧ c.Fits lang ∧ x.Fits lang

/-- The step a ternary is at while it awaits its second separator. -/
def awaitStep : Language → ℕ
  | .go => 0
  | .typescript | .rust => 1

/-- The operator of the innermost ternary that awaits its second separator. -/
def awaiting (lang : Language) : List (Frame α) → Option Op
  | [] => none
  | f :: frames => if f.step = awaitStep lang then some f.op else awaiting lang frames

/-- The separators of a sequence pair by operator: a second separator is consumed only when the
innermost ternary that awaits one is its operator's, and a sequence that ends in a value is accepted
exactly when it is a nesting of ternaries, with the value of that nesting. -/
structure Paired (lang : Language) (ts : List (Tok α)) : Prop where
  consumed : ∀ us op s s', us ++ [.second op] <+: ts → run lang us start = some s →
    step lang s (.second op) = some s' → awaiting lang s.frames = some op
  accepted : ∀ us a, ts = us ++ [.val a] → ∀ v,
    parse lang ts = some v ↔ ∃ t : Nest α .value, t.Fits lang ∧ v = t.value ∧ ts = t.write

/-- The close test does not tell a ternary of `awaited` from one of `op`: in TypeScript and Rust when
the two have one name, in Go always. -/
def Confuses (lang : Language) (awaited op : Op) : Prop :=
  match lang with
  | .go => True
  | .typescript | .rust => awaited.name = op.name

/-- After a value, a second separator meets a ternary that awaits another operator's one and does not
tell them apart. -/
def Crosses (lang : Language) (s : State α) (op : Op) : Prop :=
  s.cur ≠ none ∧ ∃ awaited, awaiting lang s.frames = some awaited ∧ awaited ≠ op ∧
    Confuses lang awaited op

/-- No second separator of the sequence crosses another ternary. -/
def NoCross (lang : Language) (ts : List (Tok α)) : Prop :=
  ∀ us op s, us ++ [.second op] <+: ts → run lang us start = some s → ¬ Crosses lang s op

/-! ## One frame at a time -/

/-- The name by which a ternary is told apart while it awaits its second separator. -/
def keptName (op : Op) : Language → Option String
  | .go => none
  | .typescript | .rust => some op.name

/-- A frame awaits its second separator, or is in its second step. -/
def Shaped (lang : Language) (f : Frame α) : Prop :=
  f.step = awaitStep lang ∧ f.name = keptName f.op lang ∨ f.step = awaitStep lang + 1

/-- A ternary that has taken its second separator. -/
def Frame.second (lang : Language) (f : Frame α) (child : Value α) : Frame α :=
  { f.push child with step := awaitStep lang + 1, name := none }

variable {lang : Language} {f : Frame α} {frames frames' : List (Frame α)} {child v : Value α}
  {op awaited : Op} {s s' : State α} {ts us vs : List (Tok α)} {t : Nest α .value}

theorem shaped_opened (op : Op) (c : Value α) : Shaped lang (Frame.opened lang op c) := by
  cases lang <;> exact Or.inl ⟨rfl, rfl⟩

/-- The innermost ternary awaits its second separator, and takes one it does not tell apart. -/
theorem close_of_confuses (hf : f.step = awaitStep lang) (hn : f.name = keptName f.op lang)
    (h : Confuses lang f.op op) :
    close lang op (f :: frames) child = some (f.second lang child :: frames) := by
  cases lang with
  | go =>
    have hf : f.step = 0 := hf
    have hn : f.name = none := hn
    simp [close, Frame.beforeClose, hf, Frame.second, awaitStep, Frame.push, hn]
  | typescript | rust =>
    have hf : f.step = 1 := hf
    have hn : f.name = some f.op.name := hn
    have h : f.op.name = op.name := h
    simp [close, hf, hn, h, Frame.second, awaitStep]

/-- It refuses the others. -/
theorem close_of_not_confuses (hf : f.step = awaitStep lang) (hn : f.name = keptName f.op lang)
    (h : ¬ Confuses lang f.op op) : close lang op (f :: frames) child = none := by
  cases lang with
  | go => exact absurd trivial h
  | typescript | rust =>
    have hf : f.step = 1 := hf
    have hn : f.name = some f.op.name := hn
    have h : f.op.name ≠ op.name := h
    simp [close, hf, hn, h]

/-- A ternary in its second step ends, and hands control back. -/
theorem close_of_second (hf : f.step = awaitStep lang + 1) :
    close lang op (f :: frames) child = close lang op frames (f.push child).node := by
  cases lang <;> simp only [awaitStep] at hf <;>
    simp [close, Frame.beforeClose, hf, Frame.push, Frame.node]

theorem finish_of_second (hf : f.step = awaitStep lang + 1) :
    finish lang (f :: frames) child = finish lang frames (f.push child).node := by
  cases lang <;> simp only [awaitStep] at hf <;>
    simp [finish, Frame.beforeClose, hf, Frame.push, Frame.node]

theorem finish_of_awaiting (hf : f.step = awaitStep lang) :
    finish lang (f :: frames) child = none := by
  cases lang <;> simp only [awaitStep] at hf <;> simp [finish, Frame.beforeClose, hf]

/-- What a first separator where a value is due does: the innermost ternary is in its second step, and
is opened anew. -/
theorem reopen_cases (h : reopen lang op frames = some frames') : lang ≠ .go ∧
    ∃ f rest, frames = f :: rest ∧ f.step = awaitStep lang + 1 ∧
      frames' = .opened lang op f.node :: rest := by
  cases frames with
  | nil => cases h
  | cons f rest =>
    cases lang with
    | go => cases h
    | typescript | rust =>
      simp only [reopen] at h
      split_ifs at h with hf
      cases h
      exact ⟨by simp, f, rest, rfl, hf, rfl⟩

theorem reopen_of_second (hlang : lang ≠ .go) (hf : f.step = awaitStep lang + 1) :
    reopen lang op (f :: frames) = some (.opened lang op f.node :: frames) := by
  cases lang with
  | go => exact absurd rfl hlang
  | typescript | rust => exact if_pos hf

/-- A second separator is consumed when the innermost ternary that awaits one does not tell it
apart. -/
theorem close_eq_some_iff (h : ∀ f ∈ frames, Shaped lang f) :
    (∃ frames', close lang op frames child = some frames') ↔
      ∃ awaited, awaiting lang frames = some awaited ∧ Confuses lang awaited op := by
  induction frames generalizing child with
  | nil => simp [close, awaiting]
  | cons f frames ih =>
    rcases h f List.mem_cons_self with ⟨hf, hn⟩ | hf
    · by_cases hc : Confuses lang f.op op
      · simp [close_of_confuses hf hn hc, awaiting, hf, hc]
      · simp [close_of_not_confuses hf hn hc, awaiting, hf, hc]
    · rw [close_of_second hf, ih fun g hg => h g (List.mem_cons_of_mem _ hg), awaiting, if_neg]
      omega

theorem shaped_close (h : ∀ f ∈ frames, Shaped lang f)
    (hc : close lang op frames child = some frames') : ∀ f ∈ frames', Shaped lang f := by
  induction frames generalizing child with
  | nil => cases hc
  | cons f frames ih =>
    have hrest : ∀ g ∈ frames, Shaped lang g := fun g hg => h g (List.mem_cons_of_mem _ hg)
    rcases h f List.mem_cons_self with ⟨hf, hn⟩ | hf
    · by_cases hc' : Confuses lang f.op op
      · rw [close_of_confuses hf hn hc'] at hc
        cases hc
        intro g hg
        rcases List.mem_cons.1 hg with rfl | hg
        · exact Or.inr rfl
        · exact hrest g hg
      · rw [close_of_not_confuses hf hn hc'] at hc
        cases hc
    · rw [close_of_second hf] at hc
      exact ih hrest hc

theorem shaped_step {tok : Tok α} (h : ∀ f ∈ s.frames, Shaped lang f)
    (hs : step lang s tok = some s') : ∀ f ∈ s'.frames, Shaped lang f := by
  obtain ⟨cur, frames⟩ := s
  cases tok with
  | val a =>
    cases cur with
    | none =>
      cases hs
      exact h
    | some c => cases hs
  | first op =>
    cases cur with
    | none =>
      obtain ⟨frames', hr, rfl⟩ := Option.map_eq_some_iff.1 hs
      obtain ⟨-, f, rest, rfl, -, rfl⟩ := reopen_cases hr
      intro g hg
      rcases List.mem_cons.1 hg with rfl | hg
      · exact shaped_opened op f.node
      · exact h g (List.mem_cons_of_mem _ hg)
    | some c =>
      cases hs
      intro g hg
      rcases List.mem_cons.1 hg with rfl | hg
      · exact shaped_opened op (.atom c)
      · exact h g hg
  | second op =>
    cases cur with
    | none => cases hs
    | some c =>
      obtain ⟨frames', hc, rfl⟩ := Option.map_eq_some_iff.1 hs
      exact shaped_close h hc

theorem run_concat (ts : List (Tok α)) (tok : Tok α) (s : State α) :
    run lang (ts ++ [tok]) s = (run lang ts s).bind fun s => step lang s tok := by
  rw [run, List.foldlM_append]
  show (run lang ts s).bind _ = _
  congr 1
  funext s'
  show (step lang s' tok).bind some = _
  cases step lang s' tok <;> rfl

theorem shaped_run (h : run lang ts start = some s) : ∀ f ∈ s.frames, Shaped lang f := by
  induction ts using List.reverseRecOn generalizing s with
  | nil =>
    cases h
    simp [start]
  | append_singleton ts tok ih =>
    rw [run_concat] at h
    obtain ⟨s₀, hs₀, hstep⟩ := Option.bind_eq_some_iff.1 h
    exact shaped_step (ih hs₀) hstep

/-! ## A nesting is accepted -/

theorem run_append (ts us : List (Tok α)) (s : State α) :
    run lang (ts ++ us) s = (run lang ts s).bind (run lang us) := List.foldlM_append

@[simp] theorem run_cons (tok : Tok α) (ts : List (Tok α)) (s : State α) :
    run lang (tok :: ts) s = (step lang s tok).bind (run lang ts) := rfl

theorem confuses_self (lang : Language) (op : Op) : Confuses lang op op := by
  cases lang <;> trivial

@[simp] theorem op_opened (op : Op) (c : Value α) : (Frame.opened lang op c).op = op := by
  cases lang <;> rfl

@[simp] theorem terms_opened (op : Op) (c : Value α) : (Frame.opened lang op c).terms = [c] := by
  cases lang <;> rfl

/-- The second separator of the ternary opened last. -/
theorem close_opened (lang : Language) (op : Op) (c x : Value α) (frames : List (Frame α)) :
    close lang op (Frame.opened lang op c :: frames) x =
      some ((Frame.opened lang op c).second lang x :: frames) := by
  refine close_of_confuses ?_ ?_ ?_
  · cases lang <;> rfl
  · cases lang <;> rfl
  · rw [op_opened]
    exact confuses_self lang op

/-- A value was read: what is left is the last operand, and the ternaries it ends, which hand control
back with the value. -/
def ReadsValue (lang : Language) (ts : List (Tok α)) (v : Value α) : Prop :=
  ∀ frames, ∃ z ended, run lang ts ⟨none, frames⟩ = some ⟨some z, ended ++ frames⟩ ∧
    (∀ op frames, close lang op (ended ++ frames) (.atom z) = close lang op frames v) ∧
    ∀ frames, finish lang (ended ++ frames) (.atom z) = finish lang frames v

/-- A condition was read: the first separator behind it opens a ternary. -/
def ReadsCondition (lang : Language) (ts : List (Tok α)) (v : Value α) : Prop :=
  ∀ op frames, run lang (ts ++ [.first op]) ⟨none, frames⟩ =
    some ⟨none, .opened lang op v :: frames⟩

/-- A ternary up to its second separator. -/
theorem run_parts {c x : Value α} {us vs : List (Tok α)} (hc : ReadsCondition lang us c)
    (hx : ReadsValue lang vs x) (op : Op) (frames : List (Frame α)) :
    run lang (us ++ .first op :: (vs ++ [.second op])) ⟨none, frames⟩ =
      some ⟨none, (Frame.opened lang op c).second lang x :: frames⟩ := by
  obtain ⟨z, ended, hrun, hclose, -⟩ := hx (.opened lang op c :: frames)
  rw [List.append_cons, run_append, hc op frames, Option.bind_some, run_append, hrun]
  simp [step, hclose, close_opened, run]

theorem reads_write {p : Part} (t : Nest α p) (ht : t.Fits lang) :
    match p with
    | .value => ReadsValue lang t.write t.value
    | .condition => ReadsCondition lang t.write t.value := by
  induction t with
  | @leaf p a =>
    cases p with
    | value => exact fun frames => ⟨a, [], rfl, fun _ _ => rfl, fun _ => rfl⟩
    | condition => exact fun op frames => rfl
  | ternary op c x y ihc ihx ihy =>
    intro frames
    obtain ⟨hc, hx, hy⟩ := ht
    have hparts := run_parts (ihc hc) (ihx hx) op frames
    obtain ⟨z, ended, hrun, hclose, hfinish⟩ :=
      ihy hy ((Frame.opened lang op c.value).second lang x.value :: frames)
    have hnode : (((Frame.opened lang op c.value).second lang x.value).push y.value).node =
        (Nest.ternary op c x y).value := by
      simp [Frame.second, Frame.push, Frame.node, Nest.value]
    refine ⟨z, ended ++ [(Frame.opened lang op c.value).second lang x.value], ?_, fun op' fr => ?_,
      fun fr => ?_⟩
    · have hwrite : (Nest.ternary op c x y).write =
          (c.write ++ .first op :: (x.write ++ [.second op])) ++ y.write := by
        simp [Nest.write]
      rw [hwrite, run_append, hparts, Option.bind_some, hrun, List.append_assoc]
      rfl
    · rw [List.append_assoc, List.singleton_append, hclose, close_of_second rfl, hnode]
    · rw [List.append_assoc, List.singleton_append, hfinish, finish_of_second rfl, hnode]
  | cut op c x ihc ihx =>
    intro op' frames
    obtain ⟨hlang, hc, hx⟩ := ht
    have hnode : ((Frame.opened lang op c.value).second lang x.value).node =
        (Nest.cut op c x).value := by
      simp [Frame.second, Frame.push, Frame.node, Nest.value]
    rw [Nest.write, run_append, run_parts (ihc hc) (ihx hx) op frames, ← hnode]
    simp [step, reopen_of_second hlang, Frame.second, run]

theorem parse_write (t : Nest α .value) (ht : t.Fits lang) : parse lang t.write = some t.value := by
  obtain ⟨z, ended, hrun, -, hfinish⟩ := reads_write t ht []
  rw [List.append_nil] at hrun
  have := hfinish []
  rw [List.append_nil] at this
  rw [parse, start, hrun]
  exact this

/-! ## What is accepted is a nesting -/

/-- The source a frame was read from, when it took no second separator but its own. -/
def FrameText (lang : Language) (f : Frame α) (us : List (Tok α)) : Prop :=
  ∃ c : Nest α .condition, c.Fits lang ∧
    (f.step = awaitStep lang ∧ f.terms = [c.value] ∧ us = c.write ++ [.first f.op] ∨
      f.step = awaitStep lang + 1 ∧ ∃ x : Nest α .value, x.Fits lang ∧ f.terms = [c.value, x.value] ∧
        us = c.write ++ .first f.op :: (x.write ++ [.second f.op]))

/-- The source the open ternaries were read from. -/
def Text (lang : Language) : List (Frame α) → List (Tok α) → Prop
  | [], us => us = []
  | f :: frames, us => ∃ vs ws, Text lang frames vs ∧ FrameText lang f ws ∧ us = vs ++ ws

/-- A second separator of the ternary that awaits it. -/
theorem text_close (ht : t.Fits lang) (hs : ∀ f ∈ frames, Shaped lang f) (h : Text lang frames us)
    (hop : ∀ awaited, awaiting lang frames = some awaited → Confuses lang awaited op → awaited = op)
    (hc : close lang op frames t.value = some frames') :
    awaiting lang frames = some op ∧ Text lang frames' (us ++ t.write ++ [.second op]) := by
  induction frames generalizing t us with
  | nil => cases hc
  | cons f frames ih =>
    obtain ⟨vs, ws, hvs, ⟨c, hcond, hws⟩, rfl⟩ := h
    rcases hws with ⟨hf, hterms, rfl⟩ | ⟨hf, x, hx, hterms, rfl⟩
    · have hn : f.name = keptName f.op lang := by
        rcases hs f List.mem_cons_self with ⟨-, hn⟩ | hf'
        · exact hn
        · omega
      have hawait : awaiting lang (f :: frames) = some f.op := by simp [awaiting, hf]
      by_cases hconf : Confuses lang f.op op
      · have hop := hop f.op hawait hconf
        rw [close_of_confuses hf hn hconf] at hc
        cases hc
        refine ⟨by rw [hawait, hop], vs, _, hvs, ⟨c, hcond, Or.inr ⟨rfl, t, ht, ?_, rfl⟩⟩, ?_⟩
        · simp [Frame.second, Frame.push, hterms]
        · simp [Frame.second, Frame.push, hop]
      · rw [close_of_not_confuses hf hn hconf] at hc
        cases hc
    · have hawait : awaiting lang (f :: frames) = awaiting lang frames := by
        rw [awaiting, if_neg (by omega)]
      have hnode : (f.push t.value).node = (Nest.ternary f.op c x t).value := by
        simp [Frame.push, Frame.node, hterms, Nest.value]
      rw [close_of_second hf, hnode] at hc
      rw [hawait] at hop ⊢
      have := ih (t := .ternary f.op c x t) ⟨hcond, hx, ht⟩
        (fun g hg => hs g (List.mem_cons_of_mem _ hg)) hvs hop hc
      simpa [Nest.write] using this

theorem text_finish (ht : t.Fits lang) (h : Text lang frames us)
    (hf : finish lang frames t.value = some v) :
    ∃ t' : Nest α .value, t'.Fits lang ∧ v = t'.value ∧ us ++ t.write = t'.write := by
  induction frames generalizing t us with
  | nil =>
    cases hf
    obtain rfl : us = [] := h
    exact ⟨t, ht, rfl, rfl⟩
  | cons f frames ih =>
    obtain ⟨vs, ws, hvs, ⟨c, hcond, hws⟩, rfl⟩ := h
    rcases hws with ⟨hstep, -⟩ | ⟨hstep, x, hx, hterms, rfl⟩
    · rw [finish_of_awaiting hstep] at hf
      cases hf
    · have hnode : (f.push t.value).node = (Nest.ternary f.op c x t).value := by
        simp [Frame.push, Frame.node, hterms, Nest.value]
      rw [finish_of_second hstep, hnode] at hf
      obtain ⟨t', hfits, hv, ht'⟩ := ih (t := .ternary f.op c x t) ⟨hcond, hx, ht⟩ hvs hf
      refine ⟨t', hfits, hv, ?_⟩
      rw [← ht']
      simp [Nest.write]

/-- The source read so far. -/
def StateText (lang : Language) (s : State α) (us : List (Tok α)) : Prop :=
  ∃ vs, Text lang s.frames vs ∧ us = vs ++ s.cur.toList.map .val

theorem stateText_step {tok : Tok α} (hs : ∀ f ∈ s.frames, Shaped lang f)
    (h : StateText lang s us) (hop : ∀ op, tok = .second op → ¬ Crosses lang s op)
    (hstep : step lang s tok = some s') : StateText lang s' (us ++ [tok]) := by
  obtain ⟨cur, frames⟩ := s
  obtain ⟨vs, hvs, rfl⟩ := h
  cases tok with
  | val a =>
    cases cur with
    | none =>
      cases hstep
      exact ⟨vs, hvs, by simp⟩
    | some c => cases hstep
  | first op =>
    cases cur with
    | none =>
      obtain ⟨frames', hr, rfl⟩ := Option.map_eq_some_iff.1 hstep
      obtain ⟨hlang, f, rest, rfl, hf, rfl⟩ := reopen_cases hr
      obtain ⟨vs, ws, hvs, ⟨c, hcond, hws⟩, rfl⟩ := hvs
      rcases hws with ⟨hf', -⟩ | ⟨-, x, hx, hterms, rfl⟩
      · omega
      · -- the ternary so far is the condition
        have hnode : f.node = (Nest.cut f.op c x).value := by simp [Frame.node, hterms, Nest.value]
        refine ⟨_, ⟨vs, _, hvs, ⟨.cut f.op c x, ⟨hlang, hcond, hx⟩, Or.inl ⟨?_, ?_, rfl⟩⟩, rfl⟩, ?_⟩
        · cases lang <;> rfl
        · rw [terms_opened, hnode]
        · simp [Nest.write]
    | some c =>
      cases hstep
      refine ⟨_, ⟨vs, _, hvs, ⟨.leaf c, trivial, Or.inl ⟨?_, ?_, rfl⟩⟩, rfl⟩, ?_⟩
      · cases lang <;> rfl
      · rw [terms_opened, Nest.value]
      · simp [Nest.write]
  | second op =>
    cases cur with
    | none => cases hstep
    | some y =>
      obtain ⟨frames', hc, rfl⟩ := Option.map_eq_some_iff.1 hstep
      have hown : ∀ awaited, awaiting lang frames = some awaited → Confuses lang awaited op →
          awaited = op := by
        intro awaited hawait hconf
        by_contra hne
        exact hop op rfl ⟨by simp, awaited, hawait, hne, hconf⟩
      have := (text_close (t := .leaf y) trivial hs hvs hown hc).2
      exact ⟨_, this, by simp [Nest.write]⟩

theorem stateText_run (h : NoCross lang ts) (hus : us <+: ts)
    (hs : run lang us start = some s) : StateText lang s us := by
  induction us using List.reverseRecOn generalizing s with
  | nil =>
    cases hs
    exact ⟨[], rfl, rfl⟩
  | append_singleton us tok ih =>
    rw [run_concat] at hs
    obtain ⟨s₀, hs₀, hstep⟩ := Option.bind_eq_some_iff.1 hs
    refine stateText_step (shaped_run hs₀) (ih ((List.prefix_append us [tok]).trans hus) hs₀) ?_ hstep
    rintro op rfl
    exact h us op s₀ hus hs₀

theorem close_subset (hc : close lang op frames child = some frames')
    (hs : ∀ f ∈ frames, Shaped lang f) : ∀ f ∈ frames', ∃ g ∈ frames, f.op = g.op := by
  induction frames generalizing child with
  | nil => cases hc
  | cons f frames ih =>
    rcases hs f List.mem_cons_self with ⟨hf, hn⟩ | hf
    · by_cases hconf : Confuses lang f.op op
      · rw [close_of_confuses hf hn hconf] at hc
        cases hc
        intro g hg
        rcases List.mem_cons.1 hg with rfl | hg
        · exact ⟨f, List.mem_cons_self, rfl⟩
        · exact ⟨g, List.mem_cons_of_mem _ hg, rfl⟩
      · rw [close_of_not_confuses hf hn hconf] at hc
        cases hc
    · rw [close_of_second hf] at hc
      intro g hg
      obtain ⟨g', hg', e⟩ := ih hc (fun g hg => hs g (List.mem_cons_of_mem _ hg)) g hg
      exact ⟨g', List.mem_cons_of_mem _ hg', e⟩

/-- Every open ternary was opened by a first separator of its operator. -/
theorem first_mem_of_run (hs : run lang ts start = some s) : ∀ f ∈ s.frames, .first f.op ∈ ts := by
  induction ts using List.reverseRecOn generalizing s with
  | nil =>
    cases hs
    simp [start]
  | append_singleton ts tok ih =>
    rw [run_concat] at hs
    obtain ⟨⟨cur, frames⟩, hs₀, hstep⟩ := Option.bind_eq_some_iff.1 hs
    have ih := ih hs₀
    have old : ∀ f ∈ frames, .first f.op ∈ ts ++ [tok] := fun f hf =>
      List.mem_append_left _ (ih f hf)
    cases tok with
    | val a =>
      cases cur with
      | none =>
        cases hstep
        exact old
      | some c => cases hstep
    | first op =>
      cases cur with
      | none =>
        obtain ⟨frames', hr, rfl⟩ := Option.map_eq_some_iff.1 hstep
        obtain ⟨-, g, rest, rfl, -, rfl⟩ := reopen_cases hr
        intro f hf
        rcases List.mem_cons.1 hf with rfl | hf
        · simp
        · exact old f (List.mem_cons_of_mem _ hf)
      | some c =>
        cases hstep
        intro f hf
        rcases List.mem_cons.1 hf with rfl | hf
        · simp
        · exact old f hf
    | second op =>
      cases cur with
      | none => cases hstep
      | some c =>
        obtain ⟨frames', hc, rfl⟩ := Option.map_eq_some_iff.1 hstep
        intro f hf
        obtain ⟨g, hg, e⟩ := close_subset hc (shaped_run hs₀) f hf
        rw [e]
        exact old g hg

theorem mem_of_awaiting (h : awaiting lang frames = some awaited) : ∃ f ∈ frames, f.op = awaited := by
  induction frames with
  | nil => cases h
  | cons f frames ih =>
    rw [awaiting] at h
    split_ifs at h
    · exact ⟨f, List.mem_cons_self, Option.some.inj h⟩
    · obtain ⟨g, hg, e⟩ := ih h
      exact ⟨g, List.mem_cons_of_mem _ hg, e⟩

/-- In TypeScript and Rust no second separator crosses when operators of different names are
different. -/
theorem noCross_of_names (hlang : lang ≠ .go)
    (hts : ∀ op op', .first op ∈ ts → .second op' ∈ ts → op.name = op'.name → op = op') :
    NoCross lang ts := by
  rintro us op s hus hs ⟨-, awaited, hawait, hne, hconf⟩
  obtain ⟨f, hf, rfl⟩ := mem_of_awaiting hawait
  have hfirst : .first f.op ∈ ts :=
    hus.subset (List.mem_append_left _ (first_mem_of_run hs f hf))
  have hsecond : .second op ∈ ts := hus.subset (List.mem_append_right _ List.mem_cons_self)
  refine hne (hts f.op op hfirst hsecond ?_)
  cases lang with
  | go => exact absurd rfl hlang
  | typescript | rust => exact hconf

/-- In every port, the separators of a sequence pair by operator exactly when no second separator
crosses another ternary that does not tell it apart. -/
theorem paired_iff (lang : Language) (ts : List (Tok α)) : Paired lang ts ↔ NoCross lang ts := by
  constructor
  · rintro h us op s hus hs ⟨hcur, awaited, hawait, hne, hconf⟩
    obtain ⟨y, hy⟩ := Option.ne_none_iff_exists'.1 hcur
    -- The separator is consumed, though the ternary awaits another one.
    obtain ⟨frames, hclose⟩ : ∃ frames, close lang op s.frames (.atom y) = some frames :=
      (close_eq_some_iff (shaped_run hs)).2 ⟨awaited, hawait, hconf⟩
    have hown := h.consumed us op s ⟨none, frames⟩ hus hs (by simp [step, hy, hclose])
    rw [hawait] at hown
    exact hne (Option.some.inj hown)
  · intro h
    refine ⟨fun us op s s' hus hs hstep => ?_, fun us a hts v => ⟨fun hv => ?_, ?_⟩⟩
    · obtain ⟨y, hcur, hstep⟩ := Option.bind_eq_some_iff.1 hstep
      obtain ⟨frames, hclose, rfl⟩ := Option.map_eq_some_iff.1 hstep
      obtain ⟨awaited, hawait, hconf⟩ := (close_eq_some_iff (shaped_run hs)).1 ⟨frames, hclose⟩
      by_contra hne
      refine h us op s hus hs ⟨by simp [hcur], awaited, hawait, ?_, hconf⟩
      rintro rfl
      exact hne hawait
    · obtain ⟨s, hs, hv⟩ := Option.bind_eq_some_iff.1 hv
      obtain ⟨y, hcur, hfinish⟩ := Option.bind_eq_some_iff.1 hv
      obtain ⟨us, hus, rfl⟩ := stateText_run h (List.prefix_refl ts) hs
      obtain ⟨t, hfits, hvt, ht⟩ := text_finish (t := .leaf y) trivial hus hfinish
      refine ⟨t, hfits, hvt, ?_⟩
      rw [← ht, hcur]
      rfl
    · rintro ⟨t, hfits, rfl, rfl⟩
      exact parse_write t hfits

/-- Two ternary operators: `? :` and `QQ CC`. -/
def question : Op := ⟨"foo-ternary", "?", .ternaryOp, minSafeInteger, maxSafeInteger⟩

def words : Op := ⟨"bar-ternary", "QQ", .ternaryOp, minSafeInteger, maxSafeInteger⟩

-- `a ? b : ? c : d`: the first ternary is the condition of the second
example : parse .rust [.val "a", .first question, .val "b", .second question, .first question,
    .val "c", .second question, .val "d"] = some (.ternary question
      [.ternary question [.atom "a", .atom "b"], .atom "c", .atom "d"]) := rfl

/-- `a ? b QQ c : d CC e` -/
def crossed : List (Tok String) :=
  [.val "a", .first question, .val "b", .first words, .val "c", .second question, .val "d",
    .second words, .val "e"]

/-- Go gives the inner ternary the separator of the outer one, and the outer one that of the inner
one; TypeScript and Rust refuse the source. -/
theorem crossed_separators_accepted :
    parse .go crossed = some (.ternary question [.atom "a",
      .ternary words [.atom "b", .atom "c", .atom "d"], .atom "e"]) ∧
    ¬ Paired .go crossed ∧ parse .typescript crossed = none ∧ parse .rust crossed = none := by
  refine ⟨rfl, fun h => ?_, rfl, rfl⟩
  have hstep : ∃ s', step .go ⟨some "c", [.opened .go words (.atom "b"), .opened .go question (.atom "a")]⟩
      (.second question) = some s' := ⟨_, rfl⟩
  obtain ⟨s', hs'⟩ := hstep
  have hown : some words = some question := h.consumed (crossed.take 5) question _ s'
    ⟨[.val "d", .second words, .val "e"], rfl⟩ rfl hs'
  exact absurd (Option.some.inj hown) (by decide)

end TabnasExpr.Ternaries
