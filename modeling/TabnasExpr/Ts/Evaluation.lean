import TabnasExpr.Lib.Store
import TabnasExpr.Op

/-!
# Evaluation in the TypeScript port

`evaluation` reduces an expression tree with a callback.  Trees, lists and results are JavaScript
objects, held by identity, and the objects `evaluation` has returned are kept in the process-wide set
`EVALUATED`: an object found there is returned as it is.  The set outlives the call, so it is part of
the state.
-/

namespace TabnasExpr.Ts

variable {σ α : Type*}

/-- A JavaScript value. -/
inductive Value (α : Type*) where
  | undefined
  | null
  | scalar (a : α)
  | object (id : ℕ)
  deriving DecidableEq

/-- What an object holds: an operator and its terms, the elements of a plain array, or members. -/
inductive Object (α : Type*) where
  | expr (op : Op) (terms : List (Value α))
  | list (xs : List (Value α))
  | other (members : List (String × Value α))
  deriving DecidableEq

/-- `expr ?? null`. -/
def Value.orNull : Value α → Value α
  | .undefined => .null
  | v => v

/-- The identity of an object. -/
def Value.id? : Value α → Option ℕ
  | .object i => some i
  | _ => none

/-- The callback: it sees and changes the objects and whatever else is in its reach. -/
abbrev Evaluator (σ α : Type*) :=
  Op → List (Value α) → Store (Object α) → σ → Store (Object α) × σ × Value α

/-- One value `evaluation` has come to: a result of the callback, or the new array of a list. -/
inductive Event (α : Type*) where
  | evaluated (op : Op) (terms : List (Value α)) (v : Value α)
  | mapped (xs : List (Value α)) (v : Value α)
  deriving DecidableEq

/-- The value of an event. -/
def Event.value : Event α → Value α
  | .evaluated _ _ v => v
  | .mapped _ v => v

/-- The operator of a call of the callback. -/
def Event.called : Event α → Option Op
  | .evaluated op _ _ => some op
  | _ => none

/-- The objects, the rest of the callback's state, and the events of a call of `evaluation` so far. -/
structure World (σ α : Type*) where
  objects : Store (Object α)
  env : σ
  trace : List (Event α)

namespace World

variable (w : World σ α)

/-- `evaluate(rule, ctx, op, terms)`. -/
def call (E : Evaluator σ α) (op : Op) (terms : List (Value α)) : World σ α × Value α :=
  let r := E op terms w.objects w.env
  (⟨r.1, r.2.1, w.trace ++ [.evaluated op terms r.2.2]⟩, r.2.2)

/-- The new array of a `map`. -/
def array (xs : List (Value α)) : World σ α × Value α :=
  let r := w.objects.alloc (.list xs)
  (⟨r.1, w.env, w.trace ++ [.mapped xs (.object r.2)]⟩, .object r.2)

/-- The objects among the values of the call so far. -/
def produced : List ℕ := w.trace.filterMap fun e => e.value.id?

/-- The operators the callback was called with, in order. -/
def calls : List Op := w.trace.filterMap Event.called

end World

/-- The world, and the set `EVALUATED`. -/
structure State (σ α : Type*) where
  world : World σ α
  evaluated : List ℕ

/-- Return a value and add it to `EVALUATED`, which takes objects only. -/
def State.finish (s : State σ α) (r : World σ α × Value α) : State σ α × Value α :=
  (⟨r.1, r.2.id?.toList ++ s.evaluated⟩, r.2)

/-- The state in which a call of `evaluation` starts. -/
def State.start (objects : Store (Object α)) (env : σ) (evaluated : List ℕ) : State σ α :=
  ⟨⟨objects, env, []⟩, evaluated⟩

/-- `Array.prototype.map`, with a callback that changes the state. -/
def mapTerms (f : State σ α → Value α → Option (State σ α × Value α)) :
    State σ α → List (Value α) → Option (State σ α × List (Value α))
  | s, [] => some (s, [])
  | s, v :: vs => do
    let (s, u) ← f s v
    let (s, us) ← mapTerms f s vs
    some (s, u :: us)

/-- `evaluation(null, null, expr, evaluate)`.  `fuel` bounds the depth of the recursion. -/
def evaluation (evaluate : Evaluator σ α) :
    ℕ → State σ α → Value α → Option (State σ α × Value α)
  | 0, _, _ => none
  | fuel + 1, s, expr =>
    match expr with
    | .object i =>
      if i ∈ s.evaluated then some (s, .object i)
      else
        match s.world.objects.cell i with
        | some (.expr op terms) => do
          let (s, terms) ← mapTerms (evaluation evaluate fuel) s terms
          some (s.finish (s.world.call evaluate op terms))
        | some (.list xs) => do
          let (s, xs) ← mapTerms (evaluation evaluate fuel) s xs
          some (s.finish (s.world.array xs))
        | _ => some (s.finish (s.world, .object i))
    -- nothing but an object is ever added to the set
    | v => some (s.finish (s.world, v.orNull))

end TabnasExpr.Ts
