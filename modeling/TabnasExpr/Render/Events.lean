import TabnasExpr.Defaults

/-!
# The trees a render writes

A tree of plain values, the events it is handed over as, and the lexemes of the document it is
written as.  A document is the list of its lexemes: how a string is quoted and a number spelled is the
host's, and no two scalars stand side by side.
-/

namespace TabnasExpr.Render

universe u

variable {ν : Type u}

/-- A number: a finite one by its magnitude and its sign. -/
inductive Number (ν : Type u) where
  | finite (negative : Bool) (n : ν)
  | infinity
  | negativeInfinity
  | nan
  deriving DecidableEq

/-- A scalar value. -/
inductive Scalar (ν : Type u) where
  | null
  | bool (b : Bool)
  | num (n : Number ν)
  | str (s : String)
  deriving DecidableEq

/-- A tree of values. -/
inductive Json (ν : Type u) where
  | scalar (s : Scalar ν)
  | list (xs : List (Json ν))
  | obj (ms : List (String × Json ν))

/-- The events of a tree. -/
inductive Event (ν : Type u) where
  | scalar (s : Scalar ν)
  | objectStart
  | objectEnd
  | key (name : String)
  | arrayStart
  | arrayEnd
  deriving DecidableEq

namespace Json

mutual

/-- The events of a tree, in order. -/
def events : Json ν → List (Event ν)
  | scalar s => [.scalar s]
  | list xs => .arrayStart :: (eventsAll xs ++ [.arrayEnd])
  | obj ms => .objectStart :: (eventsMembers ms ++ [.objectEnd])

/-- The events of the elements of a list. -/
def eventsAll : List (Json ν) → List (Event ν)
  | [] => []
  | x :: xs => events x ++ eventsAll xs

/-- The events of the members of an object. -/
def eventsMembers : List (String × Json ν) → List (Event ν)
  | [] => []
  | (k, x) :: ms => .key k :: (events x ++ eventsMembers ms)

end

end Json

/-- The source text of a default operator. -/
inductive Source where
  | plus
  | minus
  | star
  | slash
  | percent
  | paren
  deriving DecidableEq, Repr

/-- The text itself. -/
def Source.text : Source → String
  | plus => "+"
  | minus => "-"
  | star => "*"
  | slash => "/"
  | percent => "%"
  | paren => "("

/-- The default operator a text is the source of. -/
def Source.ofText (s : String) : Option Source :=
  match s with
  | "+" => some plus
  | "-" => some minus
  | "*" => some star
  | "/" => some slash
  | "%" => some percent
  | "(" => some paren
  | _ => none

theorem Source.ofText_eq_some_iff {s : String} {o : Source} : ofText s = some o ↔ s = o.text := by
  constructor
  · intro h
    unfold ofText at h
    split at h <;> cases h <;> rfl
  · rintro rfl
    cases o <;> rfl

/-- A lexeme of a document.  `true` and `false` are `bool`, and the opening paren is the operator's
source. -/
inductive Lexeme (ν : Type u) where
  | str (s : String)
  | num (n : ν)
  | bool (b : Bool)
  | null
  | op (o : Source)
  | closeParen
  | openList
  | closeList
  | openMap
  | closeMap
  | comma
  | colon
  | newline
  deriving DecidableEq

/-- A piece of a document. -/
abbrev Text (ν : Type u) := List (Lexeme ν)

end TabnasExpr.Render
