import TabnasExpr.Render.Events

/-!
# What a value is written as

A value of a held list is an item: the text it is written as, its class among the operations, its text
as a list, for a term that needs grouping, and the operator it names.
-/

namespace TabnasExpr.Render

universe u

variable {ν : Type u}

/-- How tightly the text of a value binds: an operation of `+` or `-`, one of `*`, `/` or `%`, or any
other value. -/
inductive Class where
  | infix2
  | infix3
  | atom
  deriving DecidableEq, Repr

/-- A written value. -/
structure Item (ν : Type u) where
  text : Text ν
  cls : Class
  list : Text ν
  head : Option Source
  deriving DecidableEq

/-- A value that is written in one way only. -/
def Item.atom (text : Text ν) (head : Option Source) : Item ν := ⟨text, .atom, text, head⟩

/-- The operator a value is, when it is the source of a default one. -/
def exprOp : Scalar ν → Option Source
  | .str s => Source.ofText s
  | _ => none

/-- A number: its lexeme, or as JSON writes it; one that is not finite as a string. -/
def exprNumber : Number ν → Text ν
  | .finite false n => [.num n]
  | .finite true n => [.op .minus, .num n]
  | .infinity => [.str "Infinity"]
  | .negativeInfinity => [.str "-Infinity"]
  | .nan => [.str "NaN"]

def exprScalarText : Scalar ν → Text ν
  | .str s => [.str s]
  | .num n => exprNumber n
  | .bool b => [.bool b]
  | .null => [.null]

def exprScalarItem (s : Scalar ν) : Item ν := .atom (exprScalarText s) (exprOp s)

/-! ## Objects that describe an operator -/

/-- The operator a held object's member describes, from its text. -/
def exprSrcOp : Text ν → Option Source
  | [.str "src", .colon, .str s] => Source.ofText s
  | _ => none

/-- Whether a held object's member is its `src`. -/
def exprIsSrc : Text ν → Bool
  | .str "src" :: .colon :: _ => true
  | _ => false

/-- The text of a `src` member's value, what follows its key and colon. -/
def exprSrcValue (part : Text ν) : Text ν := part.drop 2

/-- Whether a simplifier takes a list led by an object for an operation, the object's `src` written as
this text.  A text is a number's with or without a sign, and a signed one reads back as an
operation. -/
def exprSrcRead [Zero ν] [DecidableEq ν] : Text ν → Bool
  | [.str ""] => false
  | [.bool false] => false
  | [.null] => false
  | [.num n] => n ≠ 0
  | _ => true

/-- What a held object makes of a list it leads. -/
inductive Described (ν : Type u) where
  | none
  | op (o : Source)
  | foreign (src : Text ν)
  deriving DecidableEq

def exprSrcOf [Zero ν] [DecidableEq ν] (parts : List (Text ν)) : Described ν :=
  match (parts.filter exprIsSrc).getLast? with
  | Option.none => .none
  | some part =>
    match exprSrcOp part with
    | some o => .op o
    | Option.none =>
      if exprSrcRead (exprSrcValue part) then .foreign (exprSrcValue part) else .none

/-- The operator an object describes. -/
def Described.head : Described ν → Option Source
  | op o => some o
  | _ => Option.none

/-! ## Lists -/

/-- An item as its list holds it: the first one, where it is an operator, as that operator's text. -/
def exprLead (items : List (Item ν)) (item : Item ν) : Item ν :=
  match items with
  | [] =>
    match item.head with
    | none => item
    | some o => exprScalarItem (.str o.text)
  | _ :: _ => item

/-- An infix operator's class. -/
def exprLevel : Source → Class
  | .plus => .infix2
  | .minus => .infix2
  | _ => .infix3

/-- Texts with a separator between them. -/
def joinText (sep : Text ν) : List (Text ν) → Text ν
  | [] => []
  | [t] => t
  | t :: ts => t ++ sep ++ joinText sep ts

theorem joinText_cons_cons (sep t u : Text ν) (ts : List (Text ν)) :
    joinText sep (t :: u :: ts) = t ++ sep ++ joinText sep (u :: ts) := rfl

/-- A held list's elements written as a list. -/
def exprList (items : List (Item ν)) : Text ν :=
  .openList :: (joinText [.comma] (items.map Item.text) ++ [.closeList])

/-- A left term of an infix operator of the class given. -/
def exprLeft (item : Item ν) (level : Class) : Text ν :=
  match item.cls with
  | .atom => item.text
  | .infix3 => item.text
  | .infix2 =>
    match level with
    | .infix2 => item.text
    | _ => item.list

/-- A right term. -/
def exprRight (item : Item ν) (level : Class) : Text ν :=
  match item.cls with
  | .atom => item.text
  | .infix3 =>
    match level with
    | .infix2 => item.text
    | _ => item.list
  | .infix2 => item.list

/-- A prefix operator's term. -/
def exprTerm (item : Item ν) : Text ν :=
  match item.cls with
  | .atom => item.text
  | _ => item.list

/-- An infix operation, when the first element is an infix operator. -/
def exprInfix (op : Option Source) (a b : Item ν) (list : Text ν) : Item ν :=
  match op with
  | none => .atom list none
  | some .paren => .atom list none
  | some o =>
    ⟨exprLeft a (exprLevel o) ++ .op o :: exprRight b (exprLevel o), exprLevel o, list, none⟩

/-- A held list, ended: an operation where its first element and its count make one, and a list
otherwise. -/
def exprArray (items : List (Item ν)) : Item ν :=
  let list := exprList items
  match items with
  | [i] =>
    match i.head with
    | some .paren => ⟨[.op .paren, .closeParen], .atom, list, none⟩
    | _ => .atom list none
  | [i, x] =>
    match i.head with
    | some .paren => ⟨.op .paren :: (x.text ++ [.closeParen]), .atom, list, none⟩
    | some .plus => ⟨.op .plus :: exprTerm x, .atom, list, none⟩
    | some .minus => ⟨.op .minus :: exprTerm x, .atom, list, none⟩
    | _ => .atom list none
  | [i, a, b] => exprInfix i.head a b list
  | _ => .atom list none

/-- The text of an object, from its members' texts. -/
def mapText (parts : List (Text ν)) : Text ν :=
  .openMap :: (joinText [.comma] parts ++ [.closeMap])

/-- A list whose first element is no operator is written as a list. -/
theorem exprArray_of_head {items : List (Item ν)} (h : ∀ i ∈ items.head?, i.head = none) :
    exprArray items = .atom (exprList items) none := by
  match items with
  | [] => rfl
  | [i] => simp [exprArray, h i rfl]
  | [i, x] => simp [exprArray, h i rfl]
  | [i, a, b] => simp [exprArray, exprInfix, h i rfl]
  | _ :: _ :: _ :: _ :: _ => rfl

end TabnasExpr.Render
