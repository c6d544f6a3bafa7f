import TabnasExpr.Render.Index
import TabnasExpr.Render.Items

/-!
# The streaming render

The state is a stack of markers, one for each container the render is inside, and an event changes it
and writes texts.  A list whose first element may be an operator is held until it ends, and everything
else is written as it is read.
-/

namespace TabnasExpr.Render

universe u

variable {ν : Type u}

/-- How a list whose first element is due is written. -/
inductive Mode where
  | stream
  | hold
  deriving DecidableEq, Repr

/-- A container the render is inside. -/
inductive Marker (ν : Type u) where
  /-- The first element is due, which decides how the list is written. -/
  | pending (mode : Mode)
  /-- The first element, an object, is being held. -/
  | listFirst
  /-- A list written as it is read, and the index of the last element, empty before it. -/
  | listStream (index : List Digit)
  | listHold (items : List (Item ν))
  /-- An object written as it is read, its first key or its end due. -/
  | mapStreamFirst
  | mapStreamValue (k : String)
  | mapStreamAfter (k : String)
  | mapHoldKey (parts : List (Text ν))
  | mapHoldValue (parts : List (Text ν)) (k : String)
  /-- The root value is written. -/
  | done

/-- The markers, the innermost first. -/
abbrev State (ν : Type u) := List (Marker ν)

/-- A part of a path in jq's syntax. -/
inductive PathPart where
  | dot
  | element (index : List Digit)
  | count (n : ℕ)
  /-- A member whose key is a word. -/
  | name (k : String)
  /-- A member whose key is written quoted. -/
  | quoted (k : String)
  deriving DecidableEq, Repr

/-- Why a render fails. -/
inductive Failure (ν : Type u) where
  | protocolOrder (message : String)
  /-- The object at the path leads a list and has a `src` the reader would read as its operator. -/
  | unrepresentable (path : List PathPart) (src : Text ν)
  /-- No case of a match applies. -/
  | noCase

/-- What an event leaves: the next state, and the texts written. -/
abbrev Transition (ν : Type u) := Except (Failure ν) (State ν × List (Text ν))

/-! ## Paths -/

def isWordChar (c : Char) : Bool :=
  (48 ≤ c.toNat && c.toNat ≤ 57) || (65 ≤ c.toNat && c.toNat ≤ 90) || c.toNat == 95 ||
    (97 ≤ c.toNat && c.toNat ≤ 122)

/-- A key as a path writes it: bare where it is a word that no digit leads. -/
def exprPathKey (k : String) : PathPart :=
  match k.toList with
  | [] => .quoted k
  | c :: cs => if (c :: cs).all isWordChar && !c.isDigit then .name k else .quoted k

def exprPathPart : Marker ν → Option PathPart
  | .listFirst => some (.element firstIndex)
  | .listStream index => some (.element index)
  | .listHold items => some (.count items.length)
  | .mapStreamAfter k => some (exprPathKey k)
  | .mapHoldValue _ k => some (exprPathKey k)
  | _ => none

/-- Whether a path through the marker begins with a name. -/
def Marker.isMap : Marker ν → Bool
  | mapStreamFirst => true
  | mapStreamAfter _ => true
  | mapHoldKey _ => true
  | mapHoldValue _ _ => true
  | _ => false

/-- The path to the value being read, from the outermost marker in. -/
def exprPathText (s : State ν) : Option (List PathPart) :=
  (s.reverse.mapM exprPathPart).map fun parts =>
    if s.getLast?.any Marker.isMap then parts else .dot :: parts

def exprRefuse (s : State ν) (src : Text ν) : Failure ν :=
  match exprPathText s with
  | some path => .unrepresentable path src
  | none => .noCase

/-! ## Values -/

def exprMark (marker : Marker ν) (s : State ν) : State ν := marker :: s.tail

def exprPushOrDone (s : State ν) (inner : Option (Marker ν)) (out : List (Text ν)) : Transition ν :=
  match inner with
  | none =>
    match s with
    | [] => .ok ([.done], out ++ [[.newline]])
    | _ => .ok (s, out)
  | some marker => .ok (marker :: s, out)

/-- A value written where it is read: the text it writes now, and the marker it opens. -/
def exprStreamValue (s : State ν) (text : Text ν) (inner : Option (Marker ν)) : Transition ν :=
  match s with
  | [] => exprPushOrDone [] inner [text]
  | .listStream [] :: _ => exprPushOrDone (exprMark (.listStream firstIndex) s) inner [text]
  | .listStream index :: _ =>
    match exprCountUp index with
    | some index => exprPushOrDone (exprMark (.listStream index) s) inner [[.comma], text]
    | none => .error .noCase
  | .mapStreamValue k :: _ => exprPushOrDone (exprMark (.mapStreamAfter k) s) inner [text]
  | _ => .error .noCase

/-- A value completed inside a held list or object. -/
def exprHoldValue (s : State ν) (item : Item ν) : Transition ν :=
  match s with
  | .listHold items :: _ => .ok (exprMark (.listHold (items ++ [exprLead items item])) s, [])
  | .mapHoldValue parts k :: _ =>
    .ok (exprMark (.mapHoldKey (parts ++ [.str k :: .colon :: item.text])) s, [])
  | _ => .error .noCase

/-- A list whose first element, an object, has ended. -/
def exprFirstHeld (s : State ν) (item : Item ν) : Transition ν :=
  match item.head with
  | none => .ok (exprMark (.listStream firstIndex) s, [[.openList], item.text])
  | some _ => .ok (exprMark (.listHold [exprLead [] item]) s, [])

/-- A container written as it was read has ended. -/
def exprClosed (s : State ν) (text : Text ν) : Transition ν :=
  match s with
  | [] => .ok ([.done], [text, [.newline]])
  | _ => .ok (s, [text])

/-- A held value has ended. -/
def exprHeld (s : State ν) (item : Item ν) : Transition ν :=
  match s with
  | .listHold _ :: _ => exprHoldValue s item
  | .mapHoldKey _ :: _ => exprHoldValue s item
  | .mapHoldValue _ _ :: _ => exprHoldValue s item
  | .listFirst :: _ => exprFirstHeld s item
  | _ => exprClosed s item.text

/-- Whether the top of the stack holds what is read. -/
def exprHolding : State ν → Bool
  | .listHold _ :: _ => true
  | .mapHoldKey _ :: _ => true
  | .mapHoldValue _ _ :: _ => true
  | .listFirst :: _ => true
  | _ => false

/-- A list whose first element is due decides on that element's first event: its marker, and the text
it writes. -/
def exprDecide (s : State ν) (mode : Mode) (event : Event ν) : State ν × Text ν :=
  match mode, event with
  | .stream, .scalar value =>
    match exprOp value with
    | none => (exprMark (.listStream []) s, [.openList])
    | some _ => (exprMark (.listHold []) s, [])
  | .stream, .objectStart => (exprMark .listFirst s, [])
  | .stream, _ => (exprMark (.listStream []) s, [.openList])
  | .hold, _ => (exprMark (.listHold []) s, [])

/-- A value where one is due: a scalar, or a container's start. -/
def exprValue (s : State ν) (event : Event ν) : Transition ν :=
  match exprHolding s, event with
  | true, .scalar value => exprHoldValue s (exprScalarItem value)
  | true, .objectStart => .ok (.mapHoldKey [] :: s, [])
  | true, .arrayStart => .ok (.pending .hold :: s, [])
  | false, .scalar value => exprStreamValue s (exprScalarText value) none
  | false, .objectStart => exprStreamValue s [.openMap] (some .mapStreamFirst)
  | false, .arrayStart => exprStreamValue s [] (some (.pending .stream))
  | _, _ => .error .noCase

/-- The first element of a list, once the list has decided. -/
def exprFirst (s : State ν) (mode : Mode) (event : Event ν) : Transition ν :=
  let (s, lead) := exprDecide s mode event
  match exprValue s event with
  | .ok (s, []) => .ok (s, [lead])
  | .ok (s, [text]) => .ok (s, [lead ++ text])
  | .ok _ => .error .noCase
  | .error failure => .error failure

/-! ## Ends and keys -/

/-- A list ends; a held one's item is added or written. -/
def exprClose (s : State ν) (marker : Marker ν) : Transition ν :=
  match marker with
  | .pending .stream => exprClosed s.tail [.openList, .closeList]
  | .pending .hold => exprHeld s.tail (.atom [.openList, .closeList] none)
  | .listStream _ => exprClosed s.tail [.closeList]
  | .listHold items => exprHeld s.tail (exprArray items)
  | _ => .error .noCase

def exprKey (s : State ν) (name : String) : Transition ν :=
  match s with
  | .mapStreamFirst :: _ => .ok (exprMark (.mapStreamValue name) s, [[.str name], [.colon]])
  | .mapStreamAfter _ :: _ =>
    .ok (exprMark (.mapStreamValue name) s, [[.comma], [.str name], [.colon]])
  | .mapHoldKey parts :: _ => .ok (exprMark (.mapHoldValue parts name) s, [])
  | _ => .error (.protocolOrder
      "the events hold a key where a value is due, which a tree's never do")

/-- Whether the top of the stack is a list whose first element is due. -/
def exprLeadsList : State ν → Bool
  | .listFirst :: _ => true
  | .listHold [] :: _ => true
  | _ => false

/-- The item of a held object. -/
def exprObject [Zero ν] [DecidableEq ν] (parts : List (Text ν)) : Item ν :=
  .atom (mapText parts) (exprSrcOf parts).head

def exprObjectEnd [Zero ν] [DecidableEq ν] (s : State ν) : Transition ν :=
  match s with
  | .mapStreamFirst :: s => exprClosed s [.closeMap]
  | .mapStreamAfter _ :: s => exprClosed s [.closeMap]
  | .mapHoldKey parts :: s =>
    match exprSrcOf parts with
    | .foreign src =>
      if exprLeadsList s then .error (exprRefuse s src) else exprHeld s (.atom (mapText parts) none)
    | described => exprHeld s (.atom (mapText parts) described.head)
  | _ => .error (.protocolOrder
      "the events end an object that is not open, or one whose member has no value, which a tree's never do")

def exprArrayEnd (s : State ν) : Transition ν :=
  match s with
  | .pending mode :: _ => exprClose s (.pending mode)
  | .listStream index :: _ => exprClose s (.listStream index)
  | .listHold items :: _ => exprClose s (.listHold items)
  | _ => .error (.protocolOrder "the events end an array that is not open, which a tree's never do")

/-! ## Events -/

/-- Where a value is due: at the root, in a list, or after a key. -/
def exprDue (s : State ν) (event : Event ν) : Transition ν :=
  match s with
  | [] => exprValue s event
  | .pending mode :: _ => exprFirst s mode event
  | .listStream _ :: _ => exprValue s event
  | .listHold _ :: _ => exprValue s event
  | .mapStreamValue _ :: _ => exprValue s event
  | .mapHoldValue _ _ :: _ => exprValue s event
  | _ => .error (.protocolOrder
      "the events hold a value where a key is due, which a tree's never do")

def exprStep [Zero ν] [DecidableEq ν] (s : State ν) (event : Event ν) : Transition ν :=
  match s, event with
  | .done :: _, _ => .error (.protocolOrder
      "the events hold more after the root value, which a tree's never do")
  | s, .key name => exprKey s name
  | s, .objectEnd => exprObjectEnd s
  | s, .arrayEnd => exprArrayEnd s
  | s, event => exprDue s event

def exprFinish : State ν → Except (Failure ν) (List (Text ν))
  | .done :: _ => .ok []
  | [] => .error (.protocolOrder "the events hold no value, where a tree's hold one")
  | _ => .error (.protocolOrder "the events ended inside a container, which a tree's never do")

/-- The events one after another, and the texts they write, joined. -/
def scan [Zero ν] [DecidableEq ν] : State ν → List (Event ν) → Except (Failure ν) (State ν × Text ν)
  | s, [] => .ok (s, [])
  | s, event :: events =>
    (exprStep s event).bind fun (s, out) =>
      (scan s events).map fun (s, text) => (s, out.flatten ++ text)

/-- The render: a tree's events in, the expression document's text out. -/
def exprRender [Zero ν] [DecidableEq ν] (events : List (Event ν)) : Except (Failure ν) (Text ν) :=
  (scan [] events).bind fun (s, text) => (exprFinish s).map fun out => text ++ out.flatten

end TabnasExpr.Render
