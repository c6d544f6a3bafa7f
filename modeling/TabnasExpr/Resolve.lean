import Mathlib.Data.List.Nodup
import Mathlib.Data.List.Sort
import TabnasExpr.Lib.Assoc
import TabnasExpr.Op

/-!
# Operator tables and their resolution

A parser is set up from a table of operator definitions.  Each port resolves a definition into the
operators the alternates look up by token: TypeScript and Rust make one operator for each kind flag
of the definition, Go makes one record and enters it in the map of every kind.  Token names and
numbers are the engine's; a source text stands for its token by a map `tin`.
-/

namespace TabnasExpr

universe u

variable {υ τ : Type u}

/-! ## Definitions -/

/-- The word for a kind in option tables and operator names. -/
def Kind.word : Kind → String
  | .prefixOp => "prefix"
  | .suffixOp => "suffix"
  | .infixOp => "infix"
  | .ternaryOp => "ternary"
  | .parenOp => "paren"

/-- The number of operands of an operator of a kind. -/
def Kind.terms : Kind → ℕ
  | .ternaryOp => 3
  | .infixOp => 2
  | _ => 1

/-- The `src` of a definition: a text, or the two texts of a ternary.  In Go the two are a list of
values (`[]interface{}`) or a list of strings (`[]string`). -/
inductive Source where
  | text (s : String)
  | pair (s₁ s₂ : String)
  | strings (s₁ s₂ : String)
  deriving DecidableEq

/-- The text that leads an operator. -/
def Source.first : Source → String
  | text s => s
  | pair s _ | strings s _ => s

/-- The second text of a ternary. -/
def Source.second : Source → String
  | text _ => ""
  | pair _ s | strings _ s => s

/-- There are two texts. -/
@[simp] def Source.isPair : Source → Bool
  | text _ => false
  | pair _ _ | strings _ _ => true

/-- The two texts are a list of strings in Go. -/
@[simp] def Source.isStrings : Source → Bool
  | strings _ _ => true
  | _ => false

/-- The `preval` of a definition: the shorthand, or its settings. -/
inductive PrevalDef where
  | shorthand (active : Bool)
  | settings (active required : Option Bool) (allow : Option (List String))
  deriving DecidableEq

/-- An entry of the option table, with the kind flags that are set and the custom data of `use`.  The
powers are whole numbers the number types of all ports hold; they are compared and copied only. -/
structure OpDef (υ : Type u) where
  src : Source
  osrc : String
  csrc : String
  left : Option ℤ
  right : Option ℤ
  kinds : List Kind
  preval : Option PrevalDef
  use : Option υ
  shape : src.isPair = true ↔ .ternaryOp ∈ kinds

/-- The source texts an operator of a definition is looked up by for one of its kinds.  A paren is looked
up by its closing text too, in a map of its own. -/
def OpDef.sources (d : OpDef υ) : Kind → List String
  | .parenOp => [d.osrc]
  | .ternaryOp => [d.src.first, d.src.second]
  | _ => [d.src.first]

/-- The pairs of a kind and a source text a definition is for. -/
def OpDef.keys (d : OpDef υ) : List (Kind × String) :=
  d.kinds.flatMap fun k => (d.sources k).map (k, ·)

/-- A table of named definitions, no two for one kind and one source text. -/
structure OpTable (υ : Type u) where
  entries : List (String × OpDef υ)
  distinct : (entries.flatMap fun e => e.2.keys).Nodup

/-- The closing texts of the parens of a table. -/
def OpTable.closers (T : OpTable υ) : List String :=
  (T.entries.filter fun e => .parenOp ∈ e.2.kinds).map fun e => e.2.csrc

/-! ## Resolved operators -/

/-- The preval settings of an operator. -/
structure Preval where
  active : Bool
  required : Bool
  allow : Option (List String)
  deriving DecidableEq

/-- The settings of an operator with no preval. -/
def noPreval : Preval := ⟨false, false, none⟩

/-- A resolved operator, with the kind flags that are set.  The `use` of a ternary also tells its two
texts apart (`use.ternary.opI`), which is `index` here. -/
structure Resolved (υ : Type u) where
  name : String
  src : String
  left : ℤ
  right : ℤ
  kinds : List Kind
  terms : ℕ
  use : Option υ
  index : Option ℕ
  osrc : String
  csrc : String
  preval : Preval
  deriving DecidableEq

/-- Assignments of operators to tokens, in order: the last one to a token stands. -/
abbrev OpMap (τ υ : Type u) := List (τ × Resolved υ)

/-- The operator of a token. -/
def OpMap.get [DecidableEq τ] (m : OpMap τ υ) (t : τ) : Option (Resolved υ) :=
  (m.reverse.find? fun b => b.1 = t).map Prod.snd

/-- A text ends with another. -/
def endsWith (s t : String) : Bool := t.toList.isSuffixOf s.toList

/-- The name of an operator: that of its definition, with its kind behind it unless it ends so. -/
def kindName (k : Kind) (name : String) : String :=
  let suffix := "-" ++ k.word
  name ++ if endsWith name suffix then "" else suffix

/-- `power || unset`: a power of zero is read as none. -/
def bindingPower (power : Option ℤ) (unset : ℤ) : ℤ :=
  match power with
  | none => unset
  | some p => if p = 0 then unset else p

section Makers

variable (tin : String → τ)

/-! ## TypeScript -/

namespace Ts

/-- The record `makeOpMap` writes for one kind.  The `use` and the `preval` of the definition are not
read. -/
def anyfixOp (k : Kind) (name : String) (d : OpDef υ) (src : String) (index : Option ℕ) :
    Resolved υ where
  name := kindName k name
  src := src
  left := bindingPower d.left minSafeInteger
  right := bindingPower d.right maxSafeInteger
  kinds := [k]
  terms := k.terms
  use := none
  index := index
  osrc := ""
  csrc := ""
  preval := noPreval

/-- `makeOpMap(token, fixed, op, anyfix)`. -/
def makeOpMap (k : Kind) (entries : List (String × OpDef υ)) : OpMap τ υ :=
  (entries.filter fun e => k ∈ e.2.kinds).flatMap fun e =>
    if k = .ternaryOp then
      [(tin e.2.src.first, anyfixOp k e.1 e.2 e.2.src.first (some 0)),
        (tin e.2.src.second, anyfixOp k e.1 e.2 e.2.src.second (some 1))]
    else [(tin e.2.src.first, anyfixOp k e.1 e.2 e.2.src.first none)]

/-- The preval of `makeParenMap`.  A `preval` that is there has no `active` of its own when it is a
truth value, and the list of `allow` is not read. -/
def parenPreval : Option PrevalDef → Preval
  | none => noPreval
  | some (.shorthand _) => ⟨true, false, none⟩
  | some (.settings active required _) => ⟨active.getD true, required.getD false, none⟩

/-- The record `makeParenMap` writes. -/
def parenOp (name : String) (d : OpDef υ) : Resolved υ where
  name := name ++ "-paren"
  src := d.osrc
  left := minSafeInteger
  right := maxSafeInteger
  kinds := [.parenOp]
  terms := 1
  use := none
  index := none
  osrc := d.osrc
  csrc := d.csrc
  preval := parenPreval d.preval

/-- `makeParenMap(token, fixed, optop)`. -/
def makeParenMap (entries : List (String × OpDef υ)) : OpMap τ υ :=
  (entries.filter fun e => .parenOp ∈ e.2.kinds).map fun e => (tin e.2.osrc, parenOp e.1 e.2)

end Ts

/-! ## Rust -/

namespace Rust

/-- The preval of `op_def_from_value`. -/
def prevalFromValue : Option PrevalDef → Option Preval
  | none => none
  | some (.shorthand active) => some ⟨active, false, none⟩
  | some (.settings active required allow) => some ⟨active.getD true, required.getD false, allow⟩

/-- The record `make_op_map` writes for one kind. -/
def anyfixOp (k : Kind) (name : String) (d : OpDef υ) (src : String) (index : Option ℕ) :
    Resolved υ where
  name := kindName k name
  src := src
  left := bindingPower d.left minSafeInteger
  right := bindingPower d.right maxSafeInteger
  kinds := [k]
  terms := k.terms
  use := d.use
  index := index
  osrc := ""
  csrc := ""
  preval := noPreval

/-- `make_op_map(parser, ops, anyfix)`. -/
def makeOpMap (k : Kind) (entries : List (String × OpDef υ)) : OpMap τ υ :=
  (entries.filter fun e => k ∈ e.2.kinds).flatMap fun e =>
    if k = .ternaryOp then
      [(tin e.2.src.first, anyfixOp k e.1 e.2 e.2.src.first (some 0)),
        (tin e.2.src.second, anyfixOp k e.1 e.2 e.2.src.second (some 1))]
    else [(tin e.2.src.first, anyfixOp k e.1 e.2 e.2.src.first none)]

/-- The record `make_paren_map` writes. -/
def parenOp (name : String) (d : OpDef υ) : Resolved υ where
  name := name ++ "-paren"
  src := d.osrc
  left := minSafeInteger
  right := maxSafeInteger
  kinds := [.parenOp]
  terms := 1
  use := d.use
  index := none
  osrc := d.osrc
  csrc := d.csrc
  preval := (prevalFromValue d.preval).getD noPreval

/-- `make_paren_map(parser, ops)`. -/
def makeParenMap (entries : List (String × OpDef υ)) : OpMap τ υ :=
  (entries.filter fun e => .parenOp ∈ e.2.kinds).map fun e => (tin e.2.osrc, parenOp e.1 e.2)

end Rust

/-! ## Go -/

namespace Go

/-- An operator with its tokens, where they are set. -/
structure TokenOp (τ υ : Type u) extends Resolved υ where
  tin : Option τ
  otin : Option τ
  ctin : Option τ

/-- The list of allowed values, which is nil when there is nothing in it. -/
def allowed : Option (List String) → Option (List String)
  | some (s :: ss) => some (s :: ss)
  | _ => none

/-- The preval of a paren in `makeAllOps`. -/
def parenPreval : Option PrevalDef → Preval
  | none => noPreval
  | some (.shorthand active) => ⟨active, false, none⟩
  | some (.settings active required allow) =>
    ⟨active.getD true, required.getD false, allowed allow⟩

/-- The kind an operator that is neither a paren nor a ternary is named after. -/
def nameKind (d : OpDef υ) : Kind :=
  if .prefixOp ∈ d.kinds then .prefixOp else if .suffixOp ∈ d.kinds then .suffixOp else .infixOp

/-- The fields `makeAllOps` fills whatever the kind. -/
def baseOp (name : String) (d : OpDef υ) : TokenOp τ υ where
  name := name
  src := ""
  left := bindingPower d.left minSafeInteger
  right := bindingPower d.right maxSafeInteger
  kinds := d.kinds
  terms := if .infixOp ∈ d.kinds then 2 else if .ternaryOp ∈ d.kinds then 3 else 1
  use := d.use
  index := none
  osrc := ""
  csrc := ""
  preval := noPreval
  tin := none
  otin := none
  ctin := none

/-- The two texts `makeAllOps` reads of a ternary: it looks for a list of values only. -/
def readPair : Source → String × String
  | .pair s₁ s₂ => (s₁, s₂)
  | _ => ("", "")

/-- One round of the loop of `makeAllOps`: a definition makes one record, and is read as a paren,
else as a ternary, else as the rest. -/
def makeOp (name : String) (d : OpDef υ) : TokenOp τ υ :=
  if .parenOp ∈ d.kinds then
    { (baseOp name d : TokenOp τ υ) with
      name := name ++ "-paren"
      osrc := d.osrc
      csrc := d.csrc
      preval := parenPreval d.preval
      otin := some (tin d.osrc)
      ctin := some (tin d.csrc) }
  else if .ternaryOp ∈ d.kinds then
    { (baseOp name d : TokenOp τ υ) with
      name := name ++ "-ternary"
      src := (readPair d.src).1
      csrc := (readPair d.src).2
      tin := some (tin (readPair d.src).1)
      ctin := some (tin (readPair d.src).2) }
  else
    { (baseOp name d : TokenOp τ υ) with
      name := kindName (nameKind d) name
      src := d.src.first
      tin := some (tin d.src.first) }

/-- `makeAllOps(j, eopts)`, in the order of the names. -/
def makeAllOps (entries : List (String × OpDef υ)) : List (TokenOp τ υ) :=
  (entries.insertionSort fun a b => a.1 ≤ b.1).map fun e => makeOp tin e.1 e.2

/-- The map of the operators with a flag by one of their tokens. -/
def byTin (k : Kind) (token : TokenOp τ υ → Option τ) (ops : List (TokenOp τ υ)) : OpMap τ υ :=
  (ops.filter fun op => k ∈ op.kinds).filterMap fun op => (token op).map (·, op.toResolved)

end Go

/-! ## What an alternate finds -/

variable [DecidableEq τ]

/-- The operator a port looks up for a source text where it expects a kind.  Go keeps the second
texts of ternaries in a map of their own. -/
def resolve (T : OpTable υ) (k : Kind) (s : String) : Language → Option (Resolved υ)
  | .typescript =>
    (if k = .parenOp then Ts.makeParenMap tin T.entries else Ts.makeOpMap tin k T.entries).get (tin s)
  | .rust =>
    (if k = .parenOp then Rust.makeParenMap tin T.entries
      else Rust.makeOpMap tin k T.entries).get (tin s)
  | .go =>
    let ops := Go.makeAllOps tin T.entries
    match k with
    | .parenOp => (Go.byTin k Go.TokenOp.otin ops).get (tin s)
    | .ternaryOp => ((Go.byTin k Go.TokenOp.tin ops).get (tin s)).or
        ((Go.byTin k Go.TokenOp.ctin ops).get (tin s))
    | _ => (Go.byTin k Go.TokenOp.tin ops).get (tin s)

/-- `parenCTM` and `paren_close`: the parens of the opening map, by their closing texts.  TypeScript goes
through them by their tokens and Rust as they were entered, which tells only where two of them close
alike. -/
def parenClose (parenOpen : OpMap τ υ) : OpMap τ υ :=
  (Assoc.setAll [] parenOpen).map fun b => (tin b.2.csrc, b.2)

/-- The operator a port looks up for the closing text of a paren. -/
def resolveClose (T : OpTable υ) (s : String) : Language → Option (Resolved υ)
  | .typescript => (parenClose tin (Ts.makeParenMap tin T.entries)).get (tin s)
  | .rust => (parenClose tin (Rust.makeParenMap tin T.entries)).get (tin s)
  | .go => (Go.byTin .parenOp Go.TokenOp.ctin (Go.makeAllOps tin T.entries)).get (tin s)

end Makers

/-! ## The preval alternates -/

/-- The value before a paren. -/
inductive Preceding where
  | null
  | text (s : String)
  | other
  deriving DecidableEq

/-- The text of a value, which is empty when it has none. -/
def Preceding.asText : Preceding → String
  | text s => s
  | _ => ""

/-- The open alternate of the val rule for a value and a paren: its condition. -/
def prevalOpens (p : Preval) (v : Preceding) : Language → Bool
  | .typescript =>
    p.active && match p.allow with
      | none => true
      | some l => match v with
        | .text s => l.contains s
        | _ => false
  | .rust =>
    p.active && match p.allow with
      | none => true
      | some l => l.contains v.asText
  | .go =>
    p.active && match p.allow with
      | none => true
      | some l => l.length = 0 || l.contains v.asText

/-- The close alternate of the val rule for a chained paren: its condition on the node so far, if
there is one. -/
def prevalChains (p : Preval) (node : Option Preceding) (L : Language) : Bool :=
  match node with
  | none => false
  -- Go takes a null node for none
  | some .null => L ≠ .go && prevalOpens p .null L
  | some v => prevalOpens p v L

end TabnasExpr
