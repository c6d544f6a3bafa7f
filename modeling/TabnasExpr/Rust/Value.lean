import TabnasExpr.Lib.Store
import TabnasExpr.Lib.Walk
import TabnasExpr.Resolve

/-!
# Values with expression handles

The Rust port keeps the nodes of an expression in an arena, and a handle in a parsed value is a list
whose meta data names a node.  `realize` puts the nodes in the place of their handles, and
`simplify` reduces a value to source texts and terms, whether it has handles or is realized.  A node
met inside itself is reported, and the walk stops at a handle whose node the arena no longer holds.
-/

namespace TabnasExpr.Rust

universe u

/-- The numbers a value holds, as far as the arena reads and writes them. -/
class Double (ν : Type u) where
  ofInt : ℤ → ν
  asU64 : ν → ℕ

instance : Double ℤ := ⟨id, Int.toNat⟩

/-- A parsed value. -/
inductive Value (ν : Type u) where
  | undefined
  | null
  | bool (b : Bool)
  | number (n : ν)
  | string (s : String)
  | text (s quote : String)
  | array (xs : List (Value ν))
  | object (ms : List (String × Value ν))
  | listRef (xs : List (Value ν)) (implicit : Bool) (child : Option (Value ν))
    (metas : List (String × Value ν))
  | mapRef (ms : List (String × Value ν)) (implicit : Bool) (metas : List (String × Value ν))

variable {ν : Type u}

namespace Value

/-- A property of every value, from what a walk goes on to: elements and members, but neither the
child nor the meta data of a container. -/
theorem induction {P : Value ν → Prop} (undefined : P .undefined) (null : P .null)
    (bool : ∀ b, P (.bool b)) (number : ∀ n, P (.number n)) (string : ∀ s, P (.string s))
    (text : ∀ s q, P (.text s q)) (array : ∀ xs, (∀ x ∈ xs, P x) → P (.array xs))
    (object : ∀ ms, (∀ m ∈ ms, P m.2) → P (.object ms))
    (listRef : ∀ xs implicit child metas, (∀ x ∈ xs, P x) → P (.listRef xs implicit child metas))
    (mapRef : ∀ ms implicit metas, (∀ m ∈ ms, P m.2) → P (.mapRef ms implicit metas)) (v : Value ν) :
    P v :=
  match v with
  | .undefined => undefined
  | .null => null
  | .bool b => bool b
  | .number n => number n
  | .string s => string s
  | .text s q => text s q
  | .array xs => array xs (all xs)
  | .object ms => object ms (members ms)
  | .listRef xs implicit child metas => listRef xs implicit child metas (all xs)
  | .mapRef ms implicit metas => mapRef ms implicit metas (members ms)
where
  all : ∀ xs : List (Value ν), ∀ x ∈ xs, P x
  | [] => by simp
  | x :: xs => by
    rintro y (_ | ⟨_, hy⟩)
    · exact induction undefined null bool number string text array object listRef mapRef x
    · exact all xs y hy
  members : ∀ ms : List (String × Value ν), ∀ m ∈ ms, P m.2
  | [] => by simp
  | (k, x) :: ms => by
    rintro m (_ | ⟨_, hm⟩)
    · exact induction undefined null bool number string text array object listRef mapRef x
    · exact members ms m hm

/-- `value.is_undefined()`. -/
def isUndefined : Value ν → Bool
  | .undefined => true
  | _ => false

theorem eq_undefined {x : Value ν} (hx : x.isUndefined = true) : x = .undefined := by
  cases x <;> simp [isUndefined] at hx ⊢

/-- A member of an object (`object_get`). -/
def get (key : String) : Value ν → Option (Value ν)
  | .object ms => ms.lookup key
  | .mapRef ms _ _ => ms.lookup key
  | _ => none

/-- The text a member is, when there is something in it. -/
def sourceText : Option (Value ν) → Option String
  | some (.string src) => if src = "" then none else some src
  | _ => none

/-- The source text of a realized operator description, when a value is one. -/
def realizedSource (v : Option (Value ν)) : Option String := sourceText (v.bind (get "src"))

/-- What stands for a node inside itself. -/
def circle : Value ν := .string "[CIRCLE]"

variable [Double ν]

/-- The node a value is a handle of. -/
def nodeId : Value ν → Option ℕ
  | .listRef _ _ _ metas =>
    match metas.lookup "expr" with
    | some (.number id) => some (Double.asU64 id)
    | _ => none
  | _ => none

/-- The handle of a node (`handle_for`). -/
def handleFor (id : ℕ) : Value ν := .listRef [] false none [("expr", .number (Double.ofInt id))]

end Value

/-! ## Nodes -/

/-- An operator description, with the data of `use` and the tokens of its sources. -/
structure Description (ν : Type u) where
  name : String
  src : String
  left : ℤ
  right : ℤ
  useData : Value ν
  kinds : List Kind
  terms : ℕ
  tkn : String
  tin : ℤ
  osrc : String
  csrc : String
  otkn : String
  otin : ℤ
  ctkn : String
  ctin : ℤ
  preval : Preval
  ternaryIndex : Option ℕ

/-- The token an operator occurs as. -/
structure Token where
  name : String
  tin : ℤ
  src : String
  len : ℕ
  pos : ℕ
  ri : ℕ
  ci : ℕ

/-- An expression node. -/
structure ValueNode (ν : Type u) where
  op : Option (Description ν)
  token : Option Token
  terms : List (Value ν)

section Serialized

variable [Double ν]

/-- The number of an integer. -/
def numberOf (n : ℤ) : Value ν := .number (Double.ofInt n)

/-- `token_value(token)`. -/
def tokenValue : Option Token → Value ν
  | none => .object []
  | some t => .object [("isToken", .bool true), ("name", .string t.name), ("tin", numberOf t.tin),
      ("src", .string t.src), ("len", numberOf t.len), ("sI", numberOf t.pos), ("rI", numberOf t.ri),
      ("cI", numberOf t.ci)]

/-- The members of the custom data. -/
def Description.useMembers (op : Description ν) : List (String × Value ν) :=
  match op.useData with
  | .object ms => ms
  | _ => []

/-- Set a member, in its place if there is one. -/
def insertMember (key : String) (v : Value ν) : List (String × Value ν) → List (String × Value ν)
  | [] => [(key, v)]
  | m :: ms => if m.1 = key then (key, v) :: ms else m :: insertMember key v ms

/-- `use_value`: a ternary also tells which of its two texts it is. -/
def Description.useValue (op : Description ν) : Value ν :=
  match op.ternaryIndex with
  | none => .object op.useMembers
  | some i => .object (insertMember "ternary" (.object [("opI", numberOf i)]) op.useMembers)

/-- `preval_value`. -/
def Description.prevalValue (op : Description ν) : Value ν :=
  .object ([("active", .bool op.preval.active), ("required", .bool op.preval.required)] ++
    (op.preval.allow.map fun l => ("allow", .array (l.map .string))).toList)

/-- `op.to_value(token)`. -/
def Description.toValue (op : Description ν) (token : Option Token) : Value ν :=
  .object [("src", .string op.src), ("left", numberOf op.left), ("right", numberOf op.right),
    ("name", .string op.name), ("infix", .bool (op.kinds.contains .infixOp)),
    ("prefix", .bool (op.kinds.contains .prefixOp)), ("suffix", .bool (op.kinds.contains .suffixOp)),
    ("ternary", .bool (op.kinds.contains .ternaryOp)), ("tkn", .string op.tkn), ("tin", numberOf op.tin),
    ("terms", numberOf op.terms), ("use", op.useValue), ("paren", .bool (op.kinds.contains .parenOp)),
    ("osrc", .string op.osrc), ("csrc", .string op.csrc), ("otkn", .string op.otkn),
    ("ctkn", .string op.ctkn), ("otin", numberOf op.otin), ("ctin", numberOf op.ctin),
    ("preval", op.prevalValue), ("token", tokenValue token)]

end Serialized

/-! ## Realizing -/

namespace Value

variable [Double ν]

mutual

/-- The walk of `realize_seen` through a value; `node` is what it does at a handle. -/
def realizeSeen (node : ℕ → Option (Value ν)) : Value ν → Option (Value ν)
  | .listRef xs implicit child metas =>
    match nodeId (.listRef xs implicit child metas) with
    | none => (realizeAll node xs).map fun xs => .listRef xs implicit child metas
    | some id => node id
  | .array xs => (realizeAll node xs).map .array
  | .object ms => (realizeMembers node ms).map .object
  | .mapRef ms implicit metas => (realizeMembers node ms).map fun ms => .mapRef ms implicit metas
  | other => some other

def realizeAll (node : ℕ → Option (Value ν)) : List (Value ν) → Option (List (Value ν))
  | [] => some []
  | x :: xs => do
    let y ← realizeSeen node x
    let ys ← realizeAll node xs
    some (y :: ys)

def realizeMembers (node : ℕ → Option (Value ν)) :
    List (String × Value ν) → Option (List (String × Value ν))
  | [] => some []
  | (k, x) :: ms => do
    let y ← realizeSeen node x
    let ns ← realizeMembers node ms
    some ((k, y) :: ns)

end

/-! ## Simplifying -/

mutual

/-- The walk of `simplify_seen` through a value. -/
def simplifySeen (node : ℕ → Option (Value ν)) : Value ν → Option (Value ν)
  | .listRef xs implicit child metas =>
    match nodeId (.listRef xs implicit child metas) with
    | none => (simplifyAll node xs).map .array
    | some id => node id
  | .array [] => some (.array [])
  | .array (x :: xs) =>
    match realizedSource (some x) with
    | some src => (simplifyFilled node xs).map fun ys => .array (.string src :: ys)
    | none => do
      let y ← simplifySeen node x
      let ys ← simplifyAll node xs
      some (.array (y :: ys))
  | .object ms => (simplifyMembers node ms).map .object
  | .mapRef ms _ _ => (simplifyMembers node ms).map .object
  | .text s _ => some (.string s)
  | other => some other

def simplifyAll (node : ℕ → Option (Value ν)) : List (Value ν) → Option (List (Value ν))
  | [] => some []
  | x :: xs => do
    let y ← simplifySeen node x
    let ys ← simplifyAll node xs
    some (y :: ys)

/-- The elements of a list but the undefined ones. -/
def simplifyFilled (node : ℕ → Option (Value ν)) : List (Value ν) → Option (List (Value ν))
  | [] => some []
  | .undefined :: xs => simplifyFilled node xs
  | x :: xs => do
    let y ← simplifySeen node x
    let ys ← simplifyFilled node xs
    some (y :: ys)

def simplifyMembers (node : ℕ → Option (Value ν)) :
    List (String × Value ν) → Option (List (String × Value ν))
  | [] => some []
  | (k, x) :: ms => do
    let y ← simplifySeen node x
    let ns ← simplifyMembers node ms
    some ((k, y) :: ns)

end

/-! ## Handles -/

variable (A : Store (ValueNode ν))

/-- What `realize_seen` does at a handle, inside of the nodes `opened`. -/
def realizeNode : ℕ → List ℕ → ℕ → Option (Value ν)
  | 0, _, _ => none
  | fuel + 1, opened, id =>
    if id ∈ opened then some circle
    else
      match A.cell id with
      | none => none
      | some entry =>
        (realizeAll (realizeNode fuel (id :: opened)) entry.terms).map fun ts =>
          .array ((entry.op.map (Description.toValue · entry.token)).toList ++ ts)

/-- What `simplify_seen` does at a handle. -/
def simplifyNode : ℕ → List ℕ → ℕ → Option (Value ν)
  | 0, _, _ => none
  | fuel + 1, opened, id =>
    if id ∈ opened then some circle
    else
      match A.cell id with
      | none => none
      | some entry =>
        (simplifyFilled (simplifyNode fuel (id :: opened)) entry.terms).map fun ts =>
          .array ((entry.op.map fun op => .string op.src).toList ++ ts)

/-- `realize(value)`, unless a handle is met whose node is gone.  No more nodes can be inside of one
another than there are numbers handed out. -/
def realize (v : Value ν) : Option (Value ν) := realizeSeen (realizeNode A (A.last + 2) []) v

/-- `simplify(value)`. -/
def simplify (v : Value ν) : Option (Value ν) := simplifySeen (simplifyNode A (A.last + 2) []) v

/-! ## The nodes a walk comes to -/

mutual

/-- The nodes a walk through a value comes to handles of. -/
def handles : Value ν → List ℕ
  | .listRef xs implicit child metas =>
    match nodeId (.listRef xs implicit child metas) with
    | none => handlesAll xs
    | some id => [id]
  | .array xs => handlesAll xs
  | .object ms => handlesMembers ms
  | .mapRef ms _ _ => handlesMembers ms
  | _ => []

def handlesAll : List (Value ν) → List ℕ
  | [] => []
  | x :: xs => handles x ++ handlesAll xs

def handlesMembers : List (String × Value ν) → List ℕ
  | [] => []
  | (_, x) :: ms => handles x ++ handlesMembers ms

end

/-- The nodes the terms of a node name. -/
def links (i : ℕ) : List ℕ := (A.cell i).elim [] fun entry => handlesAll entry.terms

/-- The arena holds the node, and every node at or below it. -/
def LiveNode (i : ℕ) : Prop := ∀ j, Walk.Reaches (links A) i j → A.cell j ≠ none

/-- The handles of a value are live. -/
def Live (v : Value ν) : Prop := ∀ i ∈ handles v, LiveNode A i

omit A in
theorem mem_handlesAll {xs : List (Value ν)} {i : ℕ} :
    i ∈ handlesAll xs ↔ ∃ x ∈ xs, i ∈ handles x := by
  induction xs with
  | nil => simp [handlesAll]
  | cons x xs ih => simp [handlesAll, ih]

omit A in
theorem mem_handlesMembers {ms : List (String × Value ν)} {i : ℕ} :
    i ∈ handlesMembers ms ↔ ∃ m ∈ ms, i ∈ handles m.2 := by
  induction ms with
  | nil => simp [handlesMembers]
  | cons m ms ih => simp [handlesMembers, ih]

variable {A}

theorem LiveNode.exists_cell {i : ℕ} (h : LiveNode A i) : ∃ entry, A.cell i = some entry :=
  Option.ne_none_iff_exists'.1 (h i .refl)

theorem LiveNode.link {i j : ℕ} (h : LiveNode A i) (hj : j ∈ links A i) : LiveNode A j :=
  fun k hk => h k (.head hj hk)

theorem LiveNode.le_last {i : ℕ} (h : LiveNode A i) : i ∈ Finset.range (A.last + 1) := by
  obtain ⟨entry, he⟩ := h.exists_cell
  exact Finset.mem_range.2 (Nat.lt_succ_of_le (A.le_last he))

theorem links_of_cell {i : ℕ} {entry : ValueNode ν} (h : A.cell i = some entry) :
    links A i = handlesAll entry.terms := by
  simp [links, h]

/-- What holds of a walk with one node more to go down, inside of one node more, holds of every walk
from live nodes. -/
theorem walk_induction {P : ℕ → Prop} (live : ∀ i, P i → LiveNode A i)
    (link : ∀ i, P i → ∀ j ∈ links A i, P j) {motive : ℕ → List ℕ → ℕ → Prop}
    (step : ∀ fuel opened i entry, P i → A.cell i = some entry →
      (i ∉ opened → ∀ j ∈ handlesAll entry.terms, motive fuel (i :: opened) j) →
      motive (fuel + 1) opened i) {i : ℕ} (hi : P i) :
    motive (A.last + 2) [] i := by
  refine Walk.fuel_induction (fun i hi => (live i hi).le_last) link (fun fuel opened i hi ih => ?_)
    (A.last + 2) [] i hi (by simp)
  obtain ⟨entry, he⟩ := (live i hi).exists_cell
  exact step fuel opened i entry hi he (links_of_cell he ▸ ih)

end Value

end TabnasExpr.Rust
