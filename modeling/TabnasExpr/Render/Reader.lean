import TabnasExpr.Append
import TabnasExpr.Drive
import TabnasExpr.Render.Events

/-!
# Reading a document

A reader with the default operators: JSON's scalars, lists and objects are operands, and the operators
between them are built by `prattify`.  It goes through the lexemes once, with a stack of what is being
read.  `Value.simplify` then reduces each operator's description to its source text.
-/

namespace TabnasExpr.Render

open OpTree OpTree.Tree

universe u

variable {ν : Type u}

/-- A value of the reader: `op` is an operation, a list led by its operator's description. -/
inductive Value (ν : Type u) where
  | scalar (s : Scalar ν)
  | list (xs : List (Value ν))
  | map (ms : List (String × Value ν))
  | op (o : Op) (terms : List (Value ν))

/-- The infix operator with a source. -/
def Source.infixOp : Source → Option Op
  | plus => some addition
  | minus => some subtraction
  | star => some multiplication
  | slash => some division
  | percent => some remainder
  | paren => none

/-- The prefix operator with a source. -/
def Source.prefixOp : Source → Option Op
  | plus => some positive
  | minus => some negative
  | _ => none

theorem Source.infixOp_eq_some {s : Source} {o : Op} (h : s.infixOp = some o) :
    o.src = s.text ∧ o.kind = .infixOp := by
  cases s <;> cases h <;> exact ⟨rfl, rfl⟩

theorem Source.prefixOp_eq_some {s : Source} {o : Op} (h : s.prefixOp = some o) :
    o.src = s.text ∧ o.kind = .prefixOp := by
  cases s <;> cases h <;> exact ⟨rfl, rfl⟩

/-- The value of a tree of operators. -/
def valueOf : Tree Op (Val (Value ν)) → Option (Value ν)
  | hole => none
  | leaf (.atom v) => some v
  | leaf _ => none
  | pre o x => (valueOf x).map fun x => .op o [x]
  | suf o x => (valueOf x).map fun x => .op o [x]
  | inf o l r => (valueOf l).bind fun l => (valueOf r).map fun r => .op o [l, r]
  | grp o x => (valueOf x).map fun x => .op o [x]

/-- The value the rule actions build for a sequence. -/
def build (lang : Lang) (e : Seq (Value ν)) : Option (Value ν) :=
  (Run.run e.text (Run.start lang.start)).bind fun r =>
    (Ts.treeOf (lang.port.heap r.store) r.root).bind valueOf

theorem build_eq (lang : Lang) {e : Seq (Value ν)} (h : e.Kinded) :
    build lang e = valueOf e.tree := by
  obtain ⟨r, t, hr, ht⟩ := run_text (P := lang.port) lang.start h
  rw [build, hr]
  show (Ts.treeOf _ _).bind valueOf = _
  rw [ht.treeOf h]
  rfl

/-! ## The reader -/

/-- An expression that is being read. -/
inductive Partial (ν : Type u) where
  /-- The first operand is due, under prefix operators. -/
  | lead (ps : List Op)
  /-- No operand is due. -/
  | whole (e : Seq (Value ν))
  /-- The right operand of an infix operator is due, under prefix operators. -/
  | more (e : Seq (Value ν)) (o : Op) (ps : List Op)

/-- What an expression is part of. -/
inductive Context (ν : Type u) where
  | root
  | paren
  | list (xs : List (Value ν))
  | value (ms : List (String × Value ν)) (k : String)

/-- What is being read. -/
inductive Frame (ν : Type u) where
  | expr (c : Context ν) (p : Partial ν)
  | key (ms : List (String × Value ν))
  | colon (ms : List (String × Value ν)) (k : String)

namespace Partial

/-- Whether an operand is due. -/
def isDue : Partial ν → Bool
  | whole _ => false
  | _ => true

/-- An operand. -/
def operand (v : Value ν) : Partial ν → Option (Partial ν)
  | lead ps => some (whole (.lead ps v))
  | more e o ps => some (whole (.more e o ps v))
  | whole _ => none

/-- An operator: an infix one after an expression, and a prefix one where an operand is due. -/
def operator (s : Source) : Partial ν → Option (Partial ν)
  | lead ps => s.prefixOp.map fun p => lead (ps ++ [p])
  | more e o ps => s.prefixOp.map fun p => more e o (ps ++ [p])
  | whole e => s.infixOp.map fun o => more e o []

/-- The value of the whole expression. -/
def value (lang : Lang) : Partial ν → Option (Value ν)
  | whole e => build lang e
  | _ => none

end Partial

/-- Add a member, in the place of one with the same key. -/
def setMember (ms : List (String × Value ν)) (k : String) (v : Value ν) : List (String × Value ν) :=
  if ms.any fun m => m.1 = k then ms.map fun m => if m.1 = k then (k, v) else m else ms ++ [(k, v)]

namespace Reader

/-- An operand for the expression being read. -/
def operand (v : Value ν) : List (Frame ν) → Option (List (Frame ν))
  | .expr c p :: fs => (p.operand v).map fun p => .expr c p :: fs
  | _ => none

/-- What an expression is read inside of has begun. -/
def enter (f : Frame ν) (c : Context ν) (p : Partial ν) (fs : List (Frame ν)) :
    Option (List (Frame ν)) :=
  if p.isDue then some (f :: .expr c p :: fs) else none

/-- The end of a paren or a list. -/
def close (lang : Lang) (c : Context ν) (p : Partial ν) (fs : List (Frame ν)) :
    Lexeme ν → Option (List (Frame ν))
  | .closeParen =>
    match c, p with
    | .paren, .lead [] => operand (.op plain []) fs
    | .paren, p => (p.value lang).bind fun v => operand (.op plain [v]) fs
    | _, _ => none
  | .closeList =>
    match c, p with
    | .list [], .lead [] => operand (.list []) fs
    | .list xs, p => (p.value lang).bind fun v => operand (.list (xs ++ [v])) fs
    | _, _ => none
  | .closeMap =>
    match c with
    | .value ms k => (p.value lang).bind fun v => operand (.map (setMember ms k v)) fs
    | _ => none
  | _ => none

/-- The next element of a list, or the next member of an object. -/
def next (lang : Lang) (c : Context ν) (p : Partial ν) (fs : List (Frame ν)) :
    Option (List (Frame ν)) :=
  match c with
  | .list xs => (p.value lang).map fun v => .expr (.list (xs ++ [v])) (.lead []) :: fs
  | .value ms k => (p.value lang).map fun v => .key (setMember ms k v) :: fs
  | _ => none

/-- One lexeme. -/
def step (lang : Lang) : List (Frame ν) → Lexeme ν → Option (List (Frame ν))
  | [], _ => none
  | .key ms :: fs, lexeme =>
    match lexeme with
    | .str k => some (.colon ms k :: fs)
    | .closeMap => if ms.isEmpty then operand (.map []) fs else none
    | _ => none
  | .colon ms k :: fs, lexeme =>
    match lexeme with
    | .colon => some (.expr (.value ms k) (.lead []) :: fs)
    | _ => none
  | .expr c p :: fs, lexeme =>
    match lexeme with
    | .str s => operand (.scalar (.str s)) (.expr c p :: fs)
    | .num n => operand (.scalar (.num (.finite false n))) (.expr c p :: fs)
    | .bool b => operand (.scalar (.bool b)) (.expr c p :: fs)
    | .null => operand (.scalar .null) (.expr c p :: fs)
    | .op .paren => enter (.expr .paren (.lead [])) c p fs
    | .op s => (p.operator s).map fun p => .expr c p :: fs
    | .openList => enter (.expr (.list []) (.lead [])) c p fs
    | .openMap => enter (.key []) c p fs
    | .comma => next lang c p fs
    | .newline => if p.isDue then none else some (.expr c p :: fs)
    | .colon => none
    | lexeme => close lang c p fs lexeme

/-- The lexemes one after another. -/
def run (lang : Lang) : List (Frame ν) → Text ν → Option (List (Frame ν))
  | fs, [] => some fs
  | fs, lexeme :: text => (step lang fs lexeme).bind fun fs => run lang fs text

/-- The value of a document. -/
def read (lang : Lang) (text : Text ν) : Option (Value ν) :=
  match run lang [.expr .root (.lead [])] text with
  | some [.expr .root p] => p.value lang
  | _ => none

theorem run_append (lang : Lang) (fs : List (Frame ν)) (t u : Text ν) :
    run lang fs (t ++ u) = (run lang fs t).bind fun fs => run lang fs u := by
  induction t generalizing fs with
  | nil => rfl
  | cons lexeme t ih =>
    rw [List.cons_append, run, run, Option.bind_assoc]
    congr 1
    funext fs
    exact ih fs

end Reader

/-! ## Reducing descriptions -/

variable [Zero ν] [DecidableEq ν]

/-- A value that counts as true. -/
def Value.truthy : Value ν → Bool
  | scalar .null => false
  | scalar (.bool b) => b
  | scalar (.num (.finite _ n)) => n ≠ 0
  | scalar (.num .nan) => false
  | scalar (.str s) => s ≠ ""
  | _ => true

/-- The `src` of the value that leads a list, where it counts as true. -/
def Value.readSrc : Value ν → Option (Value ν)
  | map ms => (ms.lookup "src").filter Value.truthy
  | _ => none

namespace Value

mutual

/-- Each list led by a description as a list led by the description's `src`. -/
def simplify : Value ν → Value ν
  | scalar s => scalar s
  | list xs => list (simplifyList xs)
  | map ms => map (simplifyMembers ms)
  | op o terms => list (scalar (.str o.src) :: simplifyAll terms)

/-- The elements of a list. -/
def simplifyList : List (Value ν) → List (Value ν)
  | [] => []
  | x :: xs => x.readSrc.getD (simplify x) :: simplifyAll xs

def simplifyAll : List (Value ν) → List (Value ν)
  | [] => []
  | x :: xs => simplify x :: simplifyAll xs

def simplifyMembers : List (String × Value ν) → List (String × Value ν)
  | [] => []
  | (k, x) :: ms => (k, simplify x) :: simplifyMembers ms

end

@[simp] theorem simplifyAll_eq_map (xs : List (Value ν)) : simplifyAll xs = xs.map simplify := by
  induction xs with
  | nil => rfl
  | cons x xs ih => exact congrArg _ ih

end Value

end TabnasExpr.Render
