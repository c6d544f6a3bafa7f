import TabnasExpr.Ts.Heap

/-!
# The rules of an expression as a machine

The rules `val`, `expr` and `paren` of the TypeScript port, with the part of the engine that runs
them.  A rule is opened, may push a child, and is closed; each time the alternates are tried in
order.  A pushed rule starts from a copy of the node and the counters of its parent, a rule that
replaces another one from the node and the counters of that one.  Rules are held by identity, since
an action also writes the nodes of the rules around it.

The tokens are those of one expression: an alternate that would open an implicit list ends the run, and
so does a token other than the end of the source where an operand is due.
-/

namespace TabnasExpr.Rules

open OpTree Ts

variable {σ α : Type*}

/-- The identity of a value that is a node. -/
def nodeId : Val α → Option ℕ
  | .node i => some i
  | _ => none

/-! ## Evaluation during a parse -/

/-- The callback: it may read and write the nodes of the parse and whatever else is in its reach. -/
abbrev Evaluator (σ α : Type*) := Op → List (Val α) → Heap α → σ → Heap α × σ × Val α

/-- One call of the callback. -/
structure Call (α : Type*) where
  op : Op
  terms : List (Val α)
  deriving DecidableEq

/-- The nodes, the state of the callback, the set `EVALUATED`, and the calls made so far. -/
structure World (σ α : Type*) where
  heap : Heap α
  env : σ
  evaluated : List ℕ
  calls : List (Call α)

/-- `Array.prototype.map`, with a callback that changes the world. -/
def mapTerms (f : World σ α → Val α → Option (World σ α × Val α)) :
    World σ α → List (Val α) → Option (World σ α × List (Val α))
  | w, [] => some (w, [])
  | w, v :: vs => do
    let (w, u) ← f w v
    let (w, us) ← mapTerms f w vs
    some (w, u :: us)

/-- Return a value and add it to `EVALUATED`, which takes objects only. -/
def World.finish (w : World σ α) (v : Val α) : World σ α × Val α :=
  match v with
  | .node i => ({ w with evaluated := i :: w.evaluated }, v)
  | _ => (w, v)

/-- `evaluate(rule, ctx, op, terms)`. -/
def World.call (w : World σ α) (evaluate : Evaluator σ α) (op : Op) (terms : List (Val α)) :
    World σ α × Val α :=
  let (heap, env, v) := evaluate op terms w.heap w.env
  ({ w with heap := heap, env := env, calls := w.calls ++ [⟨op, terms⟩] }, v)

/-- `evaluation(rule, ctx, expr, evaluate)` on the nodes of the parse.  `fuel` bounds the depth. -/
def evaluation (evaluate : Evaluator σ α) : ℕ → World σ α → Val α → Option (World σ α × Val α)
  | 0, _, _ => none
  | fuel + 1, w, .node i =>
    if i ∈ w.evaluated then some (w, .node i)
    else
      match w.heap.cell i with
      | some ⟨some op, terms⟩ => do
        let (w, terms) ← mapTerms (evaluation evaluate fuel) w terms
        let (w, v) := w.call evaluate op terms
        some (w.finish v)
      | some ⟨none, members⟩ => do
        let (w, members) ← mapTerms (evaluation evaluate fuel) w members
        let (heap, list) := w.heap.alloc ⟨none, members⟩
        some ({ w with heap := heap }.finish (.node list))
      | none => none
  | _ + 1, w, v => some (w, v)

/-! ## Rules -/

inductive RuleName where
  | val
  | expr
  | paren
  deriving DecidableEq, Repr

/-- What the engine does next with the current rule. -/
inductive Phase where
  | opening
  /-- The before-close action. -/
  | before
  | closing
  deriving DecidableEq, Repr

/-- The counters `n` of a rule. -/
structure Counters where
  expr : ℕ
  exprPrefix : ℕ
  exprSuffix : ℕ
  exprParen : ℕ
  exprParenDepth : String → ℕ

/-- A rule.  The identity of a rule that is not there (`NORULE`) is 0. -/
structure Rule (α : Type*) where
  name : RuleName
  node : Val α
  n : Counters
  /-- The paren depths in the record `u`. -/
  depth : String → ℕ
  /-- The value of the token the open alternate took. -/
  token : Val α
  parent : ℕ
  prev : ℕ
  child : ℕ

/-- A rule that starts. -/
def Rule.start (name : RuleName) (node : Val α) (n : Counters) (parent prev : ℕ) : Rule α :=
  ⟨name, node, n, fun _ => 0, .undefined, parent, prev, 0⟩

/-- A parse. -/
structure Machine (σ α : Type*) where
  world : World σ α
  rules : Store (Rule α)
  stack : List ℕ
  cur : ℕ
  phase : Phase
  tokens : List (Sym Op α)

namespace Machine

variable (m : Machine σ α) (r : Rule α) (evaluate : Option (Evaluator σ α))

/-- The node of a rule. -/
def node (i : ℕ) : Val α :=
  match m.rules.cell i with
  | some r => r.node
  | none => .undefined

/-- Write the node of a rule; nothing is written to `NORULE`. -/
def setNode (i : ℕ) (v : Val α) : Machine σ α :=
  { m with rules := m.rules.modify i fun r => { r with node := v } }

def setHeap (heap : Heap α) : Machine σ α := { m with world := { m.world with heap := heap } }

/-- Write the record of the current rule. -/
def put : Machine σ α := { m with rules := m.rules.modify m.cur fun _ => r }

/-- `p: name`, for the current rule with the record `r`. -/
def push (name : RuleName) : Machine σ α :=
  let (rules, child) := m.rules.alloc (.start name r.node r.n m.cur 0)
  { m with
    rules := rules.modify m.cur fun _ => { r with child := child }
    stack := m.cur :: m.stack
    cur := child
    phase := .opening }

/-- `r: name`, for the current rule with the record `r`. -/
def replace (name : RuleName) : Machine σ α :=
  let (rules, next) := (m.put r).rules.alloc (.start name r.node r.n r.parent m.cur)
  { m with rules := rules, cur := next, phase := .opening }

/-- The current rule, with the record `r`, is done. -/
def pop : Machine σ α :=
  { m.put r with stack := m.stack.tail, cur := m.stack.headD 0, phase := .before }

/-- The current rule, with the record `r`, pushes nothing and closes next. -/
def stay : Machine σ α := { m.put r with phase := .before }

/-- The tokens that are left. -/
def withTokens (tokens : List (Sym Op α)) : Machine σ α := { m with tokens := tokens }

/-- The value of `prior(rule, prior, op)`, which makes the node of the rule `i` a node of the operator,
with the node the rule had as first term unless the operator is a prefix. -/
def prior (i : ℕ) (op : Op) : Machine σ α × Val α :=
  match (opAt m.world.heap (m.node i)).filter fun _ => op.kind ≠ .prefixOp with
  -- The genuine first term is duplicated, and its node is rewritten in place.
  | some (j, _) =>
    let (heap, dup) := dupNode m.world.heap j
    (m.setHeap (updateExprNode heap j op [.node dup]), .node j)
  | none =>
    let (heap, out) := newNode m.world.heap op (if op.kind = .prefixOp then [] else [m.node i])
    ((m.setHeap heap).setNode i (.node out), .node out)

/-- `prattify(node, op)`, when the node is an expression. -/
def prattify (v : Val α) (op : Op) : Option (Machine σ α × Val α) :=
  match v with
  | .node i => (Ts.prattify m.world.heap i op).map fun (heap, out) => (m.setHeap heap, .node out)
  | _ => none

/-! ### The rule `val` -/

def openVal : Option (Machine σ α) :=
  match m.tokens with
  | .pre _ :: _ =>
    some (m.push { r with n := { r.n with exprPrefix := r.n.exprPrefix + 1, exprSuffix := 0 } } .expr)
  | .opn _ :: _ => some (m.push r .expr)
  | .leaf a :: rest =>
    some ((m.stay { r with node := .undefined, token := .atom a }).withTokens rest)
  -- A missing operand: the rule keeps the node it started with.
  | [] => some (m.stay r)
  | _ => none

/-- The value a `val` rule closes with: a node its child ended with, its own node, the value of its
child, or its token. -/
def coalesce (own child token : Val α) : Val α :=
  match child, own with
  | .node i, _ => .node i
  | .undefined, .undefined => token
  | v, .undefined => v
  | _, v => v

def beforeVal : Machine σ α :=
  { m.put { r with node := coalesce r.node (m.node r.child) r.token } with phase := .closing }

def closeVal : Option (Machine σ α) :=
  match m.tokens with
  | .inf _ :: _ =>
    let r := { r with n := { r.n with exprPrefix := 0, exprSuffix := 0 } }
    some (if r.n.expr = 0 then m.replace r .expr else m.pop r)
  | .suf _ :: _ =>
    let r := { r with n := { r.n with exprPrefix := 0, exprSuffix := r.n.exprSuffix + 1 } }
    some (if r.n.expr = 0 then m.replace r .expr else m.pop r)
  | .cls _ :: _ => if r.n.exprParen ≠ 0 then some (m.pop r) else none
  | [] => some (m.pop r)
  | _ => none

/-! ### The rule `expr` -/

/-- The counters of an `expr` rule that took an infix or a suffix operator. -/
def Counters.more (n : Counters) : Counters := { n with expr := n.expr + 1, exprPrefix := 0 }

def openExpr : Option (Machine σ α) :=
  match m.tokens with
  | .opn _ :: _ => some (m.push r .paren)
  | .pre op :: rest =>
    if r.n.exprPrefix = 0 then none
    else do
      let n := { r.n with expr := r.n.expr + 1 }
      -- An operator this prefix chain is building; a paren operator there is foreign.
      match (opAt m.world.heap (m.node r.parent)).filter fun q => q.2.kind ≠ .parenOp with
      | some _ =>
        let (m, out) ← m.prattify (m.node r.parent) op
        some ((m.push { r with n := n, node := out } .val).withTokens rest)
      | none =>
        let (m, out) := m.prior r.parent op
        some ((m.push { r with n := n, node := out } .val).withTokens rest)
  | .inf op :: rest => do
    let n := Counters.more r.n
    match opAt m.world.heap (m.node r.parent) with
    -- Second and further operators.
    | some _ =>
      let (m, out) ← m.prattify (m.node r.parent) op
      some ((m.push { r with n := n, node := out } .val).withTokens rest)
    | none =>
      match opAt m.world.heap (m.node r.prev) with
      -- First term was unary expression.
      | some _ =>
        let (m, out) ← m.prattify (m.node r.prev) op
        some ((m.push { r with n := n, node := out, parent := r.prev } .val).withTokens rest)
      -- First term was plain value.
      | none =>
        let (m, out) := m.prior r.prev op
        some ((m.push { r with n := n, node := out, parent := r.prev } .val).withTokens rest)
  | .suf op :: rest => do
    let n := Counters.more r.n
    match opAt m.world.heap (m.node r.prev) with
    | some _ =>
      let (m, out) ← m.prattify (m.node r.prev) op
      some ((m.stay { r with n := n, node := out }).withTokens rest)
    | none =>
      let (m, out) := m.prior r.prev op
      some ((m.stay { r with n := n, node := out, parent := r.prev }).withTokens rest)
  | _ => none

/-- Append final term to expression. -/
def beforeExpr : Machine σ α :=
  let m := { m with phase := .closing }
  match r.node with
  | .node i =>
    match m.world.heap.cell i with
    | some ⟨some op, terms⟩ =>
      if terms.length < op.terms ∧ nodeId (m.node r.child) ≠ some i then
        m.setHeap (Ts.push m.world.heap i (m.node r.child))
      else m
    | _ => m
  | _ => m

/-- `Array.isArray(v) && !isOp(v)`. -/
def listOf (heap : Heap α) : Val α → Option ℕ
  | .node j => if (opOf heap j).isNone then some j else none
  | _ => none

/-- `parentNode[termI] = evaluation(r.parent, ctx, parentNode[termI], options.evaluate)`. -/
def evaluateMember (evaluate : Evaluator σ α) (list : ℕ) (w : World σ α) (k : ℕ) :
    Option (World σ α) := do
  let (w, v) ← evaluation evaluate (w.heap.last + 2) w (term w.heap list k)
  some { w with heap := setTerm w.heap list k v }

/-- The after-close action of an `expr` rule, once the rule is off the stack. -/
def afterExpr (i : ℕ) (r : Rule α) : Option (Machine σ α) :=
  match evaluate with
  | none => some m
  | some evaluate =>
    if r.n.expr ≠ 0 then some m
    else
      match listOf m.world.heap (m.node r.parent) with
      -- The parent holds a list: its members are reduced in place.
      | some j => do
        let w ← (List.range ((m.world.heap.cell j).elim 0 fun n => n.terms.length)).foldlM
          (fun w k => evaluateMember evaluate j w (k + 1)) m.world
        some ({ m with world := w }.setNode i (m.node r.parent))
      | none => do
        let (w, out) ← evaluation evaluate (m.world.heap.last + 2) m.world (m.node r.parent)
        some (({ m with world := w }.setNode r.parent out).setNode i out)

/-- The rule has its last close alternate: the expression ends. -/
def endExpr : Option (Machine σ α) :=
  let r := { r with n := { r.n with expr := 0 } }
  (m.pop r).afterExpr evaluate m.cur r

def closeExpr : Option (Machine σ α) :=
  if (m.rules.cell r.child).map Rule.name = some .paren then m.endExpr r evaluate
  else
    match m.tokens with
    | .inf _ :: _ =>
      -- Complete prefix first.
      if r.n.exprPrefix = 0 then (m.replace r .expr).afterExpr evaluate m.cur r
      else (m.pop r).afterExpr evaluate m.cur r
    | .suf _ :: _ =>
      if r.n.exprPrefix = 0 then (m.replace r .expr).afterExpr evaluate m.cur r
      else m.endExpr r evaluate
    | .cls _ :: _ =>
      if r.n.exprParen ≠ 0 then (m.pop r).afterExpr evaluate m.cur r else m.endExpr r evaluate
    -- In a paren the end of the source meets the alternate of an implicit list.
    | [] => if r.n.exprParen = 0 ∨ r.n.exprSuffix ≠ 0 then m.endExpr r evaluate else none
    | _ => none

/-! ### The rule `paren` -/

/-- The action `openParen`. -/
def openParen (p : Op) : Rule α :=
  { r with
    n := { r.n with exprParenDepth := Function.update r.n.exprParenDepth p.name 1 }
    depth := Function.update r.depth p.name 1
    node := .undefined }

def openParenRule : Option (Machine σ α) :=
  match m.tokens with
  | .opn p :: .cls q :: rest =>
    if p.name = q.name then
      some ((m.stay (openParen r p)).withTokens (.cls q :: rest))
    else none
  | .opn p :: rest =>
    let n := { r.n with exprParen := r.n.exprParen + 1, expr := 0, exprPrefix := 0, exprSuffix := 0 }
    some ((m.push (openParen { r with n := n } p) .val).withTokens rest)
  | _ => none

/-- What a paren closes over: the expression its child ended with, or its own node if it has one. -/
def parenValue (heap : Heap α) (child own : Val α) : Val α :=
  match opAt heap child, own with
  | some _, _ => child
  | none, .undefined => child
  | none, v => v

/-- The terms of a node that a value is pushed onto, unless it is `undefined`. -/
def present : Val α → List (Val α)
  | .undefined => []
  | v => [v]

/-- The action `closeParen`. -/
def closeParen (p : Op) : Machine σ α × Val α :=
  let value := parenValue m.world.heap (m.node r.child) r.node
  if r.depth p.name = r.n.exprParenDepth p.name then
    let (heap, out) := newNode m.world.heap p (present value)
    (m.setHeap heap, .node out)
  else (m, value)

/-- The rule two above: the one the expression of a paren belongs to. -/
def grandparent : ℕ := (m.rules.cell r.parent).elim 0 Rule.parent

def closeParenRule : Option (Machine σ α) :=
  match m.tokens with
  | .cls p :: rest =>
    if r.n.exprParenDepth p.name = 0 then none
    else
      let (m, v) := m.closeParen r p
      let r := { r with node := v }
      let next := (m.pop r).withTokens rest
      some ((next.setNode r.parent v).setNode (m.grandparent r) v)
  | _ => none

/-! ### Runs -/

/-- The next step of the engine. -/
def step : Option (Machine σ α) :=
  match m.rules.cell m.cur with
  | none => none
  | some r =>
    match m.phase, r.name with
    | .opening, .val => m.openVal r
    | .opening, .expr => m.openExpr r
    | .opening, .paren => m.openParenRule r
    | .before, .val => some (m.beforeVal r)
    | .before, .expr => some (m.beforeExpr r)
    | .before, .paren => some { m with phase := .closing }
    | .closing, .val => m.closeVal r
    | .closing, .expr => m.closeExpr r evaluate
    | .closing, .paren => m.closeParenRule r

end Machine

/-- The counters of the first rule. -/
def Counters.zero : Counters := ⟨0, 0, 0, 0, fun _ => 0⟩

/-- A parse starts with a `val` rule, which nothing is above. -/
def start (env : σ) (tokens : List (Sym Op α)) : Machine σ α :=
  { world := ⟨Store.empty, env, [], []⟩
    rules := (Store.empty.alloc (.start .val .undefined .zero 0 0)).1
    stack := []
    cur := 1
    phase := .opening
    tokens := tokens }

/-- Run the rules until there is none.  `fuel` bounds the steps. -/
def run (evaluate : Option (Evaluator σ α)) : ℕ → Machine σ α → Option (Machine σ α)
  | 0, _ => none
  | fuel + 1, m =>
    match m.rules.cell m.cur, m.tokens with
    | some _, _ => (m.step evaluate).bind (run evaluate fuel)
    | none, [] => some m
    | none, _ => none

end TabnasExpr.Rules
