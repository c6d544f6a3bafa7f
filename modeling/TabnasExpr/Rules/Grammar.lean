import TabnasExpr.Rules.Expression

/-!
# Reading the tokens of an expression one by one

A reader that knows, after each token, where it is: the parens it is in, the operators it has an
operand of, and whether an operand is due.  It takes the tokens of an expression, and of nothing else,
to their end (`read_eq_some_iff`), so that a token sequence is the text of one expression at most.
-/

namespace TabnasExpr.Rules

open OpTree

universe u

variable {α : Type u}

/-- The parens a reader is in.  A paren is the operand after an operator, or the first one, under
prefix operators. -/
inductive Context (α : Type u) where
  | top
  | paren (p : Op) (outer : Context α) (head : Option (Expr α × Op)) (ps : List Op)

/-- Where a reader is. -/
inductive Config (α : Type u) where
  /-- An operand is due, under the prefix operators read so far. -/
  | operand (L : Context α) (head : Option (Expr α × Op)) (ps : List Op)
  /-- An expression has been read. -/
  | after (L : Context α) (e : Expr α)

/-- The expression that an operand completes. -/
def extend : Option (Expr α × Op) → List Op → Operand α → Expr α
  | none, ps, x => .lead ps x
  | some (e, o), ps, x => .more e o ps x

namespace Config

/-- The reader takes one token. -/
def next : Config α → Sym Op α → Option (Config α)
  | operand L head ps, .pre p => some (operand L head (ps ++ [p]))
  | operand L head ps, .leaf a => some (after L (extend head ps (.atom a)))
  | operand L head ps, .opn p => some (operand (.paren p L head ps) none [])
  | after L e, .inf o => some (operand L (some (e, o)) [])
  | after L e, .suf s => some (after L (.suffixed e s))
  | after (.paren p L head ps) e, .cls q =>
    if q = p then some (after L (extend head ps (.paren p e))) else none
  | _, _ => none

/-- The reader takes tokens one after another. -/
def read : Config α → List (Sym Op α) → Option (Config α)
  | c, [] => some c
  | c, tok :: toks => (c.next tok).bind fun c' => read c' toks

theorem read_append (c : Config α) (ts us : List (Sym Op α)) :
    c.read (ts ++ us) = (c.read ts).bind fun c' => c'.read us := by
  induction ts generalizing c with
  | nil => rfl
  | cons tok ts ih =>
    rw [List.cons_append, read, read, Option.bind_assoc]
    congr 1
    funext c'
    exact ih c'

theorem read_cons_of_next {c c' : Config α} {tok : Sym Op α} (h : c.next tok = some c')
    (ts : List (Sym Op α)) : c.read (tok :: ts) = c'.read ts := by
  rw [read, h, Option.bind_some]

end Config

/-! ## What was read -/

/-- The tokens of an operator with its left operand. -/
def headText : Option (Expr α × Op) → List (Sym Op α)
  | none => []
  | some (e, o) => e.text ++ [.inf o]

/-- The tokens of operators that have no last operand, or of none at all. -/
def danglingText (head : Option (Expr α × Op)) (ps : List Op) : List (Sym Op α) :=
  headText head ++ ps.map .pre

/-- The tokens read before a paren's content. -/
def Context.text : Context α → List (Sym Op α)
  | .top => []
  | .paren p L head ps => L.text ++ headText head ++ ps.map .pre ++ [.opn p]

/-- The tokens a reader has taken. -/
def Config.text : Config α → List (Sym Op α)
  | .operand L head ps => L.text ++ headText head ++ ps.map .pre
  | .after L e => L.text ++ e.text

theorem text_extend (head : Option (Expr α × Op)) (ps : List Op) (x : Operand α) :
    (extend head ps x).text = headText head ++ ps.map .pre ++ x.text := by
  rcases head with _ | ⟨e, o⟩ <;> simp [extend, headText, Expr.text]

namespace Config

theorem next_cls (p : Op) (L : Context α) (head : Option (Expr α × Op)) (ps : List Op) (e : Expr α) :
    (after (.paren p L head ps) e).next (.cls p) = some (after L (extend head ps (.paren p e))) :=
  if_pos rfl

theorem text_next {c c' : Config α} {tok : Sym Op α} (h : c.next tok = some c') :
    c'.text = c.text ++ [tok] := by
  rcases c with ⟨L, head, ps⟩ | ⟨L, e⟩
  · cases tok <;> simp only [next, Option.some.injEq, reduceCtorEq] at h <;> subst h <;>
      simp [text, Context.text, headText, text_extend, Operand.text]
  · cases tok with
    | inf o | suf o =>
      cases h
      simp [text, headText, Expr.text]
    | cls q =>
      rcases L with _ | ⟨p, L, head, ps⟩
      · cases h
      · simp only [next, Option.ite_none_right_eq_some, Option.some.injEq] at h
        obtain ⟨rfl, rfl⟩ := h
        simp [text, Context.text, text_extend, Operand.text]
    | leaf | pre | opn => cases h

theorem text_read {c c' : Config α} {ts : List (Sym Op α)} (h : c.read ts = some c') :
    c'.text = c.text ++ ts := by
  induction ts generalizing c with
  | nil =>
    cases h
    exact (List.append_nil _).symm
  | cons tok ts ih =>
    obtain ⟨c₁, h₁, h₂⟩ := Option.bind_eq_some_iff.1 h
    rw [ih h₂, text_next h₁, List.append_assoc]
    rfl

end Config

/-! ## The texts that are read -/

theorem read_prefixes (L : Context α) (head : Option (Expr α × Op)) (ps qs : List Op)
    (ts : List (Sym Op α)) :
    (Config.operand L head ps).read (qs.map .pre ++ ts) =
      (Config.operand L head (ps ++ qs)).read ts := by
  induction qs generalizing ps with
  | nil => simp
  | cons q qs ih =>
    rw [List.map_cons, List.cons_append, Config.read_cons_of_next rfl, ih, List.append_assoc]
    rfl

mutual

theorem Operand.read_text (L : Context α) (head : Option (Expr α × Op)) (ps : List Op) :
    (x : Operand α) →
    (Config.operand L head ps).read x.text = some (.after L (extend head ps x))
  | .atom a => rfl
  | .paren p e => by
    rw [Operand.text, Config.read_cons_of_next rfl, Config.read_append,
      Expr.read_text (.paren p L head ps) e, Option.bind_some,
      Config.read_cons_of_next (Config.next_cls p L head ps e)]
    rfl

theorem Expr.read_text (L : Context α) :
    (e : Expr α) → (Config.operand L none []).read e.text = some (.after L e)
  | .lead ps x => by
    rw [Expr.text, read_prefixes, List.nil_append, Operand.read_text L none ps x]
    rfl
  | .more e o ps x => by
    rw [Expr.text, Config.read_append, Expr.read_text L e, Option.bind_some,
      Config.read_cons_of_next rfl, read_prefixes, List.nil_append,
      Operand.read_text L (some (e, o)) ps x]
    rfl
  | .suffixed e s => by
    rw [Expr.text, Config.read_append, Expr.read_text L e, Option.bind_some]
    rfl

end

/-- A reader that has read nothing. -/
def Config.start : Config α := .operand .top none []

/-- The reader comes to the end of an expression exactly on its text. -/
theorem read_eq_some_iff {ts : List (Sym Op α)} {e : Expr α} :
    Config.start.read ts = some (.after .top e) ↔ ts = e.text := by
  constructor
  · intro h
    have := Config.text_read h
    simpa [Config.text, Context.text, Config.start, headText] using this.symm
  · rintro rfl
    exact e.read_text .top

/-- A token sequence is the text of one expression at most. -/
theorem text_injective : Function.Injective (Expr.text (α := α)) := by
  intro e e' h
  have he := read_eq_some_iff.2 (rfl : e.text = e.text)
  rw [h, Config.start, e'.read_text .top] at he
  injection he with he
  injection he with _ he
  exact he.symm

end TabnasExpr.Rules
