import TabnasExpr.Lib.Climb
import TabnasExpr.Op

/-!
# The default operators

The operators a parser has when no table is given: a token map entry is named after the definition
and its kind, and a power a definition leaves out is the extreme of its side.
-/

namespace TabnasExpr

/-- A prefix operator of the default table: only the right power is given. -/
def prefixDef (name src : String) (right : ℤ) : Op :=
  ⟨name ++ "-prefix", src, .prefixOp, minSafeInteger, right⟩

/-- An infix operator of the default table. -/
def infixDef (name src : String) (left right : ℤ) : Op :=
  ⟨name ++ "-infix", src, .infixOp, left, right⟩

/-- A paren operator: neither power is given, and its source is the opening one. -/
def parenDef (name osrc : String) : Op :=
  ⟨name ++ "-paren", osrc, .parenOp, minSafeInteger, maxSafeInteger⟩

def positive : Op := prefixDef "positive" "+" 4000000

def negative : Op := prefixDef "negative" "-" 4000000

def addition : Op := infixDef "addition" "+" 2000000 2100000

def subtraction : Op := infixDef "subtraction" "-" 2000000 2100000

def multiplication : Op := infixDef "multiplication" "*" 3000000 3100000

def division : Op := infixDef "division" "/" 3000000 3100000

def remainder : Op := infixDef "remainder" "%" 3000000 3100000

def plain : Op := parenDef "plain" "("

/-- The infix operators of the default table. -/
def defaultInfix : List Op := [addition, subtraction, multiplication, division, remainder]

/-- The default infix operators form two tiers. -/
theorem defaultInfix_tiered : OpTree.Tiered { o | o ∈ defaultInfix } := by
  have h : ∀ q ∈ defaultInfix, ∀ o ∈ defaultInfix, (q.left = o.left ∧ q.right = o.right) ∨
      max q.left q.right < min o.left o.right ∨ max o.left o.right < min q.left q.right := by
    decide
  exact h

end TabnasExpr
