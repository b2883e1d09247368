import MonkeyLang.Proofs.Grammar
import MonkeyLang.Proofs.Lexing

/-!
# Well-formed trees

The trees that a text can have: the names are words, the operators are those of
the language, the marks that the printer copies spell their keyword, and every
node stands where a node of its kind belongs. Which values a string literal may
have is a parameter.
-/

namespace MonkeyLang

/-- The prefix operators. -/
def prefixOperators : List String := ["!", "-"]

/-- The infix operators. -/
def infixOperators : List String := ["+", "-", "*", "/", "<", ">", "==", "!="]

mutual

/-- An expression is well formed, with string literals as `ok` allows them. -/
def Expr.isWellFormed (ok : String → Bool) : Expr → Bool
  | .identifier _ value => isName value
  | .integer _ value => 0 ≤ value && value ≤ maxLiteral
  | .string _ value => ok value
  | .boolean mark value => mark.text == if value then "true" else "false"
  | .prefixOp _ operator right => prefixOperators.contains operator && right.isWellFormed ok
  | .infixOp _ left operator right =>
    infixOperators.contains operator && left.isWellFormed ok && right.isWellFormed ok
  | .conditional _ condition consequence alternative =>
    condition.isWellFormed ok && consequence.isWellFormed ok && isWellFormedElse ok alternative
  | .loop _ condition body => condition.isWellFormed ok && body.isWellFormed ok
  | .function mark parameters body =>
    mark.text == "fn" && parameters.all (isName ·.value) && body.isWellFormed ok
  | .call _ function arguments => function.isWellFormed ok && isWellFormedAll ok arguments
  | .array _ elements => isWellFormedAll ok elements
  | .index _ left index => left.isWellFormed ok && index.isWellFormed ok
  | .hash _ pairs => isWellFormedPairs ok pairs
  | .statement _ | .unknown .. => false

def isWellFormedElse (ok : String → Bool) : Option Block → Bool
  | none => true
  | some b => b.isWellFormed ok

def isWellFormedAll (ok : String → Bool) : List Expr → Bool
  | [] => true
  | e :: es => e.isWellFormed ok && isWellFormedAll ok es

def isWellFormedPairs (ok : String → Bool) : List (Expr × Expr) → Bool
  | [] => true
  | (key, value) :: pairs =>
    key.isWellFormed ok && value.isWellFormed ok && isWellFormedPairs ok pairs

def Block.isWellFormed (ok : String → Bool) : Block → Bool
  | .mk _ stmts => isWellFormedStmts ok stmts
  | .program _ => false

def Stmt.isWellFormed (ok : String → Bool) : Stmt → Bool
  | .binding mark name value =>
    mark.text == "let" && isName name.value && value.isWellFormed ok
  | .leave mark value => mark.text == "return" && value.isWellFormed ok
  | .expression _ e => e.isWellFormed ok
  | .block _ | .bare _ | .unknown .. => false

def isWellFormedStmts (ok : String → Bool) : List Stmt → Bool
  | [] => true
  | stmt :: stmts => stmt.isWellFormed ok && isWellFormedStmts ok stmts

end

/-- A program is well formed, with string literals as `ok` allows them. -/
def Program.isWellFormed (ok : String → Bool) (p : Program) : Bool :=
  isWellFormedStmts ok p.statements

/-- A statement whose text ends with a semicolon wherever it stands. -/
def Stmt.isTerminated : Stmt → Bool
  | .binding .. | .leave .. => true
  | _ => false

/-- Each statement but the last one is terminated, so that their texts can stand
one after another with nothing in between. -/
def areDelimited : List Stmt → Bool
  | [] | [_] => true
  | stmt :: stmts => stmt.isTerminated && areDelimited stmts

end MonkeyLang
