import MonkeyLang.Syntax.Render

/-!
# Known trees

A tree is known if it holds no node of unknown kind. Only a known tree has a text. The parser builds
known trees only; a tree that is built by hand may be another.
-/

namespace MonkeyLang

mutual

/-- An expression holds no node of unknown kind. -/
def Expr.isKnown : Expr → Bool
  | .identifier .. | .integer .. | .string .. | .boolean .. => true
  | .prefixOp _ _ right => right.isKnown
  | .infixOp _ left _ right => left.isKnown && right.isKnown
  | .conditional _ condition consequence alternative =>
    condition.isKnown && consequence.isKnown && elseIsKnown alternative
  | .loop _ condition body => condition.isKnown && body.isKnown
  | .function _ _ body => body.isKnown
  | .call _ function arguments => function.isKnown && allKnown arguments
  | .array _ elements => allKnown elements
  | .index _ left index => left.isKnown && index.isKnown
  | .hash _ pairs => pairsKnown pairs
  | .statement s => s.isKnown
  | .unknown .. => false

def elseIsKnown : Option Block → Bool
  | none => true
  | some block => block.isKnown

def allKnown : List Expr → Bool
  | [] => true
  | e :: es => e.isKnown && allKnown es

def pairsKnown : List (Expr × Expr) → Bool
  | [] => true
  | (key, value) :: pairs => key.isKnown && value.isKnown && pairsKnown pairs

def Block.isKnown : Block → Bool
  | .mk _ statements | .program statements => stmtsKnown statements

def Stmt.isKnown : Stmt → Bool
  | .binding _ _ value | .leave _ value | .expression _ value | .bare value => value.isKnown
  | .block block => block.isKnown
  | .unknown .. => false

def stmtsKnown : List Stmt → Bool
  | [] => true
  | s :: ss => s.isKnown && stmtsKnown ss

end

def Node.isKnown : Node → Bool
  | .program p => stmtsKnown p.statements
  | .statement s => s.isKnown
  | .expression e => e.isKnown

/-- The text of a node, if it has one. -/
def Node.render? (n : Node) : Option String :=
  if n.isKnown then some n.render else none

/-- What is reported of a tree without a text. -/
def noRendering : String := "ASTNode has no rendering"

end MonkeyLang
