import MonkeyLang.Syntax.Basic

/-!
# Disciplined returns

A `return` is disciplined if it stands where a statement stands: directly in a
body, or in the blocks of a conditional or a loop that is itself a statement there.
It is not if its value would be used: bound, returned once more, or taken for an
operand, a condition, an argument or an element.
-/

namespace MonkeyLang

mutual

/-- All returns in an expression are disciplined. `exit` says that the expression
is a statement, out of which a `return` may lead. -/
def Expr.isDisciplined (exit : Bool) : Expr → Bool
  | .identifier .. | .integer .. | .string .. | .boolean .. | .unknown .. => true
  | .prefixOp _ _ right => right.isDisciplined false
  | .infixOp _ left _ right => left.isDisciplined false && right.isDisciplined false
  | .conditional _ condition consequence alternative =>
    condition.isDisciplined false && consequence.isDisciplined exit &&
      elseDisciplined exit alternative
  | .loop _ condition body => condition.isDisciplined false && body.isDisciplined exit
  | .function _ _ body => body.isDisciplined true
  | .call _ function arguments => function.isDisciplined false && allDisciplined arguments
  | .array _ elements => allDisciplined elements
  | .index _ left index => left.isDisciplined false && index.isDisciplined false
  | .hash _ pairs => pairsDisciplined pairs
  | .statement s => s.isDisciplined exit

def elseDisciplined (exit : Bool) : Option Block → Bool
  | none => true
  | some block => block.isDisciplined exit

def allDisciplined : List Expr → Bool
  | [] => true
  | e :: es => e.isDisciplined false && allDisciplined es

def pairsDisciplined : List (Expr × Expr) → Bool
  | [] => true
  | (key, value) :: pairs =>
    key.isDisciplined false && value.isDisciplined false && pairsDisciplined pairs

def Block.isDisciplined (exit : Bool) : Block → Bool
  | .mk _ statements | .program statements => stmtsDisciplined exit statements

def Stmt.isDisciplined (exit : Bool) : Stmt → Bool
  | .binding _ _ value => value.isDisciplined false
  | .leave _ value => exit && value.isDisciplined false
  | .expression _ e | .bare e => e.isDisciplined exit
  -- a program among the statements of another has its own end
  | .block (.program statements) => stmtsDisciplined true statements
  | .block (.mk _ statements) => stmtsDisciplined exit statements
  | .unknown .. => true

def stmtsDisciplined (exit : Bool) : List Stmt → Bool
  | [] => true
  | s :: ss => s.isDisciplined exit && stmtsDisciplined exit ss

end

/-- All returns in a program are disciplined. -/
def Program.isDisciplined (p : Program) : Bool :=
  stmtsDisciplined true p.statements

theorem Block.isDisciplined_eq (exit : Bool) (b : Block) :
    b.isDisciplined exit = stmtsDisciplined exit b.statements := by
  cases b <;> rfl

end MonkeyLang
