import MonkeyLang.Syntax.Basic
import MonkeyLang.Text.Quoted

/-!
# Descriptions

The text of a tree for diagnostics: each node's title and kind, and its parts by name.
Of a list only the first three entries are shown, and three points stand for the others.
-/

namespace MonkeyLang

/-- The description of a node from its title, its kind and its described parts. -/
def describeNode (title kind : String) (parts : List (String × String)) : String :=
  title ++ "(" ++
    ", ".intercalate (kind :: parts.map fun part => part.1 ++ "=" ++ part.2) ++ ")"

/-- The description of a list from those of its entries. -/
def describeList (entries : List String) : String :=
  "[" ++ ", ".intercalate (entries.take 3) ++ (if 3 < entries.length then ", ...]" else "]")

def Name.describe (n : Name) : String :=
  describeNode "Identifier" "identifier" [("value", Text.quote n.value)]

mutual

/-- The description of an expression. -/
def Expr.describe : Expr → String
  | .identifier _ value =>
    describeNode "Identifier" "identifier" [("value", Text.quote value)]
  | .integer _ value => describeNode "IntegerLiteral" "integer" [("value", toString value)]
  | .string _ value => describeNode "StringLiteral" "string" [("value", Text.quote value)]
  | .boolean _ value =>
    describeNode "Boolean" "boolean" [("value", if value then "True" else "False")]
  | .prefixOp _ operator right =>
    describeNode "PrefixExpression" "prefix"
      [("operator", Text.quote operator), ("right", right.describe)]
  | .infixOp _ left operator right =>
    describeNode "InfixExpression" "infix"
      [("left", left.describe), ("operator", Text.quote operator), ("right", right.describe)]
  | .conditional _ condition consequence alternative =>
    describeNode "IfExpression" "if"
      [("condition", condition.describe), ("consequence", consequence.describe),
        ("alternative", describeElse alternative)]
  | .loop _ condition body =>
    describeNode "WhileExpression" "while"
      [("condition", condition.describe), ("body", body.describe)]
  | .function _ parameters body =>
    describeNode "FunctionLiteral" "function"
      [("parameters", describeList (parameters.map Name.describe)), ("body", body.describe)]
  | .call _ function arguments =>
    describeNode "CallExpression" "call"
      [("function", function.describe), ("arguments", describeList (describeAll arguments))]
  | .array _ elements =>
    describeNode "ArrayLiteral" "array" [("elements", describeList (describeAll elements))]
  | .index _ left index =>
    describeNode "IndexExpression" "index" [("left", left.describe), ("index", index.describe)]
  | .hash _ pairs =>
    describeNode "HashLiteral" "hash" [("pairs", describeList (describePairs pairs))]
  | .statement s => s.describe
  | .unknown _ kind => describeNode "ASTNode" kind []

def describeElse : Option Block → String
  | none => "None"
  | some block => block.describe

def describeAll : List Expr → List String
  | [] => []
  | e :: es => e.describe :: describeAll es

def describePairs : List (Expr × Expr) → List String
  | [] => []
  | (key, value) :: pairs =>
    ("(" ++ key.describe ++ ", " ++ value.describe ++ ")") :: describePairs pairs

def Block.describe : Block → String
  | .mk _ statements =>
    describeNode "BlockStatement" "block"
      [("statements", describeList (describeStmts statements))]
  | .program statements =>
    describeNode "Program" "program" [("statements", describeList (describeStmts statements))]

def Stmt.describe : Stmt → String
  | .binding _ name value =>
    describeNode "LetStatement" "let" [("name", name.describe), ("value", value.describe)]
  | .leave _ value =>
    describeNode "ReturnStatement" "return" [("return_value", value.describe)]
  | .expression _ expression =>
    describeNode "ExpressionStatement" "expr_stmt" [("expression", expression.describe)]
  | .block block => block.describe
  | .bare expression => expression.describe
  | .unknown _ kind => describeNode "ASTNode" kind []

def describeStmts : List Stmt → List String
  | [] => []
  | s :: ss => s.describe :: describeStmts ss

end

def Program.describe (p : Program) : String :=
  describeNode "Program" "program" [("statements", describeList (describeStmts p.statements))]

def Node.describe : Node → String
  | .program p => p.describe
  | .statement s => s.describe
  | .expression e => e.describe

end MonkeyLang
