import MonkeyLang.Syntax.Basic
import MonkeyLang.Token.StringBody

/-!
# Rendering

The canonical text of a tree. Every operator expression and every index expression stands between
parentheses, so the text shows how the tree is nested; in a block each statement ends with one
semicolon. The text of a tree that the parser built is again a text of the language.
-/

namespace MonkeyLang

/-- The text of a string literal. -/
def renderString (value : String) : String :=
  "\"" ++ String.ofList (StringBody.escape value.toList) ++ "\""

/-- A text that ends with a semicolon. -/
def terminated (text : String) : String :=
  if text.toList.getLast? = some ';' then text else text ++ ";"

mutual

/-- The text of an expression. -/
def Expr.render : Expr → String
  | .identifier _ value => value
  | .integer _ value => toString value
  | .string _ value => renderString value
  | .boolean mark _ => mark.text
  | .prefixOp _ operator right => "(" ++ operator ++ right.render ++ ")"
  | .infixOp _ left operator right =>
    "(" ++ left.render ++ " " ++ operator ++ " " ++ right.render ++ ")"
  | .conditional _ condition consequence alternative =>
    "if (" ++ condition.render ++ ") " ++ consequence.render ++ renderElse alternative
  | .loop _ condition body => "while (" ++ condition.render ++ ") " ++ body.render
  | .function mark parameters body =>
    mark.text ++ "(" ++ ", ".intercalate (parameters.map Name.value) ++ ") " ++ body.render
  | .call _ function arguments =>
    function.render ++ "(" ++ ", ".intercalate (renderAll arguments) ++ ")"
  | .array _ elements => "[" ++ ", ".intercalate (renderAll elements) ++ "]"
  | .index _ left index => "(" ++ left.render ++ "[" ++ index.render ++ "])"
  | .hash _ pairs => "\x7b" ++ ", ".intercalate (renderPairs pairs) ++ "\x7d"
  | .statement s => s.render
  | .unknown mark _ => mark.text

def renderElse : Option Block → String
  | none => ""
  | some block => " else " ++ block.render

def renderAll : List Expr → List String
  | [] => []
  | e :: es => e.render :: renderAll es

def renderPairs : List (Expr × Expr) → List String
  | [] => []
  | (key, value) :: pairs => (key.render ++ ": " ++ value.render) :: renderPairs pairs

def Block.render : Block → String
  | .mk _ [] => "\x7b \x7d"
  | .mk _ (s :: ss) => "\x7b " ++ " ".intercalate (renderTerminated (s :: ss)) ++ " \x7d"
  | .program statements => renderJoined statements

def Stmt.render : Stmt → String
  | .binding mark name value => mark.text ++ " " ++ name.value ++ " = " ++ value.render ++ ";"
  | .leave mark value => mark.text ++ " " ++ value.render ++ ";"
  | .expression _ expression => expression.render
  | .block block => block.render
  | .bare expression => expression.render
  | .unknown mark _ => mark.text

/-- The texts of some statements, each with a semicolon at its end. -/
def renderTerminated : List Stmt → List String
  | [] => []
  | s :: ss => terminated s.render :: renderTerminated ss

/-- The text of some statements one after another. -/
def renderJoined : List Stmt → String
  | [] => ""
  | s :: ss => s.render ++ renderJoined ss

end

/-- The text of a program: its statements one after another. -/
def Program.render (p : Program) : String :=
  renderJoined p.statements

def Node.render : Node → String
  | .program p => p.render
  | .statement s => s.render
  | .expression e => e.render

end MonkeyLang
