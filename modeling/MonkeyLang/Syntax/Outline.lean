import MonkeyLang.Json
import MonkeyLang.Syntax.Basic

/-!
# Outlines

The JSON outline of a tree. Every node is an object with its kind, the text, the line and the
column of its mark, and then its own parts by name.
-/

namespace MonkeyLang

/-- The outline of a node with a given kind, mark and parts. -/
def outlineNode (kind : String) (mark : Mark) (parts : List (String × Json)) : Json :=
  .obj (("kind", .str kind) :: ("token", .str mark.text) :: ("line", .int mark.place.line) ::
    ("col", .int mark.place.column) :: parts)

def Name.outline (n : Name) : Json :=
  outlineNode "identifier" n.mark [("value", .str n.value)]

mutual

/-- The outline of an expression. -/
def Expr.outline : Expr → Json
  | .identifier mark value => outlineNode "identifier" mark [("value", .str value)]
  | .integer mark value => outlineNode "integer" mark [("value", .int value)]
  | .string mark value => outlineNode "string" mark [("value", .str value)]
  | .boolean mark value => outlineNode "boolean" mark [("value", .bool value)]
  | .prefixOp mark operator right =>
    outlineNode "prefix" mark [("operator", .str operator), ("right", right.outline)]
  | .infixOp mark left operator right =>
    outlineNode "infix" mark
      [("left", left.outline), ("operator", .str operator), ("right", right.outline)]
  | .conditional mark condition consequence alternative =>
    outlineNode "if" mark
      [("condition", condition.outline), ("consequence", consequence.outline),
        ("alternative", outlineElse alternative)]
  | .loop mark condition body =>
    outlineNode "while" mark [("condition", condition.outline), ("body", body.outline)]
  | .function mark parameters body =>
    outlineNode "function" mark
      [("parameters", .arr (parameters.map Name.outline)), ("body", body.outline)]
  | .call mark function arguments =>
    outlineNode "call" mark
      [("function", function.outline), ("arguments", .arr (outlineAll arguments))]
  | .array mark elements => outlineNode "array" mark [("elements", .arr (outlineAll elements))]
  | .index mark left index =>
    outlineNode "index" mark [("left", left.outline), ("index", index.outline)]
  | .hash mark pairs => outlineNode "hash" mark [("pairs", .arr (outlinePairs pairs))]
  | .statement s => s.outline
  | .unknown mark kind => outlineNode kind mark []

def outlineElse : Option Block → Json
  | none => .null
  | some block => block.outline

def outlineAll : List Expr → List Json
  | [] => []
  | e :: es => e.outline :: outlineAll es

def outlinePairs : List (Expr × Expr) → List Json
  | [] => []
  | (key, value) :: pairs => .arr [key.outline, value.outline] :: outlinePairs pairs

def Block.outline : Block → Json
  | .mk mark statements => outlineNode "block" mark [("statements", .arr (outlineStmts statements))]
  | .program statements =>
    outlineNode "program" (firstMark statements) [("statements", .arr (outlineStmts statements))]

def Stmt.outline : Stmt → Json
  | .binding mark name value =>
    outlineNode "let" mark [("name", name.outline), ("value", value.outline)]
  | .leave mark value => outlineNode "return" mark [("return_value", value.outline)]
  | .expression mark expression =>
    outlineNode "expr_stmt" mark [("expression", expression.outline)]
  | .block block => block.outline
  | .bare expression => expression.outline
  | .unknown mark kind => outlineNode kind mark []

def outlineStmts : List Stmt → List Json
  | [] => []
  | s :: ss => s.outline :: outlineStmts ss

end

def Program.outline (p : Program) : Json :=
  outlineNode "program" p.mark [("statements", .arr (outlineStmts p.statements))]

def Node.outline : Node → Json
  | .program p => p.outline
  | .statement s => s.outline
  | .expression e => e.outline

end MonkeyLang
