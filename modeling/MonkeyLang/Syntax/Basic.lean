import MonkeyLang.Token.Basic

/-!
# Syntax trees

The trees of the language: expressions, the blocks and statements that they contain, and programs.
Every node carries a mark, the text and the place of the token that introduced it.

Trees may also be built by hand. They can then hold operators that the language does not have,
marks that no text gives, nodes of a kind that the language does not know, and known nodes out of
place: a statement where an expression belongs, an expression where a statement belongs, or a whole
program inside another.
-/

namespace MonkeyLang

/-- Where a node comes from: the text and the place of the token that introduced it. -/
structure Mark where
  text : String
  place : Place
deriving DecidableEq, Inhabited, Repr

def Token.mark (t : Token) : Mark :=
  ⟨t.text, t.place⟩

/-- A name where it is bound: by a `let` or as a parameter. -/
structure Name where
  mark : Mark
  value : String
deriving DecidableEq, Repr

mutual

/-- What produces a value. -/
inductive Expr
  | identifier (mark : Mark) (value : String)
  | integer (mark : Mark) (value : Int)
  | string (mark : Mark) (value : String)
  | boolean (mark : Mark) (value : Bool)
  | prefixOp (mark : Mark) (operator : String) (right : Expr)
  | infixOp (mark : Mark) (left : Expr) (operator : String) (right : Expr)
  | conditional (mark : Mark) (condition : Expr) (consequence : Block)
      (alternative : Option Block)
  | loop (mark : Mark) (condition : Expr) (body : Block)
  | function (mark : Mark) (parameters : List Name) (body : Block)
  | call (mark : Mark) (function : Expr) (arguments : List Expr)
  | array (mark : Mark) (elements : List Expr)
  | index (mark : Mark) (left : Expr) (index : Expr)
  | hash (mark : Mark) (pairs : List (Expr × Expr))
  /-- A statement in the place of an expression. -/
  | statement (statement : Stmt)
  | unknown (mark : Mark) (kind : String)
deriving Inhabited

/-- A sequence of statements between braces. -/
inductive Block
  | mk (mark : Mark) (statements : List Stmt)
  /-- A program in the place of a block. -/
  | program (statements : List Stmt)
deriving Inhabited

/-- What stands in a program or in a block. -/
inductive Stmt
  | binding (mark : Mark) (name : Name) (value : Expr)
  | leave (mark : Mark) (value : Expr)
  | expression (mark : Mark) (expression : Expr)
  | block (block : Block)
  /-- An expression in the place of a statement. -/
  | bare (expression : Expr)
  | unknown (mark : Mark) (kind : String)
deriving Inhabited

end

/-- The statements of a whole text. -/
structure Program where
  statements : List Stmt

inductive Node
  | program (program : Program)
  | statement (statement : Stmt)
  | expression (expression : Expr)

/-! ## Parts of a node -/

def Block.statements : Block → List Stmt
  | .mk _ statements | .program statements => statements

mutual

def Expr.mark : Expr → Mark
  | .identifier mark _ | .integer mark _ | .string mark _ | .boolean mark _ | .prefixOp mark _ _
  | .infixOp mark _ _ _ | .conditional mark _ _ _ | .loop mark _ _ | .function mark _ _
  | .call mark _ _ | .array mark _ | .index mark _ _ | .hash mark _ | .unknown mark _ => mark
  | .statement s => s.mark

def Block.mark : Block → Mark
  | .mk mark _ => mark
  | .program statements => firstMark statements

def Stmt.mark : Stmt → Mark
  | .binding mark _ _ | .leave mark _ | .expression mark _ | .unknown mark _ => mark
  | .block b => b.mark
  | .bare e => e.mark

def firstMark : List Stmt → Mark
  | [] => ⟨"", ⟨0, 0⟩⟩
  | s :: _ => s.mark

end

mutual

def Expr.kind : Expr → String
  | .identifier .. => "identifier"
  | .integer .. => "integer"
  | .string .. => "string"
  | .boolean .. => "boolean"
  | .prefixOp .. => "prefix"
  | .infixOp .. => "infix"
  | .conditional .. => "if"
  | .loop .. => "while"
  | .function .. => "function"
  | .call .. => "call"
  | .array .. => "array"
  | .index .. => "index"
  | .hash .. => "hash"
  | .statement s => s.kind
  | .unknown _ kind => kind

def Stmt.kind : Stmt → String
  | .binding .. => "let"
  | .leave .. => "return"
  | .expression .. => "expr_stmt"
  | .block (.mk ..) => "block"
  | .block (.program _) => "program"
  | .bare e => e.kind
  | .unknown _ kind => kind

end

/-- The mark of a program is that of its first statement. -/
def Program.mark (p : Program) : Mark :=
  firstMark p.statements

namespace Node

def mark : Node → Mark
  | program p => p.mark
  | statement s => s.mark
  | expression e => e.mark

def kind : Node → String
  | program _ => "program"
  | statement s => s.kind
  | expression e => e.kind

end Node

end MonkeyLang
