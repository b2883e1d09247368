import MonkeyLang.Syntax.ParseState
import MonkeyLang.Token.Lexeme

/-!
# The parser

Statements are told apart by their first token. Expressions are parsed by binding strength: an
operand is extended by operators, calls and indexing as long as what follows it binds more tightly
than the level asks for, so operators of one strength associate to the left. A rule starts at the
first token of what it parses and stops at the last one.

Parsing never stops at an error. A statement that cannot be parsed is dropped and the next one
starts at the token after the place where it failed, so one pass reports many errors; a program
with errors is what is left of the text.

The rules call each other, so each carries an allowance of steps. `parse` grants eight for each
token and some more, which is more than any text needs.
-/

namespace MonkeyLang

/-! ## Binding strength -/

/-- The level below every operator. -/
def lowestLevel : Nat := 1

/-- The level of the operand of a prefix operator. -/
def prefixLevel : Nat := 6

/-- How tightly what a token of a given kind starts binds to the operand on its left; the lowest
level for a token that starts no continuation of an operand. -/
def TokenKind.level : TokenKind → Nat
  | eq | notEq => 2
  | lt | gt => 3
  | plus | minus => 4
  | asterisk | slash => 5
  | lparen => 7
  | lbracket => 8
  | _ => lowestLevel

/-! ## Integer literals -/

/-- The value of the largest integer literal, 2^63 - 1. -/
def maxLiteral : Nat := 0x7fffffffffffffff

/-- The number that a text of decimal digits stands for. -/
def decimalValue (digits : List Char) : Nat :=
  digits.foldl (fun n c => 10 * n + (c.toNat - '0'.toNat)) 0

/-- The value of an integer literal, if it is not too large. Leading zeros do not count, and a
literal of more than nineteen other digits is too large whatever they are. -/
def literalValue? (literal : List Char) : Option Nat :=
  let digits := literal.dropWhile (· == '0')
  if 19 < digits.length then none
  else
    let value := decimalValue digits
    if value ≤ maxLiteral then some value else none

/-! ## Rules -/

def Token.name (t : Token) : Name :=
  ⟨t.mark, t.text⟩

def moreParameters : Nat → ParseState → Reply (List Name)
  | 0, _ => .exhausted
  | n + 1, s =>
    if s.peek.kind = .comma then
      (s.advance.expect .ident).andThen fun t s =>
      (moreParameters n s).andThen fun names s =>
      .parsed (t.name :: names) s
    else
      (s.expect .rparen).andThen fun _ s => .parsed [] s

/-- The parameters of a function after the opening parenthesis, up to the closing one. -/
def parameters (n : Nat) (s : ParseState) : Reply (List Name) :=
  if s.peek.kind = .rparen then .parsed [] s.advance
  else
    (s.expect .ident).andThen fun t s =>
    (moreParameters n s).andThen fun names s =>
    .parsed (t.name :: names) s

mutual

/-- A statement, with the semicolon after it if there is one. -/
def statement : Nat → ParseState → Reply Stmt
  | 0, _ => .exhausted
  | n + 1, s =>
    match s.current.kind with
    | .kwLet =>
      (s.expect .ident).andThen fun name s₁ =>
      (s₁.expect .assign).andThen fun _ s₂ =>
      ((expression n lowestLevel s₂.advance).mapState (·.skipOptional .semicolon)).andThen
        fun value s₃ => .parsed (.binding s.current.mark name.name value) s₃
    | .kwReturn =>
      ((expression n lowestLevel s.advance).mapState (·.skipOptional .semicolon)).andThen
        fun value s₁ => .parsed (.leave s.current.mark value) s₁
    | _ =>
      ((expression n lowestLevel s).mapState (·.skipOptional .semicolon)).andThen
        fun e s₁ => .parsed (.expression s.current.mark e) s₁

/-- Statements up to the end of the file, and in a block up to a closing brace. One that fails
leaves no statement. -/
def statements : Nat → (inBlock : Bool) → ParseState → Reply (List Stmt)
  | 0, _, _ => .exhausted
  | n + 1, inBlock, s =>
    if s.current.kind = .eof ∨ (inBlock ∧ s.current.kind = .rbrace) then .parsed [] s
    else
      (statement n s).either fun first s₁ =>
      (statements n inBlock s₁.advance).andThen fun rest s₂ =>
      .parsed (first.toList ++ rest) s₂

/-- A block, from its opening brace on. A block that the end of the file cuts off is kept, and the
missing brace recorded. -/
def block : Nat → ParseState → Reply Block
  | 0, _ => .exhausted
  | n + 1, s =>
    (statements n true s.advance).andThen fun body s₁ =>
    .parsed (.mk s.current.mark body)
      (if s₁.current.kind = .eof then s₁.record (.expected .rbrace .eof) else s₁)

/-- An expression whose operators all bind more tightly than the given level. -/
def expression : Nat → (level : Nat) → ParseState → Reply Expr
  | 0, _, _ => .exhausted
  | n + 1, level, s =>
    (operand n s).andThen fun left s₁ => extend n level left s₁

/-- An expression that no operator, call or index continues. -/
def operand : Nat → ParseState → Reply Expr
  | 0, _ => .exhausted
  | n + 1, s =>
    match s.current.kind with
    | .ident => .parsed (.identifier s.current.mark s.current.text) s
    | .int =>
      match literalValue? s.current.text.toList with
      | some value => .parsed (.integer s.current.mark value) s
      | none => .failed (s.record (.integerRange s.current.text))
    | .string => .parsed (.string s.current.mark s.current.text) s
    | .kwTrue => .parsed (.boolean s.current.mark true) s
    | .kwFalse => .parsed (.boolean s.current.mark false) s
    | .bang | .minus =>
      (expression n prefixLevel s.advance).andThen fun right s₁ =>
      .parsed (.prefixOp s.current.mark s.current.text right) s₁
    | .lparen =>
      (expression n lowestLevel s.advance).either fun inner s₁ =>
      (s₁.expect .rparen).andThen fun _ s₂ =>
      .ofOption inner s₂
    | .lbracket =>
      (expressions n .rbracket s).andThen fun elements s₁ =>
      .parsed (.array s.current.mark elements) s₁
    | .lbrace =>
      (pairs n s).andThen fun entries s₁ =>
      .parsed (.hash s.current.mark entries) s₁
    | .kwIf =>
      (s.expect .lparen).andThen fun _ s₁ =>
      (expression n lowestLevel s₁.advance).either fun condition s₂ =>
      (s₂.expect .rparen).andThen fun _ s₃ =>
      (s₃.expect .lbrace).andThen fun _ s₄ =>
      (block n s₄).andThen fun consequence s₅ =>
      (alternative n s₅).andThen fun other s₆ =>
      .ofOption (condition.map fun c => .conditional s.current.mark c consequence other) s₆
    | .kwWhile =>
      (s.expect .lparen).andThen fun _ s₁ =>
      (expression n lowestLevel s₁.advance).either fun condition s₂ =>
      (s₂.expect .rparen).andThen fun _ s₃ =>
      (s₃.expect .lbrace).andThen fun _ s₄ =>
      (block n s₄).andThen fun body s₅ =>
      .ofOption (condition.map fun c => .loop s.current.mark c body) s₅
    | .kwFn =>
      (s.expect .lparen).andThen fun _ s₁ =>
      (parameters n s₁).andThen fun names s₂ =>
      (s₂.expect .lbrace).andThen fun _ s₃ =>
      (block n s₃).andThen fun body s₄ =>
      .parsed (.function s.current.mark names body) s₄
    | kind => .failed (s.record (.noExpression kind))

/-- The `else` branch after the block of an `if`, if there is one. -/
def alternative : Nat → ParseState → Reply (Option Block)
  | 0, _ => .exhausted
  | n + 1, s =>
    if s.peek.kind = .kwElse then
      (s.advance.expect .lbrace).andThen fun _ s₁ =>
      (block n s₁).andThen fun b s₂ =>
      .parsed (some b) s₂
    else .parsed none s

/-- Continues an operand as long as what follows it binds more tightly than the level. -/
def extend : Nat → (level : Nat) → (left : Expr) → ParseState → Reply Expr
  | 0, _, _, _ => .exhausted
  | n + 1, level, left, s =>
    if level < s.peek.kind.level ∧ lowestLevel < s.peek.kind.level then
      (continuation n left s.advance).andThen fun left s₁ => extend n level left s₁
    else .parsed left s

/-- An operand with one continuation: a call, an index, or an operator and its right operand. -/
def continuation : Nat → (left : Expr) → ParseState → Reply Expr
  | 0, _, _ => .exhausted
  | n + 1, left, s =>
    match s.current.kind with
    | .lparen =>
      (expressions n .rparen s).andThen fun arguments s₁ =>
      .parsed (.call s.current.mark left arguments) s₁
    | .lbracket =>
      (expression n lowestLevel s.advance).either fun index s₁ =>
      (s₁.expect .rbracket).andThen fun _ s₂ =>
      .ofOption (index.map (.index s.current.mark left)) s₂
    | kind =>
      (expression n kind.level s.advance).andThen fun right s₁ =>
      .parsed (.infixOp s.current.mark left s.current.text right) s₁

/-- Expressions between the current token and a closing one, separated by commas. -/
def expressions : Nat → (closing : TokenKind) → ParseState → Reply (List Expr)
  | 0, _, _ => .exhausted
  | n + 1, closing, s =>
    if s.peek.kind = closing then .parsed [] s.advance
    else
      (expression n lowestLevel s.advance).andThen fun e s₁ =>
      (moreExpressions n closing s₁).andThen fun es s₂ =>
      .parsed (e :: es) s₂

def moreExpressions : Nat → (closing : TokenKind) → ParseState → Reply (List Expr)
  | 0, _, _ => .exhausted
  | n + 1, closing, s =>
    if s.peek.kind = .comma then
      (expression n lowestLevel s.advance.advance).andThen fun e s₁ =>
      (moreExpressions n closing s₁).andThen fun es s₂ =>
      .parsed (e :: es) s₂
    else
      (s.expect closing).andThen fun _ s₁ => .parsed [] s₁

/-- The pairs of a hash after its opening brace or a comma, up to the closing brace. -/
def pairs : Nat → ParseState → Reply (List (Expr × Expr))
  | 0, _ => .exhausted
  | n + 1, s =>
    if s.peek.kind = .rbrace then .parsed [] s.advance
    else
      (expression n lowestLevel s.advance).either fun key s₁ =>
      (s₁.expect .colon).andThen fun _ s₂ =>
      (expression n lowestLevel s₂.advance).either fun value s₃ =>
      match key, value with
      | some key, some value =>
        if s₃.peek.kind = .rbrace then .parsed [(key, value)] s₃.advance
        else
          (s₃.expect .comma).andThen fun _ s₄ =>
          (pairs n s₄).andThen fun rest s₅ =>
          .parsed ((key, value) :: rest) s₅
      | _, _ => .failed s₃

end

/-! ## Whole texts -/

def stepsFor (count : Nat) : Nat :=
  8 * count + 16

/-- The outcome of parsing: a program, and the errors in the order in which they were found. With
errors, the program is what is left of the text. -/
structure Parsed where
  program : Program
  errors : List SyntaxError

def parseTokens (ts : List Token) : Parsed :=
  match statements (stepsFor ts.length) false (.ofTokens ts) with
  | .parsed body s => ⟨⟨body⟩, s.errors⟩
  | .failed s => ⟨⟨[]⟩, s.errors⟩
  | .exhausted => ⟨⟨[]⟩, []⟩

def parse (source : String) : Parsed :=
  parseTokens (tokenize source)

/-! ## Single rules -/

/-- What one run of a rule leaves behind: its answer, the window where it stopped and the errors
that it added. -/
structure RuleReport (α : Type) where
  answer : Option α
  current : Token
  next : Token
  errors : List SyntaxError

/-- The answer of a rule and the state after it; a rule that ran out of steps leaves the state. -/
def Reply.settle {α : Type} (s : ParseState) : Reply α → Option α × ParseState
  | .parsed a s' => (some a, s')
  | .failed s' => (none, s')
  | .exhausted => (none, s)

/-- The report of a rule that was run in a state. -/
def Reply.report {α : Type} (s : ParseState) (r : Reply α) : RuleReport α :=
  let (answer, s') := r.settle s
  ⟨answer, s'.current, s'.peek, s'.errors.drop s.errors.length⟩

/-- Runs the statement rule again and again from a state, moving on by one token after each run,
until the end of the file. -/
def statementReports (steps : Nat) : Nat → ParseState → List (RuleReport Stmt)
  | 0, _ => []
  | n + 1, s =>
    if s.current.kind = .eof then []
    else
      let r := statement steps s
      r.report s :: statementReports steps n (r.settle s).2.advance

/-- The reports of the statement rule on a text. -/
def parseStatements (source : String) : List (RuleReport Stmt) :=
  let ts := tokenize source
  statementReports (stepsFor ts.length) ts.length (.ofTokens ts)

/-- The report of the expression rule, run once at the start of a text. -/
def parseExpression (level : Nat) (source : String) : RuleReport Expr :=
  let ts := tokenize source
  let s := ParseState.ofTokens ts
  (expression (stepsFor ts.length) level s).report s

end MonkeyLang
