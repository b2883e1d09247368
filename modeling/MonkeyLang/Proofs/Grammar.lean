import MonkeyLang.Syntax.Parser

/-!
# The grammar

What a text of the language is, said without the parser: which sequences of
tokens are an expression, a block or a program, and of which tree. The binary
operators are arranged in tiers, each of which associates to the left; prefix
operators bind more tightly than all of them, and calls and indexing more
tightly still. A pair of parentheses leaves no node.

The semicolon after a statement may be left out, but only where the next token
could not carry the expression before it on (`continuers`). So the sequence of
the statements of a block or a program (`Lines`) knows the kind of the token
after it. Nothing else looks past its own tokens.

`ParseSound` and `ParseComplete` compare the parser with this grammar.
-/

namespace MonkeyLang

/-! ## Tiers -/

/-- The tiers of expressions, the loosest first. -/
inductive Tier
  | equality | comparison | sum | product
  | unary
  | applied
  | atom
deriving DecidableEq, Repr

namespace Tier

/-- The tier whose expressions are the operands of a tier. -/
def tighter? : Tier → Option Tier
  | equality => some comparison
  | comparison => some sum
  | sum => some product
  | product => some unary
  | unary => some applied
  | applied => some atom
  | atom => none

/-- The binary operators of a tier. -/
def operators : Tier → List TokenKind
  | equality => [.eq, .notEq]
  | comparison => [.lt, .gt]
  | sum => [.plus, .minus]
  | product => [.asterisk, .slash]
  | unary | applied | atom => []

end Tier

/-- The kinds of token that carry on an expression before them. -/
def continuers : List TokenKind :=
  [.plus, .minus, .asterisk, .slash, .eq, .notEq, .lt, .gt, .lparen, .lbracket]

/-- The kind of the first of some tokens, or of the one after them. -/
def firstKind (next : TokenKind) : List Token → TokenKind
  | [] => next
  | t :: _ => t.kind

/-! ## Derivations -/

/-- The parameters of a function after the first one, each with the comma
before it. -/
inductive MoreNames : List Token → List Name → Prop
  | nil : MoreNames [] []
  | cons {comma t : Token} {ts : List Token} {names : List Name} :
      comma.kind = .comma → t.kind = .ident → MoreNames ts names →
      MoreNames (comma :: t :: ts) (t.name :: names)

/-- The parameters of a function. -/
inductive Names : List Token → List Name → Prop
  | nil : Names [] []
  | cons {t : Token} {ts : List Token} {names : List Name} :
      t.kind = .ident → MoreNames ts names → Names (t :: ts) (t.name :: names)

mutual

/-- Tokens that are an expression of a tier, and its tree. -/
inductive Phrase : Tier → List Token → Expr → Prop
  /-- An expression of a tighter tier. -/
  | tighten {tier tighter : Tier} {ts : List Token} {e : Expr} :
      tier.tighter? = some tighter → Phrase tighter ts e → Phrase tier ts e
  /-- A binary operator: its left operand may be of the same tier, its right
  one is tighter. -/
  | binary {tier tighter : Tier} {op : Token} {ts us : List Token} {left right : Expr} :
      op.kind ∈ tier.operators → tier.tighter? = some tighter →
      Phrase tier ts left → Phrase tighter us right →
      Phrase tier (ts ++ op :: us) (.infixOp op.mark left op.text right)
  | unary {op : Token} {ts : List Token} {right : Expr} :
      op.kind = .bang ∨ op.kind = .minus → Phrase .unary ts right →
      Phrase .unary (op :: ts) (.prefixOp op.mark op.text right)
  | call {o c : Token} {ts us : List Token} {function : Expr} {arguments : List Expr} :
      o.kind = .lparen → c.kind = .rparen → Phrase .applied ts function →
      Items us arguments →
      Phrase .applied (ts ++ o :: (us ++ [c])) (.call o.mark function arguments)
  | index {o c : Token} {ts us : List Token} {left index : Expr} :
      o.kind = .lbracket → c.kind = .rbracket → Phrase .applied ts left →
      Phrase .equality us index →
      Phrase .applied (ts ++ o :: (us ++ [c])) (.index o.mark left index)
  | identifier {t : Token} :
      t.kind = .ident → Phrase .atom [t] (.identifier t.mark t.text)
  | integer {t : Token} :
      t.kind = .int → (∀ c ∈ t.text.toList, isDigit c = true) →
      decimalValue t.text.toList ≤ maxLiteral →
      Phrase .atom [t] (.integer t.mark (decimalValue t.text.toList))
  | string {t : Token} :
      t.kind = .string → Phrase .atom [t] (.string t.mark t.text)
  | truth {t : Token} :
      t.kind = .kwTrue → Phrase .atom [t] (.boolean t.mark true)
  | falsity {t : Token} :
      t.kind = .kwFalse → Phrase .atom [t] (.boolean t.mark false)
  | group {o c : Token} {ts : List Token} {e : Expr} :
      o.kind = .lparen → c.kind = .rparen → Phrase .equality ts e →
      Phrase .atom (o :: (ts ++ [c])) e
  | array {o c : Token} {ts : List Token} {elements : List Expr} :
      o.kind = .lbracket → c.kind = .rbracket → Items ts elements →
      Phrase .atom (o :: (ts ++ [c])) (.array o.mark elements)
  | hash {o c : Token} {ts : List Token} {pairs : List (Expr × Expr)} :
      o.kind = .lbrace → c.kind = .rbrace → Pairs ts pairs →
      Phrase .atom (o :: (ts ++ [c])) (.hash o.mark pairs)
  | conditional {kw o c : Token} {ts us vs : List Token} {condition : Expr}
      {consequence : Block} {alternative : Option Block} :
      kw.kind = .kwIf → o.kind = .lparen → c.kind = .rparen →
      Phrase .equality ts condition → Braces us consequence → Otherwise vs alternative →
      Phrase .atom (kw :: o :: (ts ++ c :: (us ++ vs)))
        (.conditional kw.mark condition consequence alternative)
  | loop {kw o c : Token} {ts us : List Token} {condition : Expr} {body : Block} :
      kw.kind = .kwWhile → o.kind = .lparen → c.kind = .rparen →
      Phrase .equality ts condition → Braces us body →
      Phrase .atom (kw :: o :: (ts ++ c :: us)) (.loop kw.mark condition body)
  | function {kw o c : Token} {ts us : List Token} {names : List Name} {body : Block} :
      kw.kind = .kwFn → o.kind = .lparen → c.kind = .rparen →
      Names ts names → Braces us body →
      Phrase .atom (kw :: o :: (ts ++ c :: us)) (.function kw.mark names body)

/-- Expressions separated by commas. -/
inductive Items : List Token → List Expr → Prop
  | nil : Items [] []
  | cons {ts us : List Token} {e : Expr} {es : List Expr} :
      Phrase .equality ts e → MoreItems us es → Items (ts ++ us) (e :: es)

/-- The expressions after the first one, each with the comma before it. -/
inductive MoreItems : List Token → List Expr → Prop
  | nil : MoreItems [] []
  | cons {comma : Token} {ts us : List Token} {e : Expr} {es : List Expr} :
      comma.kind = .comma → Phrase .equality ts e → MoreItems us es →
      MoreItems (comma :: (ts ++ us)) (e :: es)

/-- The pairs of a hash, separated by commas. A comma may follow the last
one. -/
inductive Pairs : List Token → List (Expr × Expr) → Prop
  | nil : Pairs [] []
  | last {colon : Token} {ts us : List Token} {key value : Expr} :
      colon.kind = .colon → Phrase .equality ts key → Phrase .equality us value →
      Pairs (ts ++ colon :: us) [(key, value)]
  | cons {colon comma : Token} {ts us vs : List Token} {key value : Expr}
      {pairs : List (Expr × Expr)} :
      colon.kind = .colon → comma.kind = .comma →
      Phrase .equality ts key → Phrase .equality us value → Pairs vs pairs →
      Pairs (ts ++ colon :: (us ++ comma :: vs)) ((key, value) :: pairs)

/-- A block. -/
inductive Braces : List Token → Block → Prop
  | mk {o c : Token} {ts : List Token} {body : List Stmt} :
      o.kind = .lbrace → c.kind = .rbrace → Lines .rbrace ts body →
      Braces (o :: (ts ++ [c])) (.mk o.mark body)

/-- The `else` branch of an `if`, which may be missing. -/
inductive Otherwise : List Token → Option Block → Prop
  | missing : Otherwise [] none
  | present {kw : Token} {ts : List Token} {b : Block} :
      kw.kind = .kwElse → Braces ts b → Otherwise (kw :: ts) (some b)

/-- Statements one after another, where a token of the kind `next` follows. -/
inductive Lines : (next : TokenKind) → List Token → List Stmt → Prop
  | nil {next : TokenKind} : Lines next [] []
  /-- A statement with its semicolon. -/
  | closed {next : TokenKind} {semi : Token} {ts us : List Token} {stmt : Stmt}
      {stmts : List Stmt} :
      semi.kind = .semicolon → Clause ts stmt → Lines next us stmts →
      Lines next (ts ++ semi :: us) (stmt :: stmts)
  /-- A statement without one: what follows does not carry it on. -/
  | bare {next : TokenKind} {ts us : List Token} {stmt : Stmt} {stmts : List Stmt} :
      firstKind next us ∉ continuers → Clause ts stmt → Lines next us stmts →
      Lines next (ts ++ us) (stmt :: stmts)

/-- A statement, without its semicolon. -/
inductive Clause : List Token → Stmt → Prop
  | binding {kw t assign : Token} {ts : List Token} {value : Expr} :
      kw.kind = .kwLet → t.kind = .ident → assign.kind = .assign →
      Phrase .equality ts value →
      Clause (kw :: t :: assign :: ts) (.binding kw.mark t.name value)
  | leave {kw : Token} {ts : List Token} {value : Expr} :
      kw.kind = .kwReturn → Phrase .equality ts value →
      Clause (kw :: ts) (.leave kw.mark value)
  | expression {t : Token} {ts : List Token} {e : Expr} :
      Phrase .equality (t :: ts) e → Clause (t :: ts) (.expression t.mark e)

end

/-- The tokens are those of a program, up to the end of the file. -/
def Derives (ts : List Token) (p : Program) : Prop :=
  Lines .eof ts p.statements

end MonkeyLang
