/-!
# Tokens

The kinds of token, the spellings of the keywords and of the fixed operators and delimiters, and
the token itself, which records its text and the place where it starts.
-/

namespace MonkeyLang

/-! ## Places -/

/-- A place in a text: a line and a column, both counted from one in a text that starts at the
default place. -/
structure Place where
  line : Int
  column : Int
deriving DecidableEq, Inhabited, Repr

def Place.start : Place := ⟨1, 1⟩

/-- The place after a character: a line feed starts a line. -/
def Place.next (p : Place) (c : Char) : Place :=
  if c = '\n' then ⟨p.line + 1, 1⟩ else ⟨p.line, p.column + 1⟩

/-- The place after a run of characters. -/
def Place.after (p : Place) (cs : List Char) : Place :=
  cs.foldl Place.next p

@[simp] theorem Place.after_nil (p : Place) : p.after [] = p := rfl

@[simp] theorem Place.after_cons (p : Place) (c : Char) (cs : List Char) :
    p.after (c :: cs) = (p.next c).after cs := rfl

theorem Place.after_append (p : Place) (cs ds : List Char) :
    p.after (cs ++ ds) = (p.after cs).after ds := by
  simp [Place.after]

/-! ## Kinds -/

/-- What a token is. A token that is made by hand may have a kind that no text gives, known by its
name only. -/
inductive TokenKind
  | illegal | eof
  | ident | int | string
  | assign | plus | minus | bang | asterisk | slash | lt | gt | eq | notEq
  | comma | semicolon | colon
  | lparen | rparen | lbrace | rbrace | lbracket | rbracket
  | kwFn | kwLet | kwReturn | kwIf | kwElse | kwWhile | kwTrue | kwFalse
  | unknown (tag : String)
deriving DecidableEq, Repr

namespace TokenKind

/-- The name of a kind in diagnostics. -/
def tag : TokenKind → String
  | illegal => "ILLEGAL"
  | eof => "EOF"
  | ident => "IDENT"
  | int => "INT"
  | string => "STRING"
  | assign => "ASSIGN"
  | plus => "PLUS"
  | minus => "MINUS"
  | bang => "BANG"
  | asterisk => "ASTERISK"
  | slash => "SLASH"
  | lt => "LT"
  | gt => "GT"
  | eq => "EQ"
  | notEq => "NOT_EQ"
  | comma => "COMMA"
  | semicolon => "SEMICOLON"
  | colon => "COLON"
  | lparen => "LPAREN"
  | rparen => "RPAREN"
  | lbrace => "LBRACE"
  | rbrace => "RBRACE"
  | lbracket => "LBRACKET"
  | rbracket => "RBRACKET"
  | kwFn => "FUNCTION"
  | kwLet => "LET"
  | kwReturn => "RETURN"
  | kwIf => "IF"
  | kwElse => "ELSE"
  | kwWhile => "WHILE"
  | kwTrue => "TRUE"
  | kwFalse => "FALSE"
  | unknown tag => tag

/-- Every kind of the language once. -/
def all : List TokenKind :=
  [illegal, eof, ident, int, string, assign, plus, minus, bang, asterisk, slash, lt, gt, eq, notEq,
    comma, semicolon, colon, lparen, rparen, lbrace, rbrace, lbracket, rbracket,
    kwFn, kwLet, kwReturn, kwIf, kwElse, kwWhile, kwTrue, kwFalse]

def ofTag (tag : String) : TokenKind :=
  (all.find? (·.tag == tag)).getD (unknown tag)

/-- The keyword with a given spelling. -/
def keyword? : String → Option TokenKind
  | "fn" => some kwFn
  | "let" => some kwLet
  | "return" => some kwReturn
  | "if" => some kwIf
  | "else" => some kwElse
  | "while" => some kwWhile
  | "true" => some kwTrue
  | "false" => some kwFalse
  | _ => none

/-- The kind of a word: a keyword, or else an identifier. -/
def ofWord (word : String) : TokenKind :=
  (keyword? word).getD ident

/-- The operator or delimiter of one character. -/
def ofSymbol? : Char → Option TokenKind
  | '=' => some assign
  | '+' => some plus
  | '-' => some minus
  | '!' => some bang
  | '*' => some asterisk
  | '/' => some slash
  | '<' => some lt
  | '>' => some gt
  | ',' => some comma
  | ';' => some semicolon
  | ':' => some colon
  | '(' => some lparen
  | ')' => some rparen
  | '{' => some lbrace
  | '}' => some rbrace
  | '[' => some lbracket
  | ']' => some rbracket
  | _ => none

/-- The operator of two characters. -/
def ofPair? : Char → Char → Option TokenKind
  | '=', '=' => some eq
  | '!', '=' => some notEq
  | _, _ => none

end TokenKind

/-! ## Tokens -/

/-- A token: its kind, its text (the content, for a string) and the place of its first
character. -/
structure Token where
  kind : TokenKind
  text : String
  place : Place
deriving DecidableEq, Repr

/-- A token in diagnostics: its kind and its text as it stands. -/
def Token.describe (t : Token) : String :=
  "Token(" ++ t.kind.tag ++ ", " ++ t.text ++ ")"

end MonkeyLang
