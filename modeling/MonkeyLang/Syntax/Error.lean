import MonkeyLang.Token.Basic

/-!
# Syntax errors

What can be wrong with a text, and how it is reported.
-/

namespace MonkeyLang

/-- What is wrong with a text. -/
inductive SyntaxError
  /-- A token of another kind was expected. -/
  | expected (wanted found : TokenKind)
  /-- No expression starts with a token of this kind. -/
  | noExpression (found : TokenKind)
  /-- An integer literal is too large. -/
  | integerRange (literal : String)
deriving DecidableEq, Repr

def SyntaxError.message : SyntaxError → String
  | .expected wanted found =>
    "expected next token to be " ++ wanted.tag ++ ", got " ++ found.tag ++ " instead"
  | .noExpression found => "no prefix parse function for " ++ found.tag ++ " found"
  | .integerRange literal => "could not parse \"" ++ literal ++ "\" as integer"

end MonkeyLang
