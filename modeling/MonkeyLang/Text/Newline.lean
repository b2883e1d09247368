/-!
# Line ends

A text file may end its lines with a line feed, a carriage return or both; read as text, each of
the three is one line feed.
-/

namespace MonkeyLang.Text

/-- Turns every line end, CR LF, lone CR or LF, into one LF. -/
def unifyNewlines : List Char → List Char
  | '\r' :: '\n' :: cs => '\n' :: unifyNewlines cs
  | '\r' :: cs => '\n' :: unifyNewlines cs
  | c :: cs => c :: unifyNewlines cs
  | [] => []

end MonkeyLang.Text
