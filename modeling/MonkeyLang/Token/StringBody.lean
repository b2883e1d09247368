/-!
# String literals

What stands between the quotes of a string literal. A backslash and the character after it form a
pair; a quote inside a pair does not close the literal. Two pairs are escapes, for a line feed and
for a tab; every other pair stands for itself, backslash included.

`split` finds the end of a literal, `unescape` gives the text that it stands for and `escape` writes
a text as the printer does.
-/

namespace MonkeyLang.StringBody

/-- Splits the characters after an opening quote into the body of the literal and, if a quote
closes it, the characters after that quote. -/
def split : List Char → List Char × Option (List Char)
  | [] => ([], none)
  | '\\' :: c :: cs => ('\\' :: c :: (split cs).1, (split cs).2)
  | c :: cs => if c = '"' then ([], some cs) else (c :: (split cs).1, (split cs).2)

/-- What a backslash and the character after it stand for. -/
def unescapePair (c : Char) : List Char :=
  if c = 'n' then ['\n'] else if c = 't' then ['\t'] else ['\\', c]

/-- The text that the body of a literal stands for. A backslash at the very end stands for
itself. -/
def unescape : List Char → List Char
  | [] => []
  | '\\' :: c :: cs => unescapePair c ++ unescape cs
  | c :: cs => c :: unescape cs

/-- How one character of a text is written in a literal: only a line feed and a tab are escaped. -/
def escapeChar (c : Char) : List Char :=
  if c = '\n' then ['\\', 'n'] else if c = '\t' then ['\\', 't'] else [c]

/-- The body of the literal that is printed for a text. -/
def escape (text : List Char) : List Char :=
  text.flatMap escapeChar

/-- Nothing is lost between the body and the rest. -/
theorem split_append (cs : List Char) :
    (split cs).1 ++ ((split cs).2.map ('"' :: ·)).getD [] = cs := by
  fun_induction split cs with
  | case1 => rfl
  | case2 c cs ih => simpa using ih
  | case3 => simp
  | case4 c cs _ h ih => simpa using ih

end MonkeyLang.StringBody
