import MonkeyLang.Text.Hex

/-!
# JSON documents

A JSON document without fractions whose objects keep the order of their members, and its indented
text. The text is printable ASCII: every other character is written as one escape of four
hexadecimal digits, or as two (a surrogate pair) above U+FFFF.
-/

namespace MonkeyLang

inductive Json
  | null
  | bool (value : Bool)
  | int (value : Int)
  | str (value : String)
  | arr (items : List Json)
  | obj (members : List (String × Json))
deriving Inhabited, Repr

namespace Json

/-- An escape of four lower-case hexadecimal digits. -/
def unitEscape (n : Nat) : List Char :=
  '\\' :: 'u' :: Text.hexDigits 4 n

/-- How one character is written inside a JSON string. -/
def escapeChar (c : Char) : List Char :=
  if c = '"' then ['\\', '"']
  else if c = '\\' then ['\\', '\\']
  else if c = '\n' then ['\\', 'n']
  else if c = '\r' then ['\\', 'r']
  else if c = '\t' then ['\\', 't']
  else if c = '\x08' then ['\\', 'b']
  else if c = '\x0c' then ['\\', 'f']
  else if 0x20 ≤ c.toNat && c.toNat ≤ 0x7E then [c]
  else if c.toNat < 0x10000 then unitEscape c.toNat
  else
    let n := c.toNat - 0x10000
    unitEscape (0xD800 + n / 0x400) ++ unitEscape (0xDC00 + n % 0x400)

def quoted (s : String) : String :=
  String.ofList ('"' :: (s.toList.flatMap escapeChar ++ ['"']))

/-- A line break followed by two blanks per level. -/
def newline (level : Nat) : String :=
  "\n" ++ String.ofList (List.replicate (2 * level) ' ')

mutual

/-- The indented text of a document that stands at a given level: each item and each member has a
line of its own, and an empty list or object has none. -/
def indented (level : Nat) : Json → String
  | .null => "null"
  | .bool true => "true"
  | .bool false => "false"
  | .int n => toString n
  | .str s => quoted s
  | .arr [] => "[]"
  | .arr (x :: xs) =>
    "[" ++ newline (level + 1) ++ indented (level + 1) x ++ indentedItems (level + 1) xs ++
      newline level ++ "]"
  | .obj [] => "\x7b\x7d"
  | .obj ((k, x) :: ms) =>
    "\x7b" ++ newline (level + 1) ++ quoted k ++ ": " ++ indented (level + 1) x ++
      indentedMembers (level + 1) ms ++ newline level ++ "\x7d"

def indentedItems (level : Nat) : List Json → String
  | [] => ""
  | x :: xs => "," ++ newline level ++ indented level x ++ indentedItems level xs

def indentedMembers (level : Nat) : List (String × Json) → String
  | [] => ""
  | (k, x) :: ms =>
    "," ++ newline level ++ quoted k ++ ": " ++ indented level x ++ indentedMembers level ms

end

/-- The text of a document, indented by two blanks per level. -/
def pretty (doc : Json) : String :=
  indented 0 doc

end Json

end MonkeyLang
