import MonkeyLang.Text.Hex

/-!
# Quoted text

A text written between quotes for diagnostics, on one line and with every non-printable character
spelled out. The delimiter is the apostrophe, unless the text holds an apostrophe and no quote.
-/

namespace MonkeyLang.Text

/-- The characters that a quoted text spells out in hexadecimal: the control characters, the
no-break space, the soft hyphen and the last code point. -/
def isUnprintable (c : Char) : Bool :=
  let n := c.toNat
  n ≤ 0x1F || (0x7F ≤ n && n ≤ 0xA0) || n == 0xAD || n == 0x10FFFF

/-- How one character is written between delimiters `d`. -/
def quoteChar (d c : Char) : List Char :=
  if c = d ∨ c = '\\' then ['\\', c]
  else if c = '\n' then ['\\', 'n']
  else if c = '\r' then ['\\', 'r']
  else if c = '\t' then ['\\', 't']
  else if isUnprintable c then
    if c.toNat < 0x100 then '\\' :: 'x' :: hexDigits 2 c.toNat
    else if c.toNat < 0x10000 then '\\' :: 'u' :: hexDigits 4 c.toNat
    else '\\' :: 'U' :: hexDigits 8 c.toNat
  else [c]

/-- The delimiter of a quoted text. -/
def delimiter (cs : List Char) : Char :=
  if cs.contains '\'' && !cs.contains '"' then '"' else '\''

/-- A text between quotes, with its special characters escaped. -/
def quote (s : String) : String :=
  let d := delimiter s.toList
  String.ofList (d :: (s.toList.flatMap (quoteChar d) ++ [d]))

/-- A list of quoted texts between brackets. -/
def quoteList (ss : List String) : String :=
  "[" ++ ", ".intercalate (ss.map quote) ++ "]"

end MonkeyLang.Text
