import MonkeyLang.Token.Basic
import MonkeyLang.Token.StringBody

/-!
# Lexemes

How a text is cut into lexemes: blanks are skipped, and the longest lexeme that starts at the next
character is taken. A character that starts none is a lexeme of its own, of the kind `illegal`, so
every text can be cut. `tokens` gives the whole sequence, closed by one end-of-file token.
-/

namespace MonkeyLang

/-! ## Character classes -/

/-- The characters that separate lexemes. -/
def isSpace (c : Char) : Bool :=
  c = ' ' || c = '\t' || c = '\r' || c = '\n'

/-- A character that starts a word: an ASCII letter or an underscore. -/
def isWordStart (c : Char) : Bool :=
  ('a' ≤ c && c ≤ 'z') || ('A' ≤ c && c ≤ 'Z') || c = '_'

def isDigit (c : Char) : Bool :=
  '0' ≤ c && c ≤ '9'

/-- A character that continues a word. -/
def isWordPart (c : Char) : Bool :=
  isWordStart c || isDigit c

/-! ## One lexeme -/

/-- A lexeme: its kind, the text of its token, and the characters that it covers. -/
structure Lexeme where
  kind : TokenKind
  text : List Char
  source : List Char
deriving DecidableEq, Repr

/-- A lexeme whose token's text is what it covers. -/
def Lexeme.plain (kind : TokenKind) (source : List Char) : Lexeme :=
  ⟨kind, source, source⟩

def Lexeme.token (x : Lexeme) (p : Place) : Token :=
  ⟨x.kind, String.ofList x.text, p⟩

/-- The string literal whose opening character, which it covers, has just been read, and the
characters after it. A literal that no quote closes runs to the end of the text. -/
def Lexeme.string (opening : Char) (cs : List Char) : Lexeme × List Char :=
  match StringBody.split cs with
  | (body, some rest) => (⟨.string, StringBody.unescape body, opening :: (body ++ ['"'])⟩, rest)
  | (body, none) => (⟨.string, StringBody.unescape body, opening :: body⟩, [])

/-- The longest operator or delimiter that starts with a character, and the characters after it. -/
def Lexeme.operator? (c : Char) (cs : List Char) : Option (Lexeme × List Char) :=
  match cs with
  | [] => (TokenKind.ofSymbol? c).map fun k => (.plain k [c], [])
  | d :: ds =>
    match TokenKind.ofPair? c d with
    | some k => some (.plain k [c, d], ds)
    | none => (TokenKind.ofSymbol? c).map fun k => (.plain k [c], d :: ds)

/-- The lexeme that starts with a character which is not a space, and the characters after it. -/
def Lexeme.read (c : Char) (cs : List Char) : Lexeme × List Char :=
  if isWordStart c then
    let word := c :: cs.takeWhile isWordPart
    (.plain (.ofWord (String.ofList word)) word, cs.dropWhile isWordPart)
  else if isDigit c then
    (.plain .int (c :: cs.takeWhile isDigit), cs.dropWhile isDigit)
  else if c = '"' then
    Lexeme.string c cs
  else
    (Lexeme.operator? c cs).getD (.plain .illegal [c], cs)

theorem Lexeme.string_append (c : Char) (cs : List Char) :
    (Lexeme.string c cs).1.source ++ (Lexeme.string c cs).2 = c :: cs := by
  have h := StringBody.split_append cs
  unfold Lexeme.string
  split <;> simp_all

theorem Lexeme.operator?_append {c : Char} {cs : List Char} {x : Lexeme × List Char}
    (h : Lexeme.operator? c cs = some x) : x.1.source ++ x.2 = c :: cs := by
  unfold Lexeme.operator? at h
  split at h
  · obtain ⟨k, _, rfl⟩ := Option.map_eq_some_iff.1 h
    rfl
  · split at h
    · cases h
      rfl
    · obtain ⟨k, _, rfl⟩ := Option.map_eq_some_iff.1 h
      rfl

/-- A lexeme and the characters after it make up the text. -/
theorem Lexeme.read_append (c : Char) (cs : List Char) :
    (Lexeme.read c cs).1.source ++ (Lexeme.read c cs).2 = c :: cs := by
  unfold Lexeme.read
  split
  · simp [Lexeme.plain]
  · split
    · simp [Lexeme.plain]
    · split
      · exact Lexeme.string_append c cs
      · cases h : Lexeme.operator? c cs with
        | none => simp [Lexeme.plain]
        | some x => simpa using Lexeme.operator?_append h

theorem length_dropWhile_le (p : Char → Bool) (cs : List Char) :
    (cs.dropWhile p).length ≤ cs.length :=
  (List.dropWhile_suffix p).length_le

/-- A lexeme covers at least the character that it starts with. -/
theorem Lexeme.length_read_le (c : Char) (cs : List Char) :
    (Lexeme.read c cs).2.length ≤ cs.length := by
  have h : (Lexeme.read c cs).1.source ≠ [] := by
    unfold Lexeme.read
    split
    · simp [Lexeme.plain]
    · split
      · simp [Lexeme.plain]
      · split
        · unfold Lexeme.string
          split <;> simp
        · cases h : Lexeme.operator? c cs with
          | none => simp [Lexeme.plain]
          | some x =>
            unfold Lexeme.operator? at h
            split at h
            · obtain ⟨k, _, rfl⟩ := Option.map_eq_some_iff.1 h
              simp [Lexeme.plain]
            · split at h
              · cases h
                simp [Lexeme.plain]
              · obtain ⟨k, _, rfl⟩ := Option.map_eq_some_iff.1 h
                simp [Lexeme.plain]
  have happ := congrArg List.length (Lexeme.read_append c cs)
  have hpos : 0 < (Lexeme.read c cs).1.source.length := List.length_pos_iff.2 h
  simp at happ
  omega

/-! ## All tokens -/

/-- The tokens of a text that starts at a place, closed by one end-of-file token at its end. -/
def tokensFrom (p : Place) (cs : List Char) : List Token :=
  let here := p.after (cs.takeWhile isSpace)
  match _h : cs.dropWhile isSpace with
  | [] => [⟨.eof, "", here⟩]
  | c :: rest =>
    let read := Lexeme.read c rest
    read.1.token here :: tokensFrom (here.after read.1.source) read.2
termination_by cs.length
decreasing_by
  have h₁ := Lexeme.length_read_le c rest
  have h₂ := length_dropWhile_le isSpace cs
  rw [_h, List.length_cons] at h₂
  omega

/-- The tokens of a text, ending with the end-of-file token. -/
def tokens (cs : List Char) : List Token :=
  tokensFrom .start cs

def tokenize (source : String) : List Token :=
  tokens source.toList

end MonkeyLang
