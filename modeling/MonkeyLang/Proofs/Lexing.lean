import MonkeyLang.Token.Lexeme

/-!
# Tokens of a text

What holds of the tokens of every text: there is one end-of-file token and it
is the last one (`tokensFrom_eq_append`), and an integer token is made of
digits.

Where a token stands has no influence on what it is. The kinds and texts of
the tokens (`contents`) can therefore be read off a text from left to right,
one lexeme at a time and without places.

A text ends inside a string literal if one of its lexemes opens a literal that no
quote closes. Where lexemes start is what the lexer decides: a quote inside a
literal opens none. `Lexes` follows the lexer through a text, from one start of a
lexeme to the next.
-/

namespace MonkeyLang

/-! ## Kinds of lexemes -/

theorem ofWord_ne_eof (word : String) : TokenKind.ofWord word ≠ .eof := by
  unfold TokenKind.ofWord TokenKind.keyword?
  split <;> decide

theorem ofWord_ne_int (word : String) : TokenKind.ofWord word ≠ .int := by
  unfold TokenKind.ofWord TokenKind.keyword?
  split <;> decide

theorem ofSymbol?_ne {c : Char} {k : TokenKind} (h : TokenKind.ofSymbol? c = some k) :
    k ≠ .eof ∧ k ≠ .int := by
  unfold TokenKind.ofSymbol? at h
  split at h <;> cases h <;> decide

theorem ofPair?_ne {c d : Char} {k : TokenKind} (h : TokenKind.ofPair? c d = some k) :
    k ≠ .eof ∧ k ≠ .int := by
  unfold TokenKind.ofPair? at h
  split at h <;> cases h <;> decide

theorem operator?_kind_ne {c : Char} {cs : List Char} {x : Lexeme × List Char}
    (h : Lexeme.operator? c cs = some x) : x.1.kind ≠ .eof ∧ x.1.kind ≠ .int := by
  unfold Lexeme.operator? at h
  split at h
  · obtain ⟨k, hk, rfl⟩ := Option.map_eq_some_iff.mp h
    exact ofSymbol?_ne hk
  · split at h
    · rename_i k hk
      cases h
      exact ofPair?_ne hk
    · obtain ⟨k, hk, rfl⟩ := Option.map_eq_some_iff.mp h
      exact ofSymbol?_ne hk

theorem string_kind (c : Char) (cs : List Char) : (Lexeme.string c cs).1.kind = .string := by
  unfold Lexeme.string
  split <;> rfl

/-- No lexeme is an end of file, and an integer is made of digits. -/
theorem read_kind (c : Char) (cs : List Char) :
    (Lexeme.read c cs).1.kind ≠ .eof ∧
      ((Lexeme.read c cs).1.kind = .int →
        ∀ d ∈ (Lexeme.read c cs).1.text, isDigit d = true) := by
  unfold Lexeme.read
  split
  · exact ⟨ofWord_ne_eof _, fun h => absurd h (ofWord_ne_int _)⟩
  · split
    · rename_i hc
      refine ⟨nofun, fun _ d hd => ?_⟩
      rcases List.mem_cons.mp hd with rfl | hd
      · exact hc
      · exact List.all_eq_true.mp List.all_takeWhile d hd
    · split
      · rw [string_kind]
        exact ⟨by decide, nofun⟩
      · cases h : Lexeme.operator? c cs with
        | none => exact ⟨nofun, nofun⟩
        | some x =>
            obtain ⟨heof, hint⟩ := operator?_kind_ne h
            exact ⟨heof, fun hk => absurd hk hint⟩

/-! ## The sequence of tokens -/

theorem tokensFrom_nil {p : Place} {cs : List Char} (h : cs.dropWhile isSpace = []) :
    tokensFrom p cs = [⟨.eof, "", p.after (cs.takeWhile isSpace)⟩] := by
  rw [tokensFrom]
  split
  · rfl
  · rename_i hc
    rw [h] at hc
    cases hc

theorem tokensFrom_read {p : Place} {cs : List Char} {c : Char} {rest : List Char}
    (h : cs.dropWhile isSpace = c :: rest) :
    tokensFrom p cs =
      (Lexeme.read c rest).1.token (p.after (cs.takeWhile isSpace)) ::
        tokensFrom ((p.after (cs.takeWhile isSpace)).after (Lexeme.read c rest).1.source)
          (Lexeme.read c rest).2 := by
  rw [tokensFrom]
  split
  · rename_i hc
    rw [h] at hc
    cases hc
  · rename_i hc
    rw [h] at hc
    obtain ⟨rfl, rfl⟩ := List.cons.inj hc
    rfl

theorem tokensFrom_cons {p : Place} {cs : List Char} {c : Char} {rest : List Char}
    (h : cs.dropWhile isSpace = c :: rest) :
    ∃ q r, tokensFrom p cs =
      (Lexeme.read c rest).1.token q :: tokensFrom r (Lexeme.read c rest).2 :=
  ⟨_, _, tokensFrom_read h⟩

/-- The tokens of a text are those before the end-of-file token, and that
token. -/
theorem tokensFrom_eq_append (p : Place) (cs : List Char) :
    ∃ ts t, tokensFrom p cs = ts ++ [t] ∧ t.kind = .eof ∧ t.text = "" ∧
      ∀ t ∈ ts, t.kind ≠ .eof ∧ (t.kind = .int → ∀ c ∈ t.text.toList, isDigit c = true) := by
  fun_induction tokensFrom p cs with
  | case1 p cs here h => exact ⟨[], _, rfl, rfl, rfl, nofun⟩
  | case2 p cs here c rest h read ih =>
      obtain ⟨ts, t, hts, hk, htext, hall⟩ := ih
      refine ⟨read.1.token here :: ts, t, by rw [hts, List.cons_append], hk, htext, ?_⟩
      intro u hu
      rcases List.mem_cons.mp hu with rfl | hu
      · obtain ⟨heof, hint⟩ := read_kind c rest
        exact ⟨heof, by simpa [Lexeme.token] using hint⟩
      · exact hall u hu

/-! ## Contents -/

/-- The kind and the text of a token. -/
def Token.content (t : Token) : TokenKind × String := (t.kind, t.text)

/-- The kinds and texts of the tokens of a text. -/
def contents (cs : List Char) : List (TokenKind × String) :=
  (tokens cs).map Token.content

/-- Places do not matter. -/
theorem content_tokensFrom (p q : Place) (cs : List Char) :
    (tokensFrom p cs).map Token.content = (tokensFrom q cs).map Token.content := by
  fun_induction tokensFrom p cs generalizing q with
  | case1 p cs here h => rw [tokensFrom_nil h]; rfl
  | case2 p cs here c rest h read ih =>
      obtain ⟨q', r, hq⟩ := tokensFrom_cons (p := q) h
      rw [hq, List.map_cons, List.map_cons, ih r]
      rfl

theorem contents_nil : contents [] = [(.eof, "")] := by
  rw [contents, tokens, tokensFrom_nil rfl]
  rfl

/-- A space before a lexeme is skipped. -/
theorem contents_space {c : Char} (hc : isSpace c = true) (cs : List Char) :
    contents (c :: cs) = contents cs := by
  have hd : (c :: cs).dropWhile isSpace = cs.dropWhile isSpace :=
    List.dropWhile_cons_of_pos hc
  cases h : cs.dropWhile isSpace with
  | nil =>
      rw [contents, contents, tokens, tokens, tokensFrom_nil h, tokensFrom_nil (hd.trans h)]
      rfl
  | cons d rest =>
      obtain ⟨p, q, hp⟩ := tokensFrom_cons (p := Place.start) h
      obtain ⟨p', q', hp'⟩ := tokensFrom_cons (p := Place.start) (hd.trans h)
      rw [contents, contents, tokens, tokens, hp, hp', List.map_cons, List.map_cons,
        content_tokensFrom q q']
      rfl

/-- A lexeme gives its token, and reading goes on behind it. -/
theorem contents_read {c : Char} (hc : isSpace c = false) (cs : List Char) :
    contents (c :: cs) =
      ((Lexeme.read c cs).1.kind, String.ofList (Lexeme.read c cs).1.text) ::
        contents (Lexeme.read c cs).2 := by
  have hd : (c :: cs).dropWhile isSpace = c :: cs :=
    List.dropWhile_cons_of_neg (by simp [hc])
  obtain ⟨p, q, hp⟩ := tokensFrom_cons (p := Place.start) hd
  rw [contents, contents, tokens, tokens, hp, List.map_cons,
    content_tokensFrom q Place.start]
  rfl

/-! ## Lexemes one after another -/

/-- The characters do not carry on a word or a number before them. -/
def WordEnds (rest : List Char) : Prop := ∀ c, rest.head? = some c → isWordPart c = false

theorem wordEnds_nil : WordEnds [] := nofun

theorem wordEnds_cons {c : Char} (hc : isWordPart c = false) (cs : List Char) :
    WordEnds (c :: cs) := by
  rintro _ ⟨⟩
  exact hc

/-- A run of characters of one class ends where the class does. -/
theorem takeWhile_append_of_ends {p : Char → Bool} {cs rest : List Char}
    (hcs : ∀ c ∈ cs, p c = true) (hrest : ∀ c, rest.head? = some c → p c = false) :
    (cs ++ rest).takeWhile p = cs ∧ (cs ++ rest).dropWhile p = rest := by
  rw [List.takeWhile_append_of_pos hcs, List.dropWhile_append_of_pos hcs]
  cases rest with
  | nil => simp
  | cons c rest => simp [hrest c rfl]

theorem isSpace_of_isWordPart {c : Char} (h : isWordPart c = true) : isSpace c = false := by
  cases hs : isSpace c with
  | false => rfl
  | true =>
      simp only [isSpace, Bool.or_eq_true, decide_eq_true_eq] at hs
      rcases hs with ((rfl | rfl) | rfl) | rfl <;> exact absurd h (by decide)

/-- A text that is one word. -/
def isWord (w : String) : Bool :=
  match w.toList with
  | [] => false
  | c :: cs => isWordStart c && cs.all isWordPart

/-- A text that is an identifier. -/
def isName (w : String) : Bool :=
  isWord w && (TokenKind.keyword? w).isNone

theorem isWord_iff {w : String} : isWord w = true ↔
    ∃ c cs, w.toList = c :: cs ∧ isWordStart c = true ∧ ∀ d ∈ cs, isWordPart d = true := by
  unfold isWord
  cases w.toList with
  | nil => simp
  | cons c cs => simp [List.cons.injEq, and_assoc]

theorem read_word {c : Char} {cs rest : List Char} (hc : isWordStart c = true)
    (hcs : ∀ d ∈ cs, isWordPart d = true) (hrest : WordEnds rest) :
    Lexeme.read c (cs ++ rest) =
      (.plain (.ofWord (String.ofList (c :: cs))) (c :: cs), rest) := by
  obtain ⟨htake, hdrop⟩ := takeWhile_append_of_ends hcs hrest
  rw [Lexeme.read, if_pos hc, htake, hdrop]

theorem contents_word {w : String} (hw : isWord w = true) {rest : List Char}
    (hrest : WordEnds rest) :
    contents (w.toList ++ rest) = (.ofWord w, w) :: contents rest := by
  obtain ⟨c, cs, hlist, hc, hcs⟩ := isWord_iff.mp hw
  have hpart : isWordPart c = true := by rw [isWordPart, hc, Bool.true_or]
  have hword : String.ofList (c :: cs) = w := by rw [← hlist, String.ofList_toList]
  rw [hlist, List.cons_append, contents_read (isSpace_of_isWordPart hpart),
    read_word hc hcs hrest]
  simp only [Lexeme.plain, hword]

theorem contents_name {w : String} (hw : isName w = true) {rest : List Char}
    (hrest : WordEnds rest) : contents (w.toList ++ rest) = (.ident, w) :: contents rest := by
  rw [isName, Bool.and_eq_true, Option.isNone_iff_eq_none] at hw
  rw [contents_word hw.1 hrest, TokenKind.ofWord, hw.2, Option.getD_none]

theorem isWordStart_of_isDigit {c : Char} (h : isDigit c = true) : isWordStart c = false := by
  have h0 : '0'.val.toNat = 48 := rfl
  have h9 : '9'.val.toNat = 57 := rfl
  have ha : 'a'.val.toNat = 97 := rfl
  have hA : 'A'.val.toNat = 65 := rfl
  simp only [isDigit, isWordStart, Bool.and_eq_true, decide_eq_true_eq, Char.le_def,
    UInt32.le_iff_toNat_le, Bool.or_eq_false_iff, Bool.and_eq_false_iff,
    decide_eq_false_iff_not] at h ⊢
  refine ⟨⟨.inl (by omega), .inl (by omega)⟩, ?_⟩
  rintro rfl
  exact absurd h.2 (by decide)

theorem read_digits {c : Char} {cs rest : List Char} (hc : isDigit c = true)
    (hcs : ∀ d ∈ cs, isDigit d = true) (hrest : WordEnds rest) :
    Lexeme.read c (cs ++ rest) = (.plain .int (c :: cs), rest) := by
  have hends : ∀ d, rest.head? = some d → isDigit d = false := fun d hd => by
    have hpart := hrest d hd
    rw [isWordPart, Bool.or_eq_false_iff] at hpart
    exact hpart.2
  obtain ⟨htake, hdrop⟩ := takeWhile_append_of_ends hcs hends
  rw [Lexeme.read, if_neg (by rw [isWordStart_of_isDigit hc]; decide), if_pos hc, htake, hdrop]

theorem isSpace_of_isDigit {c : Char} (h : isDigit c = true) : isSpace c = false :=
  isSpace_of_isWordPart (by rw [isWordPart, h, Bool.or_true])

theorem contents_digits {c : Char} {cs rest : List Char} (hc : isDigit c = true)
    (hcs : ∀ d ∈ cs, isDigit d = true) (hrest : WordEnds rest) :
    contents (c :: (cs ++ rest)) = (.int, String.ofList (c :: cs)) :: contents rest := by
  rw [contents_read (isSpace_of_isDigit hc), read_digits hc hcs hrest]
  rfl

theorem ofSymbol?_class {c : Char} {k : TokenKind} (h : TokenKind.ofSymbol? c = some k) :
    isSpace c = false ∧ isWordStart c = false ∧ isDigit c = false ∧ c ≠ '"' := by
  unfold TokenKind.ofSymbol? at h
  split at h <;> first | decide | cases h

theorem read_symbol {c : Char} {k : TokenKind} (h : TokenKind.ofSymbol? c = some k)
    (cs : List Char) :
    Lexeme.read c cs = (Lexeme.operator? c cs).getD (.plain .illegal [c], cs) := by
  obtain ⟨-, hstart, hdigit, hquote⟩ := ofSymbol?_class h
  rw [Lexeme.read, if_neg (by rw [hstart]; decide), if_neg (by rw [hdigit]; decide),
    if_neg hquote]

/-- An operator or delimiter of one character, where no longer one starts. -/
theorem contents_symbol {c : Char} {k : TokenKind} (h : TokenKind.ofSymbol? c = some k)
    {cs : List Char} (hcs : ∀ d, cs.head? = some d → TokenKind.ofPair? c d = none) :
    contents (c :: cs) = (k, String.ofList [c]) :: contents cs := by
  have hoperator : Lexeme.operator? c cs = some (.plain k [c], cs) := by
    unfold Lexeme.operator?
    cases cs with
    | nil => simp [h]
    | cons d ds => simp [hcs d rfl, h]
  rw [contents_read (ofSymbol?_class h).1, read_symbol h, hoperator]
  rfl

/-- Most of them start no longer one. -/
theorem contents_delimiter (c : Char) {k : TokenKind} (h : TokenKind.ofSymbol? c = some k)
    (hc : c ≠ '=' ∧ c ≠ '!') (cs : List Char) :
    contents (c :: cs) = (k, String.ofList [c]) :: contents cs := by
  refine contents_symbol h ?_
  intro d _
  unfold TokenKind.ofPair?
  split
  · exact absurd rfl hc.1
  · exact absurd rfl hc.2
  · rfl

/-- An operator of two characters. -/
theorem contents_pair {c d : Char} {k l : TokenKind} (h : TokenKind.ofSymbol? c = some l)
    (hpair : TokenKind.ofPair? c d = some k) (cs : List Char) :
    contents (c :: d :: cs) = (k, String.ofList [c, d]) :: contents cs := by
  have hoperator : Lexeme.operator? c (d :: cs) = some (.plain k [c, d], cs) := by
    simp [Lexeme.operator?, hpair]
  rw [contents_read (ofSymbol?_class h).1, read_symbol h, hoperator]
  rfl

/-! ## Open literals -/

/-- On its way through a text the lexer comes to the rest of it: at a space it
steps over the space, elsewhere over the lexeme that starts there. -/
inductive Lexes : List Char → List Char → Prop
  | here {cs : List Char} : Lexes cs cs
  | space {c : Char} {cs ds : List Char} :
      isSpace c = true → Lexes cs ds → Lexes (c :: cs) ds
  | lexeme {c : Char} {cs ds : List Char} :
      isSpace c = false → Lexes (Lexeme.read c cs).2 ds → Lexes (c :: cs) ds

/-- The text ends inside a string literal: the lexer comes to a quote that opens
a literal, and no quote closes it. -/
def EndsInString (cs : List Char) : Prop :=
  ∃ body, Lexes cs ('"' :: body) ∧ (StringBody.split body).2 = none

theorem not_endsInString_nil : ¬EndsInString [] := by
  rintro ⟨body, hlex, -⟩
  exact nomatch hlex

theorem endsInString_space {c : Char} (hc : isSpace c = true) (cs : List Char) :
    EndsInString (c :: cs) ↔ EndsInString cs := by
  constructor
  · rintro ⟨body, hlex, hopen⟩
    cases hlex with
    | here => exact absurd hc (by decide)
    | space _ h => exact ⟨body, h, hopen⟩
    | lexeme hc' _ => exact absurd (hc.symm.trans hc') (by decide)
  · rintro ⟨body, hlex, hopen⟩
    exact ⟨body, .space hc hlex, hopen⟩

/-- A text that starts with a lexeme ends inside a literal if this lexeme is an
open one, or if the text behind it does. -/
theorem endsInString_read {c : Char} (hc : isSpace c = false) (cs : List Char) :
    EndsInString (c :: cs) ↔
      (c = '"' ∧ (StringBody.split cs).2 = none) ∨ EndsInString (Lexeme.read c cs).2 := by
  constructor
  · rintro ⟨body, hlex, hopen⟩
    cases hlex with
    | here => exact .inl ⟨rfl, hopen⟩
    | space hc' _ => exact absurd (hc'.symm.trans hc) (by decide)
    | lexeme _ h => exact .inr ⟨body, h, hopen⟩
  · rintro (⟨rfl, hopen⟩ | ⟨body, hlex, hopen⟩)
    · exact ⟨cs, .here, hopen⟩
    · exact ⟨body, .lexeme hc hlex, hopen⟩

end MonkeyLang
