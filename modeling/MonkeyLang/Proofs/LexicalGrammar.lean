import MonkeyLang.Proofs.StringLiteral

/-!
# The lexical grammar

What the lexemes of a text are, said without the lexer: words, runs of digits, string
literals, the fixed texts of the operators and delimiters, and the characters that start
none of these. Whether a lexeme stands at the front of a text depends on what comes after
it (`Lexeme.StandsBefore`): a word or a number that could be longer is none, and neither is
`=` where `==` could be read.

What the lexer reads at the front of a text stands there (`Lexeme.read_stands`), and
nothing else does (`Lexeme.read_of_stands`).
-/

namespace MonkeyLang

/-! ## Tables -/

/-- The reserved words. -/
def keywords : List (String × TokenKind) :=
  [("fn", .kwFn), ("let", .kwLet), ("return", .kwReturn), ("if", .kwIf), ("else", .kwElse),
    ("while", .kwWhile), ("true", .kwTrue), ("false", .kwFalse)]

/-- The operators and delimiters. -/
def fixedTexts : List (List Char × TokenKind) :=
  [(['='], .assign), (['=', '='], .eq), (['+'], .plus), (['-'], .minus), (['!'], .bang),
    (['!', '='], .notEq), (['*'], .asterisk), (['/'], .slash), (['<'], .lt), (['>'], .gt),
    ([','], .comma), ([';'], .semicolon), ([':'], .colon), (['('], .lparen), ([')'], .rparen),
    (['{'], .lbrace), (['}'], .rbrace), (['['], .lbracket), ([']'], .rbracket)]

theorem keyword?_eq_some_iff {w : String} {k : TokenKind} :
    TokenKind.keyword? w = some k ↔ (w, k) ∈ keywords := by
  constructor
  · intro h
    unfold TokenKind.keyword? at h
    split at h <;> cases h <;> decide
  · intro h
    simp only [keywords, List.mem_cons, Prod.mk.injEq, List.not_mem_nil, or_false] at h
    rcases h with h | h | h | h | h | h | h | h <;> obtain ⟨rfl, rfl⟩ := h <;> rfl

theorem ofSymbol?_eq_some_iff {c : Char} {k : TokenKind} :
    TokenKind.ofSymbol? c = some k ↔ ([c], k) ∈ fixedTexts := by
  constructor
  · intro h
    unfold TokenKind.ofSymbol? at h
    split at h <;> cases h <;> decide
  · intro h
    simp [fixedTexts] at h
    rcases h with h | h | h | h | h | h | h | h | h | h | h | h | h | h | h | h | h <;>
      obtain ⟨rfl, rfl⟩ := h <;> rfl

theorem ofPair?_eq_some_iff {c d : Char} {k : TokenKind} :
    TokenKind.ofPair? c d = some k ↔ ([c, d], k) ∈ fixedTexts := by
  constructor
  · intro h
    unfold TokenKind.ofPair? at h
    split at h <;> cases h <;> decide
  · intro h
    simp [fixedTexts] at h
    rcases h with h | h <;> obtain ⟨⟨rfl, rfl⟩, rfl⟩ := h <;> rfl

/-- A fixed text is a symbol, or a pair of characters. -/
theorem length_of_mem_fixedTexts {text : List Char} {k : TokenKind} (h : (text, k) ∈ fixedTexts) :
    (∃ c, text = [c]) ∨ ∃ c d, text = [c, d] := by
  have hlength : ∀ f ∈ fixedTexts, f.1.length = 1 ∨ f.1.length = 2 := by decide
  match text, hlength _ h with
  | [c], _ => exact .inl ⟨c, rfl⟩
  | [c, d], _ => exact .inr ⟨c, d, rfl⟩

/-- A fixed text starts with a symbol, which is no space. -/
theorem head_of_mem_fixedTexts {text : List Char} {k : TokenKind} (h : (text, k) ∈ fixedTexts) :
    ∃ c cs l, text = c :: cs ∧ TokenKind.ofSymbol? c = some l ∧ isSpace c = false := by
  have hhead : fixedTexts.all (fun f => f.1.head?.any fun c =>
      (TokenKind.ofSymbol? c).isSome && !isSpace c) = true := by decide
  have hany := List.all_eq_true.mp hhead _ h
  cases text with
  | nil => exact nomatch hany
  | cons c cs =>
      obtain ⟨hsymbol, hspace⟩ := Bool.and_eq_true_iff.mp hany
      obtain ⟨l, hl⟩ := Option.isSome_iff_exists.mp hsymbol
      exact ⟨c, cs, l, rfl, hl, by simpa using hspace⟩

/-! ## String literals -/

namespace StringBody

/-- What may stand between the quotes of a string literal, and the text that it stands
for. A backslash and the character after it are a pair, whatever this character is. The
pairs for a line feed and a tab are translated, every other pair is kept as it is. No
quote stands outside a pair. -/
inductive Means : List Char → List Char → Prop
  | nil : Means [] []
  | lineFeed {cs text : List Char} : Means cs text → Means ('\\' :: 'n' :: cs) ('\n' :: text)
  | tab {cs text : List Char} : Means cs text → Means ('\\' :: 't' :: cs) ('\t' :: text)
  | pair {c : Char} {cs text : List Char} :
      c ≠ 'n' → c ≠ 't' → Means cs text → Means ('\\' :: c :: cs) ('\\' :: c :: text)
  | plain {c : Char} {cs text : List Char} :
      c ≠ '\\' → c ≠ '"' → Means cs text → Means (c :: cs) (c :: text)

variable {body text : List Char}

/-- A body does not end before its last character, and reading goes on behind it. -/
theorem Means.split_append (h : Means body text) (cs : List Char) :
    split (body ++ cs) = (body ++ (split cs).1, (split cs).2) := by
  induction h with
  | nil => rfl
  | lineFeed _ ih => rw [List.cons_append, List.cons_append, split_pair, ih]; rfl
  | tab _ ih => rw [List.cons_append, List.cons_append, split_pair, ih]; rfl
  | pair _ _ _ ih => rw [List.cons_append, List.cons_append, split_pair, ih]; rfl
  | plain hslash hquote _ ih => rw [List.cons_append, split_cons hslash hquote, ih]; rfl

theorem Means.unescape_append (h : Means body text) (cs : List Char) :
    unescape (body ++ cs) = text ++ unescape cs := by
  induction h with
  | nil => rfl
  | lineFeed _ ih => rw [List.cons_append, List.cons_append, unescape, ih]; rfl
  | tab _ ih => rw [List.cons_append, List.cons_append, unescape, ih]; rfl
  | pair hn ht _ ih =>
      rw [List.cons_append, List.cons_append, unescape, ih, unescapePair, if_neg hn, if_neg ht]
      rfl
  | plain hslash _ _ ih => rw [List.cons_append, unescape_cons hslash, ih]; rfl

theorem Means.split_closed (h : Means body text) (rest : List Char) :
    split (body ++ '"' :: rest) = (body, some rest) := by
  rw [h.split_append, split, if_pos rfl, List.append_nil]
  intro c cs hquote
  exact absurd hquote (by decide)

theorem Means.split_open (h : Means body text) : split body = (body, none) := by
  have happend := h.split_append []
  rwa [List.append_nil, split, List.append_nil] at happend

theorem Means.split_dangling (h : Means body text) :
    split (body ++ ['\\']) = (body ++ ['\\'], none) := by
  have hslash : split ['\\'] = (['\\'], none) := by decide
  rw [h.split_append, hslash]

theorem Means.unescape (h : Means body text) : unescape body = text := by
  have happend := h.unescape_append []
  rwa [List.append_nil, StringBody.unescape, List.append_nil] at happend

/-- The characters up to the quote that closes a literal are a body. If no quote closes
it, the characters up to the end are one, with a backslash behind it perhaps that has no
partner. -/
theorem exists_means_of_split (cs : List Char) :
    match split cs with
    | (body, some _) => ∃ text, Means body text
    | (body, none) => ∃ body' text, Means body' text ∧ (body = body' ∨ body = body' ++ ['\\']) := by
  fun_induction split cs with
  | case1 => exact ⟨[], [], .nil, .inl rfl⟩
  | case2 c cs ih =>
      have hpair : ∀ {body text : List Char}, Means body text →
          ∃ text', Means ('\\' :: c :: body) text' := fun h => by
        by_cases hn : c = 'n'
        · subst hn
          exact ⟨_, .lineFeed h⟩
        · by_cases ht : c = 't'
          · subst ht
            exact ⟨_, .tab h⟩
          · exact ⟨_, .pair hn ht h⟩
      revert ih
      generalize split cs = r
      obtain ⟨body, _ | rest⟩ := r
      · rintro ⟨body', text, h, hbody⟩
        obtain ⟨text', h'⟩ := hpair h
        refine ⟨_, text', h', ?_⟩
        rcases hbody with rfl | rfl
        · exact .inl rfl
        · exact .inr rfl
      · rintro ⟨text, h⟩
        exact hpair h
  | case3 => exact ⟨[], .nil⟩
  | case4 c cs hpair hquote ih =>
      by_cases hslash : c = '\\'
      · -- a backslash that pairs with nothing is the last character
        subst hslash
        cases cs with
        | nil => exact ⟨[], [], .nil, .inr rfl⟩
        | cons d ds => exact (hpair d ds rfl rfl).elim
      · revert ih
        generalize split cs = r
        obtain ⟨body, _ | rest⟩ := r
        · rintro ⟨body', text, h, hbody⟩
          refine ⟨_, _, .plain hslash hquote h, ?_⟩
          rcases hbody with rfl | rfl
          · exact .inl rfl
          · exact .inr rfl
        · rintro ⟨text, h⟩
          exact ⟨_, .plain hslash hquote h⟩

end StringBody

/-! ## Lexemes -/

/-- The lexeme stands at the front of a text, where `rest` comes after it. -/
inductive Lexeme.StandsBefore (rest : List Char) : Lexeme → Prop
  | keyword {w : String} {k : TokenKind} :
      (w, k) ∈ keywords → WordEnds rest → StandsBefore rest (.plain k w.toList)
  | identifier {w : String} :
      isWord w = true → (∀ k, (w, k) ∉ keywords) → WordEnds rest →
      StandsBefore rest (.plain .ident w.toList)
  | integer {c : Char} {cs : List Char} :
      (∀ d ∈ c :: cs, isDigit d = true) → (∀ d, rest.head? = some d → isDigit d = false) →
      StandsBefore rest (.plain .int (c :: cs))
  /-- A string literal that the first quote outside a pair closes. -/
  | string {body text : List Char} :
      StringBody.Means body text → StandsBefore rest ⟨.string, text, '"' :: (body ++ ['"'])⟩
  /-- A string literal that no quote closes and that runs to the end of the text. -/
  | openString {body text : List Char} :
      rest = [] → StringBody.Means body text → StandsBefore rest ⟨.string, text, '"' :: body⟩
  /-- One with a backslash at the very end of the text, which stands for itself. -/
  | danglingString {body text : List Char} :
      rest = [] → StringBody.Means body text →
      StandsBefore rest ⟨.string, text ++ ['\\'], '"' :: (body ++ ['\\'])⟩
  | operator {text : List Char} {k : TokenKind} :
      (text, k) ∈ fixedTexts → (text = ['='] ∨ text = ['!'] → rest.head? ≠ some '=') →
      StandsBefore rest (.plain k text)
  | illegal {c : Char} :
      isSpace c = false → isWordStart c = false → isDigit c = false → c ≠ '"' →
      (∀ f ∈ fixedTexts, f.1.head? ≠ some c) → StandsBefore rest (.plain .illegal [c])

namespace Lexeme

/-! ## What the lexer reads -/

theorem string_closed {cs body rest : List Char} (c : Char)
    (h : StringBody.split cs = (body, some rest)) :
    Lexeme.string c cs = (⟨.string, StringBody.unescape body, c :: (body ++ ['"'])⟩, rest) := by
  rw [Lexeme.string, h]

theorem string_open {cs body : List Char} (c : Char) (h : StringBody.split cs = (body, none)) :
    Lexeme.string c cs = (⟨.string, StringBody.unescape body, c :: body⟩, []) := by
  rw [Lexeme.string, h]

theorem string_stands (cs : List Char) :
    (Lexeme.string '"' cs).1.StandsBefore (Lexeme.string '"' cs).2 := by
  have hmeans := StringBody.exists_means_of_split cs
  cases hsplit : StringBody.split cs with
  | mk body rest? =>
      rw [hsplit] at hmeans
      cases rest? with
      | some rest =>
          obtain ⟨text, h⟩ := hmeans
          rw [string_closed '"' hsplit, h.unescape]
          exact .string h
      | none =>
          obtain ⟨body', text, h, rfl | rfl⟩ := hmeans
          · rw [string_open '"' hsplit, h.unescape]
            exact .openString rfl h
          · rw [string_open '"' hsplit, h.unescape_append]
            exact .danglingString rfl h

theorem operator?_stands {c : Char} {cs : List Char} {x : Lexeme × List Char}
    (h : operator? c cs = some x) : x.1.StandsBefore x.2 := by
  unfold operator? at h
  split at h
  · obtain ⟨k, hk, rfl⟩ := Option.map_eq_some_iff.mp h
    exact .operator (ofSymbol?_eq_some_iff.mp hk) fun _ => nofun
  · rename_i d ds
    split at h
    · rename_i k hk
      cases h
      refine .operator (ofPair?_eq_some_iff.mp hk) fun htext => ?_
      rcases htext with htext | htext <;> exact nomatch htext
    · rename_i hpair
      obtain ⟨k, hk, rfl⟩ := Option.map_eq_some_iff.mp h
      refine .operator (ofSymbol?_eq_some_iff.mp hk) ?_
      rintro (hc | hc) ⟨⟩ <;> cases hc <;> exact nomatch hpair

/-- Where no operator is read, no operator or delimiter starts. -/
theorem head?_ne_of_operator?_eq_none {c : Char} {cs : List Char} (h : operator? c cs = none) :
    ∀ f ∈ fixedTexts, f.1.head? ≠ some c := by
  have hsymbol : TokenKind.ofSymbol? c = none := by
    unfold operator? at h
    split at h
    · exact Option.map_eq_none_iff.mp h
    · split at h
      · exact nomatch h
      · exact Option.map_eq_none_iff.mp h
  rintro ⟨text, k⟩ hf hc
  obtain ⟨d, ds, l, rfl, hl, -⟩ := head_of_mem_fixedTexts hf
  cases hc
  exact nomatch hsymbol.symm.trans hl

theorem isWord_ofList {c : Char} {cs : List Char} (hc : isWordStart c = true)
    (hcs : ∀ d ∈ cs, isWordPart d = true) : isWord (String.ofList (c :: cs)) = true :=
  isWord_iff.mpr ⟨c, cs, String.toList_ofList, hc, hcs⟩

/-- A run of characters of a class, as long as it goes. -/
theorem head?_dropWhile {p : Char → Bool} {cs : List Char} (d : Char)
    (h : (cs.dropWhile p).head? = some d) : p d = false := by
  have hnot := List.head?_dropWhile_not p cs
  rw [h] at hnot
  exact hnot

theorem word_stands {w : String} {rest : List Char} (hw : isWord w = true)
    (hrest : WordEnds rest) : (plain (.ofWord w) w.toList).StandsBefore rest := by
  unfold TokenKind.ofWord
  cases hk : TokenKind.keyword? w with
  | none =>
      refine .identifier hw (fun k hmem => ?_) hrest
      exact absurd (hk.symm.trans (keyword?_eq_some_iff.mpr hmem)) nofun
  | some k => exact .keyword (keyword?_eq_some_iff.mp hk) hrest

/-- What the lexer reads stands where it reads it. -/
theorem read_stands {c : Char} (hc : isSpace c = false) (cs : List Char) :
    (read c cs).1.StandsBefore (read c cs).2 := by
  unfold read
  split
  · rename_i hstart
    have hword : isWord (String.ofList (c :: cs.takeWhile isWordPart)) = true :=
      isWord_ofList hstart fun d hd => List.all_eq_true.mp List.all_takeWhile d hd
    have hends : WordEnds (cs.dropWhile isWordPart) := head?_dropWhile
    have hstands := word_stands hword hends
    rwa [String.toList_ofList] at hstands
  · rename_i hstart
    split
    · rename_i hdigit
      refine .integer (List.forall_mem_cons.mpr ⟨hdigit, fun d hd => ?_⟩) head?_dropWhile
      exact List.all_eq_true.mp List.all_takeWhile d hd
    · rename_i hdigit
      split
      · rename_i hquote
        subst hquote
        exact string_stands cs
      · rename_i hquote
        cases h : operator? c cs with
        | none =>
            exact .illegal hc (Bool.eq_false_iff.mpr hstart) (Bool.eq_false_iff.mpr hdigit) hquote
              (head?_ne_of_operator?_eq_none h)
        | some x => exact operator?_stands h

/-! ## What stands is read -/

theorem read_quote (cs : List Char) : read '"' cs = Lexeme.string '"' cs := rfl

theorem isWord_of_mem_keywords {w : String} {k : TokenKind} (h : (w, k) ∈ keywords) :
    isWord w = true := by
  have hall : ∀ f ∈ keywords, isWord f.1 = true := by decide
  exact hall _ h

theorem ofWord_of_mem_keywords {w : String} {k : TokenKind} (h : (w, k) ∈ keywords) :
    TokenKind.ofWord w = k := by
  rw [TokenKind.ofWord, keyword?_eq_some_iff.mpr h, Option.getD_some]

theorem ofWord_of_not_mem_keywords {w : String} (h : ∀ k, (w, k) ∉ keywords) :
    TokenKind.ofWord w = .ident := by
  cases hk : TokenKind.keyword? w with
  | none => rw [TokenKind.ofWord, hk, Option.getD_none]
  | some k => exact absurd (keyword?_eq_some_iff.mp hk) (h k)

theorem read_word_stands {w : String} {k : TokenKind} {c : Char} {cs rest : List Char}
    (hw : isWord w = true) (hk : TokenKind.ofWord w = k) (hrest : WordEnds rest)
    (heq : w.toList ++ rest = c :: cs) : read c cs = (plain k w.toList, rest) := by
  obtain ⟨d, ds, hlist, hd, hds⟩ := isWord_iff.mp hw
  rw [hlist, List.cons_append] at heq
  obtain ⟨rfl, rfl⟩ := List.cons.inj heq
  rw [read_word hd hds hrest, ← hlist, String.ofList_toList, hk]

theorem operator?_of_stands {c : Char} {cs text rest : List Char} {k : TokenKind}
    (h : (text, k) ∈ fixedTexts) (hnext : text = ['='] ∨ text = ['!'] → rest.head? ≠ some '=')
    (heq : text ++ rest = c :: cs) : operator? c cs = some (plain k text, rest) := by
  rcases length_of_mem_fixedTexts h with ⟨d, rfl⟩ | ⟨d, d', rfl⟩
  · obtain ⟨rfl, rfl⟩ := List.cons.inj heq
    have hsymbol := ofSymbol?_eq_some_iff.mpr h
    cases rest with
    | nil => simp [operator?, hsymbol]
    | cons e es =>
        have hpair : TokenKind.ofPair? d e = none := by
          unfold TokenKind.ofPair?
          split
          · exact absurd rfl (hnext (.inl rfl))
          · exact absurd rfl (hnext (.inr rfl))
          · rfl
        simp [operator?, hpair, hsymbol]
  · obtain ⟨rfl, rfl⟩ := List.cons.inj heq
    simp [operator?, ofPair?_eq_some_iff.mpr h]

theorem operator?_eq_none {c : Char} (h : ∀ f ∈ fixedTexts, f.1.head? ≠ some c) (cs : List Char) :
    operator? c cs = none := by
  cases ho : operator? c cs with
  | none => rfl
  | some x =>
      unfold operator? at ho
      split at ho
      · obtain ⟨k, hk, -⟩ := Option.map_eq_some_iff.mp ho
        exact absurd rfl (h _ (ofSymbol?_eq_some_iff.mp hk))
      · split at ho
        · rename_i hk
          exact absurd rfl (h _ (ofPair?_eq_some_iff.mp hk))
        · obtain ⟨k, hk, -⟩ := Option.map_eq_some_iff.mp ho
          exact absurd rfl (h _ (ofSymbol?_eq_some_iff.mp hk))

/-- The lexer reads what stands at the front of a text. -/
theorem read_of_stands {x : Lexeme} {c : Char} {cs rest : List Char} (h : x.StandsBefore rest)
    (heq : x.source ++ rest = c :: cs) : read c cs = (x, rest) := by
  cases h with
  | keyword hmem hrest =>
      exact read_word_stands (isWord_of_mem_keywords hmem) (ofWord_of_mem_keywords hmem) hrest heq
  | identifier hw hnot hrest =>
      exact read_word_stands hw (ofWord_of_not_mem_keywords hnot) hrest heq
  | @integer d ds hdigits hrest =>
      rw [plain, List.cons_append] at heq
      obtain ⟨rfl, rfl⟩ := List.cons.inj heq
      obtain ⟨hd, hds⟩ := List.forall_mem_cons.mp hdigits
      obtain ⟨htake, hdrop⟩ := takeWhile_append_of_ends hds hrest
      rw [read, if_neg (by rw [isWordStart_of_isDigit hd]; decide), if_pos hd, htake, hdrop]
  | @string body text hmeans =>
      rw [List.cons_append, List.append_assoc, List.singleton_append] at heq
      obtain ⟨rfl, rfl⟩ := List.cons.inj heq
      rw [read_quote, string_closed '"' (hmeans.split_closed rest), hmeans.unescape]
  | @openString body text hrest hmeans =>
      subst hrest
      rw [List.append_nil] at heq
      obtain ⟨rfl, rfl⟩ := List.cons.inj heq
      rw [read_quote, string_open '"' hmeans.split_open, hmeans.unescape]
  | @danglingString body text hrest hmeans =>
      subst hrest
      rw [List.append_nil] at heq
      obtain ⟨rfl, rfl⟩ := List.cons.inj heq
      rw [read_quote, string_open '"' hmeans.split_dangling, hmeans.unescape_append]
      rfl
  | operator hmem hnext =>
      obtain ⟨d, ds, l, rfl, hl, -⟩ := head_of_mem_fixedTexts hmem
      obtain ⟨rfl, -⟩ := List.cons.inj heq
      rw [read_symbol hl, operator?_of_stands hmem hnext heq, Option.getD_some]
  | @illegal d hspace hstart hdigit hquote hnone =>
      obtain ⟨rfl, rfl⟩ := List.cons.inj heq
      rw [read, if_neg (by rw [hstart]; decide), if_neg (by rw [hdigit]; decide), if_neg hquote,
        operator?_eq_none hnone]
      rfl

end Lexeme

end MonkeyLang
