import MonkeyLang.Proofs.Literal
import MonkeyLang.Proofs.Marks
import MonkeyLang.Proofs.StringLiteral
import MonkeyLang.Proofs.WellFormed

/-!
# Texts and their tokens

A text spells tokens if it is read as these tokens wherever it stands. What comes
after it matters only if it ends in a word or a number: `Closes` is said of texts
that end in a delimiter, `Spells` of the others. Larger texts are put together
from smaller ones, so that the printer can be followed from part to part.
-/

namespace MonkeyLang

/-! ## Operators -/

theorem contents_prefix {operator : String} (h : prefixOperators.contains operator = true) :
    ∃ k, (k = .bang ∨ k = .minus) ∧
      ∀ cs : List Char, cs.head? ≠ some '=' →
        contents (operator.toList ++ cs) = (k, operator) :: contents cs := by
  have hmem : operator ∈ prefixOperators := List.contains_iff_mem.mp h
  simp only [prefixOperators, List.mem_cons, List.not_mem_nil, or_false] at hmem
  rcases hmem with rfl | rfl
  · refine ⟨.bang, .inl rfl, fun cs hcs => contents_symbol (c := '!') rfl fun d hd => ?_⟩
    unfold TokenKind.ofPair?
    split
    · contradiction
    · exact absurd hd hcs
    · rfl
  · exact ⟨.minus, .inr rfl, fun cs _ => contents_delimiter '-' rfl (by decide) cs⟩

theorem contents_infix {operator : String} (h : infixOperators.contains operator = true) :
    ∃ k tier tighter, k ∈ Tier.operators tier ∧ tier.tighter? = some tighter ∧
      ∀ cs, contents (operator.toList ++ ' ' :: cs) = (k, operator) :: contents cs := by
  have hmem : operator ∈ infixOperators := List.contains_iff_mem.mp h
  simp only [infixOperators, List.mem_cons, List.not_mem_nil, or_false] at hmem
  have single : ∀ (c : Char) {k : TokenKind}, TokenKind.ofSymbol? c = some k →
      c ≠ '=' ∧ c ≠ '!' → ∀ cs, contents (c :: ' ' :: cs) = (k, String.ofList [c]) :: contents cs :=
    fun c _ hk hc cs => by rw [contents_delimiter c hk hc, contents_space rfl]
  have double : ∀ (c d : Char) {k l : TokenKind}, TokenKind.ofSymbol? c = some l →
      TokenKind.ofPair? c d = some k →
      ∀ cs, contents (c :: d :: ' ' :: cs) = (k, String.ofList [c, d]) :: contents cs :=
    fun c d _ _ hc hd cs => by rw [contents_pair hc hd, contents_space rfl]
  rcases hmem with rfl | rfl | rfl | rfl | rfl | rfl | rfl | rfl
  · exact ⟨.plus, .sum, .product, by decide, rfl, single '+' rfl (by decide)⟩
  · exact ⟨.minus, .sum, .product, by decide, rfl, single '-' rfl (by decide)⟩
  · exact ⟨.asterisk, .product, .unary, by decide, rfl, single '*' rfl (by decide)⟩
  · exact ⟨.slash, .product, .unary, by decide, rfl, single '/' rfl (by decide)⟩
  · exact ⟨.lt, .comparison, .sum, by decide, rfl, single '<' rfl (by decide)⟩
  · exact ⟨.gt, .comparison, .sum, by decide, rfl, single '>' rfl (by decide)⟩
  · exact ⟨.eq, .equality, .comparison, by decide, rfl, double '=' '=' rfl rfl⟩
  · exact ⟨.notEq, .equality, .comparison, by decide, rfl, double '!' '=' rfl rfl⟩

/-! ## Spelling -/

/-- A token without a place. -/
def Token.of (k : TokenKind) (text : String) : Token := ⟨k, text, .start⟩

theorem Token.kind_of (k : TokenKind) (text : String) : (Token.of k text).kind = k := rfl

/-- The text is read as the tokens, whatever comes after it. -/
def Closes (text : String) (ts : List Token) : Prop :=
  ∀ rest, contents (text.toList ++ rest) = ts.map Token.content ++ contents rest

/-- The text is read as the tokens, if what comes after it does not carry on a
word. -/
def Spells (text : String) (ts : List Token) : Prop :=
  ∀ rest, WordEnds rest →
    contents (text.toList ++ rest) = ts.map Token.content ++ contents rest

section Spelling

variable {a b text : String} {ts us : List Token}

theorem Closes.spells (h : Closes text ts) : Spells text ts := fun rest _ => h rest

theorem closes_empty : Closes "" [] := fun _ => rfl

theorem Closes.append (h : Closes a ts) (h' : Closes b us) : Closes (a ++ b) (ts ++ us) := by
  intro rest
  rw [String.toList_append, List.append_assoc, h, h', List.map_append, List.append_assoc]

theorem Spells.append (h : Spells a ts) (h' : Closes b us)
    (hb : ∀ rest, WordEnds (b.toList ++ rest)) : Closes (a ++ b) (ts ++ us) := by
  intro rest
  rw [String.toList_append, List.append_assoc, h _ (hb rest), h', List.map_append,
    List.append_assoc]

theorem wordEnds_symbol {c : Char} {k : TokenKind} (h : TokenKind.ofSymbol? c = some k)
    (cs : List Char) : WordEnds (c :: cs) := by
  obtain ⟨-, hstart, hdigit, -⟩ := ofSymbol?_class h
  exact wordEnds_cons (by rw [isWordPart, hstart, hdigit, Bool.or_false]) cs

theorem wordEnds_opening {o : Char} {k : TokenKind} (ho : TokenKind.ofSymbol? o = some k)
    (a b : String) (rest : List Char) :
    WordEnds ((String.ofList [o] ++ a ++ b).toList ++ rest) := by
  simp only [String.toList_append, String.toList_ofList, List.append_assoc]
  exact wordEnds_symbol ho _

/-- A text between two delimiters. -/
theorem closes_between {o c : Char} {k l : TokenKind} (ho : TokenKind.ofSymbol? o = some k)
    (ho' : o ≠ '=' ∧ o ≠ '!') (hc : TokenKind.ofSymbol? c = some l) (hc' : c ≠ '=' ∧ c ≠ '!')
    (h : Spells text ts) :
    Closes (String.ofList [o] ++ text ++ String.ofList [c])
      (.of k (String.ofList [o]) :: (ts ++ [.of l (String.ofList [c])])) := by
  intro rest
  simp only [String.toList_append, String.toList_ofList, List.append_assoc, List.cons_append,
    List.nil_append]
  rw [contents_delimiter o ho ho', h _ (wordEnds_symbol hc rest), contents_delimiter c hc hc']
  simp only [List.map_cons, List.map_append, List.map_nil, List.cons_append, List.append_assoc,
    List.nil_append]
  rfl

theorem closes_parens (h : Spells text ts) :
    Closes ("(" ++ text ++ ")") (.of .lparen "(" :: (ts ++ [.of .rparen ")"])) :=
  closes_between rfl (by decide) rfl (by decide) h

theorem closes_brackets (h : Spells text ts) :
    Closes ("[" ++ text ++ "]") (.of .lbracket "[" :: (ts ++ [.of .rbracket "]"])) :=
  closes_between rfl (by decide) rfl (by decide) h

theorem closes_braces (h : Spells text ts) :
    Closes ("\x7b" ++ text ++ "\x7d") (.of .lbrace "\x7b" :: (ts ++ [.of .rbrace "\x7d"])) :=
  closes_between rfl (by decide) rfl (by decide) h

/-- Two texts with a delimiter and a space between them. -/
theorem spells_separated {c : Char} {k : TokenKind} (hc : TokenKind.ofSymbol? c = some k)
    (hc' : c ≠ '=' ∧ c ≠ '!') (h : Spells a ts) (h' : Spells b us) :
    Spells (a ++ String.ofList [c, ' '] ++ b) (ts ++ .of k (String.ofList [c]) :: us) := by
  intro rest hrest
  simp only [String.toList_append, String.toList_ofList, List.append_assoc, List.cons_append,
    List.nil_append]
  rw [h _ (wordEnds_symbol hc _), contents_delimiter c hc hc', contents_space rfl, h' rest hrest]
  simp only [List.map_cons, List.map_append, List.cons_append, List.append_assoc]
  rfl

theorem spells_comma (h : Spells a ts) (h' : Spells b us) :
    Spells (a ++ ", " ++ b) (ts ++ .of .comma "," :: us) :=
  spells_separated rfl (by decide) h h'

theorem spells_colon (h : Spells a ts) (h' : Spells b us) :
    Spells (a ++ ": " ++ b) (ts ++ .of .colon ":" :: us) :=
  spells_separated rfl (by decide) h h'

theorem closes_semicolon (h : Spells text ts) : Closes (text ++ ";") (ts ++ [.of .semicolon ";"]) :=
  h.append (contents_delimiter ';' rfl (by decide)) (wordEnds_symbol rfl)

/-- Two texts with a space between them. -/
theorem Spells.space (h : Spells a ts) (h' : Spells b us) : Spells (a ++ " " ++ b) (ts ++ us) := by
  intro rest hrest
  rw [String.toList_append, String.toList_append, List.append_assoc, List.append_assoc]
  show contents (a.toList ++ ' ' :: (b.toList ++ rest)) = _
  rw [h _ (wordEnds_cons rfl _), contents_space rfl, h' rest hrest, List.map_append,
    List.append_assoc]

theorem Closes.space (h : Closes a ts) (h' : Closes b us) : Closes (a ++ " " ++ b) (ts ++ us) := by
  intro rest
  rw [String.toList_append, String.toList_append, List.append_assoc, List.append_assoc, h]
  show _ ++ contents (' ' :: (b.toList ++ rest)) = _
  rw [contents_space rfl, h' rest, List.map_append, List.append_assoc]

theorem spells_word {k : TokenKind} (h : isWord text = true)
    (hk : TokenKind.ofWord text = k) : Spells text [.of k text] := fun rest hrest => by
  rw [contents_word h hrest, hk]
  rfl

theorem spells_name (h : isName text = true) : Spells text [.of .ident text] :=
  fun _ hrest => contents_name h hrest

theorem spells_repr (n : Nat) : Spells n.repr [.of .int n.repr] := fun rest hrest => by
  obtain ⟨c, cs, hlist⟩ := exists_repr_eq_cons n
  have hdigits : ∀ d ∈ c :: cs, isDigit d = true := fun d hd =>
    isDigit_of_mem_repr (hlist ▸ hd)
  have hcontents := contents_digits (hdigits c List.mem_cons_self)
    (fun d hd => hdigits d (List.mem_cons_of_mem c hd)) hrest
  rw [← List.cons_append, ← hlist, String.ofList_toList] at hcontents
  exact hcontents

theorem closes_keyword {kw : Token} (h : Spells text [kw]) :
    Closes (text ++ "(") [kw, .of .lparen "("] :=
  h.append (contents_delimiter '(' rfl (by decide)) (wordEnds_symbol rfl)

theorem closes_keyword_space {kw : Token} (h : Spells text [kw]) :
    Closes (text ++ " (") [kw, .of .lparen "("] := by
  have hopening : Closes " (" [.of .lparen "("] := fun rest =>
    (contents_space rfl _).trans (contents_delimiter '(' rfl (by decide) rest)
  exact h.append hopening fun _ => wordEnds_cons rfl _

/-- What stands before a block. -/
theorem closes_header {opening : String} {kw : Token}
    (ho : Closes opening [kw, .of .lparen "("]) (h : Spells text ts) :
    Closes (opening ++ text ++ ") ") (kw :: .of .lparen "(" :: (ts ++ [.of .rparen ")"])) := by
  intro rest
  rw [String.toList_append, String.toList_append, List.append_assoc, List.append_assoc, ho]
  show _ ++ contents (text.toList ++ ')' :: ' ' :: rest) = _
  rw [h _ (wordEnds_symbol rfl _), contents_delimiter ')' rfl (by decide), contents_space rfl]
  simp only [List.map_cons, List.map_append, List.map_nil, List.cons_append, List.append_assoc,
    List.nil_append]
  rfl

theorem spells_assign (h : Spells a ts) (h' : Spells b us) :
    Spells (a ++ " = " ++ b) (ts ++ .of .assign "=" :: us) := by
  intro rest hrest
  rw [String.toList_append, String.toList_append, List.append_assoc, List.append_assoc]
  show contents (a.toList ++ ' ' :: '=' :: ' ' :: (b.toList ++ rest)) = _
  have hpair : ∀ d, (' ' :: (b.toList ++ rest)).head? = some d →
      TokenKind.ofPair? '=' d = none := by
    rintro _ ⟨⟩
    rfl
  rw [h _ (wordEnds_cons rfl _), contents_space rfl, contents_symbol rfl hpair,
    contents_space rfl, h' rest hrest, List.map_append, List.append_assoc]
  rfl

/-- The statements of a block in their braces. -/
theorem closes_block (h : Closes text ts) :
    Closes ("\x7b " ++ text ++ " \x7d")
      (.of .lbrace "\x7b" :: (ts ++ [.of .rbrace "\x7d"])) := by
  intro rest
  rw [String.toList_append, String.toList_append, List.append_assoc, List.append_assoc]
  show contents ('{' :: ' ' :: (text.toList ++ ' ' :: '}' :: rest)) = _
  rw [contents_delimiter '{' rfl (by decide), contents_space rfl, h, contents_space rfl,
    contents_delimiter '}' rfl (by decide)]
  simp only [List.map_cons, List.map_append, List.map_nil, List.cons_append, List.append_assoc,
    List.nil_append]
  rfl

/-- Names separated by commas, as the printer writes parameters. -/
theorem spells_names : ∀ names : List Name, names.all (isName ·.value) = true →
    ∃ ts names', Names ts names' ∧ names'.map (Name.map .blank) = names.map (Name.map .blank) ∧
      Spells (", ".intercalate (names.map Name.value)) ts
  | [], _ => by
      refine ⟨[], [], .nil, rfl, ?_⟩
      rw [List.map_nil, String.intercalate_nil]
      exact closes_empty.spells
  | [x], h => by
      rw [List.all_cons, Bool.and_eq_true] at h
      refine ⟨_, [(Token.of .ident x.value).name], .cons rfl .nil, rfl, ?_⟩
      rw [List.map_singleton, String.intercalate_singleton]
      exact spells_name h.1
  | x :: y :: names, h => by
      rw [List.all_cons, Bool.and_eq_true] at h
      obtain ⟨ts, names', hnames, hmap, hspells⟩ := spells_names (y :: names) h.2
      cases hnames with
      | nil => exact nomatch hmap
      | @cons t ts names' ht hmore =>
          have hcons : Names (.of .ident x.value :: .of .comma "," :: t :: ts)
              ((Token.of .ident x.value).name :: t.name :: names') :=
            .cons rfl (.cons rfl ht hmore)
          refine ⟨_, _, hcons, congrArg (List.cons _) hmap, ?_⟩
          rw [List.map_cons, List.map_cons, String.intercalate_cons_cons]
          exact spells_comma (spells_name h.1) hspells

end Spelling

end MonkeyLang
