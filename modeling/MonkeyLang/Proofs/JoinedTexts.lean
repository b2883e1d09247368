import MonkeyLang.Proofs.Lexing
import MonkeyLang.Proofs.MaximalMunch
import MonkeyLang.Proofs.ParseComplete
import MonkeyLang.Proofs.ParsedTrees

/-!
# Texts joined by semicolons

A character that carries no word, number or operator on separates two texts: the tokens of
the whole are those of the first text without its end of the file, and those of the second
one behind them (`tokensFrom_append_separator`). Only a string literal that the first text
leaves open would go on.

A semicolon also separates statements: where the first text could end, it may as well go on
with one (`Lines.append_closed`). So texts that have no syntax errors and do not end with a
semicolon of their own are joined to the program of all their statements
(`parse_joined`).
-/

namespace MonkeyLang

/-! ## Tokens -/

section Tokens

variable {p : Place} {cs : List Char} {d : Char}

/-- Spaces before a text move the places of its tokens on. -/
theorem tokensFrom_space_append {w : List Char} (hw : ∀ c ∈ w, isSpace c = true) (p : Place)
    (cs : List Char) : tokensFrom p (w ++ cs) = tokensFrom (p.after w) cs := by
  rw [← tokensFrom_pastSpace p (w ++ cs), ← tokensFrom_pastSpace (p.after w) cs,
    List.takeWhile_append_of_pos hw, List.dropWhile_append_of_pos hw, Place.after_append]

/-- A lexeme that stands before some characters also stands before these and more, unless it is
an open literal or what comes next carries it on. -/
theorem Lexeme.StandsBefore.append {x : Lexeme} {rest : List Char} (h : x.StandsBefore rest)
    (hopen : rest = [] → ¬EndsInString x.source) (hword : isWordPart d = false) (heq : d ≠ '=')
    (ds : List Char) : x.StandsBefore (rest ++ d :: ds) := by
  have hends : ∀ {p : Char → Bool}, p d = false → (∀ c, rest.head? = some c → p c = false) →
      ∀ c, (rest ++ d :: ds).head? = some c → p c = false := fun hd hrest c hc => by
    cases rest with
    | nil =>
        obtain rfl : d = c := Option.some.inj hc
        exact hd
    | cons e es => exact hrest c hc
  have hdigit : isDigit d = false := (Bool.or_eq_false_iff.mp hword).2
  have hliteral : ∀ {body : List Char}, (StringBody.split body).2 = none →
      EndsInString ('"' :: body) := fun hbody =>
    (endsInString_read (by decide) _).mpr (.inl ⟨rfl, hbody⟩)
  cases h with
  | keyword hmem hrest => exact .keyword hmem (hends hword hrest)
  | identifier hw hnot hrest => exact .identifier hw hnot (hends hword hrest)
  | integer hdigits hrest => exact .integer hdigits (hends hdigit hrest)
  | string hmeans => exact .string hmeans
  | openString hrest hmeans =>
      exact (hopen hrest (hliteral (congrArg Prod.snd hmeans.split_open))).elim
  | danglingString hrest hmeans =>
      exact (hopen hrest (hliteral (congrArg Prod.snd hmeans.split_dangling))).elim
  | operator hmem hnext =>
      refine .operator hmem fun htext => ?_
      cases rest with
      | nil => simpa using heq
      | cons e es => exact hnext htext
  | illegal hspace hstart hdigit hquote hnone =>
      exact .illegal hspace hstart hdigit hquote hnone

/-- A lexeme is read from its first character on. -/
theorem Lexeme.StandsBefore.exists_read {rest : List Char} {x : Lexeme}
    (hx : x.StandsBefore rest) :
    ∃ c cs, x.source = c :: cs ∧ isSpace c = false ∧ Lexeme.read c (cs ++ rest) = (x, rest) := by
  obtain ⟨c, cs, hsource, hc⟩ := hx.source_eq_cons
  exact ⟨c, cs, hsource, hc, Lexeme.read_of_stands hx (by rw [hsource, List.cons_append])⟩

/-- The token of a lexeme comes first, and reading goes on behind the lexeme. -/
theorem tokensFrom_piece {w rest : List Char} {x : Lexeme} (hw : ∀ c ∈ w, isSpace c = true)
    (hx : x.StandsBefore rest) (p : Place) :
    tokensFrom p (w ++ (x.source ++ rest)) =
      x.token (p.after w) :: tokensFrom ((p.after w).after x.source) rest := by
  obtain ⟨c, cs, hsource, hc, hread⟩ := hx.exists_read
  obtain ⟨htake, hdrop⟩ := dropWhile_spaces hw hc (cs ++ rest)
  rw [hsource, List.cons_append, tokensFrom_read hdrop, htake, hread, ← hsource]

theorem endsInString_space_append {w : List Char} (hw : ∀ c ∈ w, isSpace c = true)
    (cs : List Char) : EndsInString (w ++ cs) ↔ EndsInString cs := by
  induction w with
  | nil => rfl
  | cons c w ih =>
      obtain ⟨hc, hw⟩ := List.forall_mem_cons.mp hw
      exact (endsInString_space hc (w ++ cs)).trans (ih hw)

/-- A text ends inside a literal if the text behind one of its lexemes does. -/
theorem endsInString_piece {w rest : List Char} {x : Lexeme} (hw : ∀ c ∈ w, isSpace c = true)
    (hx : x.StandsBefore rest) (h : EndsInString rest) :
    EndsInString (w ++ (x.source ++ rest)) := by
  obtain ⟨c, cs, hsource, hc, hread⟩ := hx.exists_read
  rw [endsInString_space_append hw, hsource, List.cons_append, endsInString_read hc, hread]
  exact .inr h

/-- A character that carries nothing on separates the tokens before it from those after it. -/
theorem tokensFrom_append_separator (hopen : ¬EndsInString cs) (hword : isWordPart d = false)
    (heq : d ≠ '=') (p : Place) (ds : List Char) :
    tokensFrom p (cs ++ d :: ds) =
      (tokensFrom p cs).dropLast ++ tokensFrom (p.after cs) (d :: ds) := by
  obtain ⟨pieces, trailing, hcuts⟩ := exists_cuts cs
  induction hcuts generalizing p with
  | @trailing w hw =>
      rw [tokensFrom_space_append hw, tokensFrom_nil (List.dropWhile_eq_nil_iff.mpr hw)]
      rfl
  | @piece w rest trailing x pieces hw hx _ ih =>
      have hrest : ¬EndsInString rest := fun h => hopen (endsInString_piece hw hx h)
      have hx' : x.StandsBefore (rest ++ d :: ds) := by
        refine hx.append (fun hnil hx => hopen ?_) hword heq ds
        rw [hnil, List.append_nil]
        exact (endsInString_space_append hw x.source).mpr hx
      have hne : tokensFrom ((p.after w).after x.source) rest ≠ [] := by
        obtain ⟨ts, t, hts, -⟩ := tokensFrom_eq_append ((p.after w).after x.source) rest
        rw [hts]
        simp
      rw [List.append_assoc, List.append_assoc, tokensFrom_piece hw hx', tokensFrom_piece hw hx,
        ih hrest, List.dropLast_cons_of_ne_nil hne, Place.after_append, Place.after_append]
      rfl

theorem contents_append_separator (hopen : ¬EndsInString cs) (hword : isWordPart d = false)
    (heq : d ≠ '=') (ds : List Char) :
    contents (cs ++ d :: ds) = (contents cs).dropLast ++ contents (d :: ds) := by
  rw [contents, tokens, tokensFrom_append_separator hopen hword heq, List.map_append,
    List.map_dropLast, content_tokensFrom _ .start (d :: ds)]
  rfl

end Tokens

/-! ## Statements -/

section Statements

variable {next : TokenKind} {ts us : List Token} {stmts stmts' : List Stmt}

theorem Clause.ne_nil {stmt : Stmt} (h : Clause ts stmt) : ts ≠ [] := by
  cases h <;> simp

theorem Lines.of_nil (h : Lines next [] stmts) : stmts = [] := by
  generalize hts : ([] : List Token) = ts at h
  cases h with
  | nil => rfl
  | closed _ _ _ => simp at hts
  | bare _ hclause _ => exact (hclause.ne_nil (List.append_eq_nil_iff.mp hts.symm).1).elim

theorem Lines.stmts_ne_nil (h : Lines next ts stmts) (hts : ts ≠ []) : stmts ≠ [] := by
  cases h with
  | nil => exact (hts rfl).elim
  | closed _ _ _ => simp
  | bare _ _ _ => simp

/-- Where statements could end, they may go on with a semicolon and more statements. -/
theorem Lines.append_closed {semi : Token} (hsemi : semi.kind = .semicolon)
    (h' : Lines next us stmts') : ∀ {ts : List Token} {stmts : List Stmt}, Lines .eof ts stmts →
      ts ≠ [] → (∀ t, ts.getLast? = some t → t.kind ≠ .semicolon) →
      Lines next (ts ++ semi :: us) (stmts ++ stmts')
  | _, _, .nil, hts, _ => (hts rfl).elim
  | _, _, @Lines.closed _ semi₁ ts₁ us₁ _ _ hsemi₁ hclause hlines, _, hlast => by
      have hus₁ : us₁ ≠ [] := by
        rintro rfl
        exact hlast semi₁ (by simp) hsemi₁
      have hmore := Lines.append_closed hsemi h' hlines hus₁ fun t ht =>
        hlast t (by simp [List.getLast?_append, List.getLast?_cons, ht])
      rw [List.append_assoc, List.cons_append]
      exact .closed hsemi₁ hclause hmore
  | _, _, @Lines.bare _ ts₁ us₁ _ _ hnext hclause hlines, _, hlast => by
      by_cases hus₁ : us₁ = []
      · subst hus₁
        rw [hlines.of_nil, List.append_nil]
        exact .closed hsemi hclause h'
      · have hmore := Lines.append_closed hsemi h' hlines hus₁ fun t ht =>
          hlast t (by simp [List.getLast?_append, ht])
        have hfirst : firstKind next (us₁ ++ semi :: us) = firstKind .eof us₁ := by
          cases us₁ with
          | nil => exact (hus₁ rfl).elim
          | cons t ts => rfl
        rw [List.append_assoc]
        exact .bare (hfirst ▸ hnext) hclause hmore

end Statements

/-! ## Programs -/

/-- A text without syntax errors that may be followed by a semicolon: it has tokens, the last
of which is no semicolon, and all its literals are closed. -/
structure IsEntry (source : String) : Prop where
  errors : (parse source).errors = []
  tokens : (tokenize source).dropLast.getLast?.any (·.kind ≠ .semicolon) = true
  literals : ¬EndsInString source.toList

/-- The statements of some texts, one text after another. -/
def statementsOf (sources : List String) : List Stmt :=
  sources.flatMap fun source => (parse source).program.statements

theorem IsEntry.exists_lines {source : String} (h : IsEntry source) :
    ∃ ts, contents source.toList = ts.map Token.content ++ [(.eof, "")] ∧ ts ≠ [] ∧
      (∀ t, ts.getLast? = some t → t.kind ≠ .semicolon) ∧
      Lines .eof ts (parse source).program.statements := by
  obtain ⟨ts, e, htokens, he, htext, hall⟩ := tokensFrom_eq_append .start source.toList
  have htokens : tokenize source = ts ++ [e] := htokens
  have hparse : parse source = parseTokens (ts ++ [e]) := congrArg parseTokens htokens
  have hderives := derives_parseTokens he hall (hparse ▸ h.errors)
  rw [← hparse] at hderives
  have hcontent : e.content = (.eof, "") := by
    rw [Token.content, he, htext]
  have hlast := h.tokens
  rw [htokens, List.dropLast_concat, Option.any_eq_true] at hlast
  obtain ⟨t, ht, hsemi⟩ := hlast
  refine ⟨ts, ?_, fun hnil => ?_, fun u hu => ?_, hderives⟩
  · have hcontents : contents source.toList = (ts ++ [e]).map Token.content :=
      congrArg (List.map Token.content) htokens
    rw [hcontents, List.map_append, List.map_singleton, hcontent]
  · rw [hnil] at ht
    cases ht
  · rw [ht] at hu
    exact Option.some.inj hu ▸ of_decide_eq_true hsemi

theorem exists_lines_joined {sources : List String} (h : ∀ source ∈ sources, IsEntry source) :
    ∃ ts, contents (";".intercalate sources).toList = ts.map Token.content ++ [(.eof, "")] ∧
      Lines .eof ts (statementsOf sources) := by
  induction sources with
  | nil => exact ⟨[], contents_nil, .nil⟩
  | cons source sources ih =>
      obtain ⟨hsource, hsources⟩ := List.forall_mem_cons.mp h
      obtain ⟨ts, hcontents, hne, hlast, hlines⟩ := hsource.exists_lines
      obtain ⟨us, hmore, hlines'⟩ := ih hsources
      rw [statementsOf, List.flatMap_cons, ← statementsOf]
      by_cases hnil : sources = []
      · subst hnil
        rw [String.intercalate_singleton, statementsOf, List.flatMap_nil, List.append_nil]
        exact ⟨ts, hcontents, hlines⟩
      · have hjoined : (";".intercalate (source :: sources)).toList =
            source.toList ++ ';' :: (";".intercalate sources).toList := by
          rw [String.intercalate_cons_of_ne_nil hnil, String.toList_append, String.toList_append,
            List.append_assoc]
          rfl
        let semi : Token := ⟨.semicolon, ";", .start⟩
        refine ⟨ts ++ semi :: us, ?_, hlines'.append_closed rfl hlines hne hlast⟩
        rw [hjoined, contents_append_separator hsource.literals rfl (by decide),
          contents_delimiter ';' rfl (by decide), hcontents, hmore, List.dropLast_concat,
          List.map_append, List.map_cons, List.append_assoc]
        rfl

/-- Texts joined by semicolons have the program of all their statements. -/
theorem parse_joined {sources : List String} (h : ∀ source ∈ sources, IsEntry source) :
    (parse (";".intercalate sources)).errors = [] ∧
      (parse (";".intercalate sources)).program.placeless =
        (Program.mk (statementsOf sources)).placeless := by
  obtain ⟨ts, hcontents, hlines⟩ := exists_lines_joined h
  exact parse_of_contents (p := ⟨statementsOf sources⟩) hlines hcontents

end MonkeyLang
