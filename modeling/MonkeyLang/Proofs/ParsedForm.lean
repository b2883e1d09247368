import MonkeyLang.Proofs.LexicalGrammar
import MonkeyLang.Proofs.ParsedTrees
import MonkeyLang.Proofs.WellFormed

/-!
# The form of parsed trees

Every token of a text but the end of the file is the token of a lexeme, so its text fits
its kind (`isSpelled_of_mem_tokenize`). The marks, the names and the operators of a tree
are texts of the tokens from which it is derived. So the tree of a text without syntax
errors is well formed, with string literals as the text has them (`isWellFormed_parse`).
-/

namespace MonkeyLang

variable {ok : String → Bool}

/-! ## Tokens -/

/-- The text of a token fits its kind, where `ok` tells which contents strings may
have. -/
structure Token.IsSpelled (ok : String → Bool) (t : Token) : Prop where
  name : t.kind = .ident → isName t.text = true
  string : t.kind = .string → ok t.text = true
  word : ∀ w, (w, t.kind) ∈ keywords → t.text = w
  symbol : ∀ cs, (cs, t.kind) ∈ fixedTexts → t.text = String.ofList cs

/-- No two keywords, operators or delimiters are of one kind, and no other lexeme is of the
kind of one. -/
theorem kinds_apart :
    (∀ f ∈ keywords, f.2 ≠ .ident ∧ f.2 ≠ .string ∧ f.2 ≠ .int ∧ f.2 ≠ .illegal ∧ f.2 ≠ .eof ∧
      (∀ g ∈ keywords, g.2 = f.2 → f.1 = g.1) ∧ ∀ g ∈ fixedTexts, g.2 ≠ f.2) ∧
    ∀ f ∈ fixedTexts, f.2 ≠ .ident ∧ f.2 ≠ .string ∧ f.2 ≠ .int ∧ f.2 ≠ .illegal ∧ f.2 ≠ .eof ∧
      ∀ g ∈ fixedTexts, g.2 = f.2 → f.1 = g.1 := by
  decide

/-- A kind that is in neither table says nothing of the keywords and symbols. -/
theorem Token.isSpelled_of_kind {t : Token} (k : TokenKind) (hkind : t.kind = k)
    (hk : k ∈ [.ident, .string, .int, .illegal, .eof]) (hname : k = .ident → isName t.text = true)
    (hstring : k = .string → ok t.text = true) : t.IsSpelled ok := by
  subst hkind
  obtain ⟨hwords, hsymbols⟩ := kinds_apart
  refine ⟨hname, hstring, fun w hw => ?_, fun cs hcs => ?_⟩
  · obtain ⟨h₁, h₂, h₃, h₄, h₅, -⟩ := hwords _ hw
    simp [h₁, h₂, h₃, h₄, h₅] at hk
  · obtain ⟨h₁, h₂, h₃, h₄, h₅, -⟩ := hsymbols _ hcs
    simp [h₁, h₂, h₃, h₄, h₅] at hk

/-- The token of a lexeme fits. -/
theorem Lexeme.StandsBefore.isSpelled {x : Lexeme} {rest : List Char} {p : Place}
    (h : x.StandsBefore rest) (hok : x.kind = .string → ok (String.ofList x.text) = true) :
    (x.token p).IsSpelled ok := by
  obtain ⟨hwords, hsymbols⟩ := kinds_apart
  cases h with
  | @keyword w k hmem _ =>
      obtain ⟨hident, hstring, -, -, -, hunique, hsymbol⟩ := hwords _ hmem
      refine ⟨fun hk => absurd hk hident, fun hk => absurd hk hstring, fun w' hw' => ?_,
        fun cs hcs => absurd rfl (hsymbol _ hcs)⟩
      exact String.ofList_toList.trans (hunique _ hw' rfl)
  | @identifier w hw hnot _ =>
      have hname : isName w = true := by
        rw [isName, hw, Bool.true_and, Option.isNone_iff_eq_none]
        exact Option.eq_none_iff_forall_ne_some.mpr fun k hk =>
          hnot k (keyword?_eq_some_iff.mp hk)
      refine Token.isSpelled_of_kind .ident rfl (by decide) (fun _ => ?_) (by rintro ⟨⟩)
      change isName (String.ofList w.toList) = true
      rwa [String.ofList_toList]
  | integer _ _ =>
      exact Token.isSpelled_of_kind .int rfl (by decide) (by rintro ⟨⟩) (by rintro ⟨⟩)
  | string _ => exact Token.isSpelled_of_kind .string rfl (by decide) (by rintro ⟨⟩) hok
  | openString _ _ => exact Token.isSpelled_of_kind .string rfl (by decide) (by rintro ⟨⟩) hok
  | danglingString _ _ => exact Token.isSpelled_of_kind .string rfl (by decide) (by rintro ⟨⟩) hok
  | @operator cs k hmem _ =>
      obtain ⟨hident, hstring, -, -, -, hunique⟩ := hsymbols _ hmem
      refine ⟨fun hk => absurd hk hident, fun hk => absurd hk hstring,
        fun w hw => absurd rfl ((hwords _ hw).2.2.2.2.2.2 _ hmem), fun ds hds => ?_⟩
      exact congrArg String.ofList (hunique _ hds rfl)
  | illegal _ _ _ _ _ =>
      exact Token.isSpelled_of_kind .illegal rfl (by decide) (by rintro ⟨⟩) (by rintro ⟨⟩)

theorem exists_lexeme_of_mem {p : Place} {cs : List Char} {t : Token}
    (h : t ∈ tokensFrom p cs) :
    t.kind = .eof ∨ ∃ x q rest, Lexeme.StandsBefore rest x ∧ t = x.token q := by
  fun_induction tokensFrom p cs with
  | case1 p cs here hcs =>
      obtain rfl := List.mem_singleton.mp h
      exact .inl rfl
  | case2 p cs here c rest hcs read ih =>
      rcases List.mem_cons.mp h with rfl | h
      · have hc : isSpace c = false := Lexeme.head?_dropWhile c (by rw [hcs]; rfl)
        exact .inr ⟨_, here, _, Lexeme.read_stands hc rest, rfl⟩
      · exact ih h

theorem isSpelled_of_mem_tokenize {source : String} {t : Token} (h : t ∈ tokenize source)
    (hok : t.kind = .string → ok t.text = true) : t.IsSpelled ok := by
  rcases exists_lexeme_of_mem h with hk | ⟨x, q, rest, hx, rfl⟩
  · exact Token.isSpelled_of_kind .eof hk (by decide) nofun nofun
  · exact hx.isSpelled hok

theorem Token.IsSpelled.prefixOperator {t : Token} (h : t.IsSpelled ok)
    (hk : t.kind = .bang ∨ t.kind = .minus) : prefixOperators.contains t.text = true := by
  rcases hk with hk | hk
  · rw [h.symbol ['!'] (by rw [hk]; decide)]; decide
  · rw [h.symbol ['-'] (by rw [hk]; decide)]; decide

theorem Token.IsSpelled.infixOperator {t : Token} {tier : Tier} (h : t.IsSpelled ok)
    (hk : t.kind ∈ tier.operators) : infixOperators.contains t.text = true := by
  have hall : ∀ k ∈ [TokenKind.eq, .notEq, .lt, .gt, .plus, .minus, .asterisk, .slash],
      ∃ f ∈ fixedTexts, f.2 = k ∧ infixOperators.contains (String.ofList f.1) = true := by decide
  have hmem : t.kind ∈ [TokenKind.eq, .notEq, .lt, .gt, .plus, .minus, .asterisk, .slash] := by
    have hsub : ∀ k ∈ tier.operators,
        k ∈ [TokenKind.eq, .notEq, .lt, .gt, .plus, .minus, .asterisk, .slash] := by
      cases tier <;> decide
    exact hsub _ hk
  obtain ⟨f, hf, hfk, hcontains⟩ := hall _ hmem
  rw [h.symbol f.1 (hfk ▸ hf)]
  exact hcontains

/-! ## Derivations -/

/-- All of some tokens fit. -/
def AllSpelled (ok : String → Bool) (ts : List Token) : Prop := ∀ t ∈ ts, t.IsSpelled ok

section AllSpelled

variable {t : Token} {ts us : List Token}

@[simp] theorem allSpelled_cons :
    AllSpelled ok (t :: ts) ↔ t.IsSpelled ok ∧ AllSpelled ok ts :=
  List.forall_mem_cons

@[simp] theorem allSpelled_append :
    AllSpelled ok (ts ++ us) ↔ AllSpelled ok ts ∧ AllSpelled ok us :=
  List.forall_mem_append

theorem moreNames_all {names : List Name} (h : MoreNames ts names) (hok : AllSpelled ok ts) :
    names.all (isName ·.value) = true := by
  induction h with
  | nil => rfl
  | cons _ ht _ ih =>
      rw [allSpelled_cons, allSpelled_cons] at hok
      rw [List.all_cons, ih hok.2.2, Bool.and_true]
      exact hok.2.1.name ht

theorem names_all {names : List Name} (h : Names ts names) (hok : AllSpelled ok ts) :
    names.all (isName ·.value) = true := by
  cases h with
  | nil => rfl
  | cons ht hmore =>
      rw [allSpelled_cons] at hok
      rw [List.all_cons, moreNames_all hmore hok.2, Bool.and_true]
      exact hok.1.name ht

end AllSpelled

mutual

theorem Phrase.isWellFormed : ∀ {tier : Tier} {ts : List Token} {e : Expr}, Phrase tier ts e →
    AllSpelled ok ts → e.isWellFormed ok = true
  | _, _, _, .tighten _ h, hok => h.isWellFormed hok
  | _, _, _, .binary hop _ hleft hright, hok => by
      obtain ⟨hl, ho, hr⟩ := allSpelled_append.trans (and_congr_right' allSpelled_cons) |>.mp hok
      rw [Expr.isWellFormed, ho.infixOperator hop, hleft.isWellFormed hl,
        hright.isWellFormed hr]
      rfl
  | _, _, _, .unary hop h, hok => by
      obtain ⟨ho, hr⟩ := allSpelled_cons.mp hok
      rw [Expr.isWellFormed, ho.prefixOperator hop, h.isWellFormed hr]
      rfl
  | _, _, _, .call _ _ hf hargs, hok => by
      simp only [allSpelled_append, allSpelled_cons] at hok
      rw [Expr.isWellFormed, hf.isWellFormed hok.1, hargs.isWellFormedAll hok.2.2.1]
      rfl
  | _, _, _, .index _ _ hleft hindex, hok => by
      simp only [allSpelled_append, allSpelled_cons] at hok
      rw [Expr.isWellFormed, hleft.isWellFormed hok.1, hindex.isWellFormed hok.2.2.1]
      rfl
  | _, _, _, .identifier ht, hok => (allSpelled_cons.mp hok).1.name ht
  | _, _, _, .integer _ _ hle, _ => by
      rw [Expr.isWellFormed, Bool.and_eq_true, decide_eq_true_eq, decide_eq_true_eq]
      exact ⟨Int.natCast_nonneg _, Int.ofNat_le.mpr hle⟩
  | _, _, _, .string ht, hok => (allSpelled_cons.mp hok).1.string ht
  | _, _, _, .truth ht, hok => by
      rw [Expr.isWellFormed, beq_iff_eq]
      exact (allSpelled_cons.mp hok).1.word "true" (by rw [ht]; decide)
  | _, _, _, .falsity ht, hok => by
      rw [Expr.isWellFormed, beq_iff_eq]
      exact (allSpelled_cons.mp hok).1.word "false" (by rw [ht]; decide)
  | _, _, _, .group _ _ h, hok => by
      simp only [allSpelled_append, allSpelled_cons] at hok
      exact h.isWellFormed hok.2.1
  | _, _, _, .array _ _ h, hok => by
      simp only [allSpelled_append, allSpelled_cons] at hok
      exact h.isWellFormedAll hok.2.1
  | _, _, _, .hash _ _ h, hok => by
      simp only [allSpelled_append, allSpelled_cons] at hok
      exact h.isWellFormedPairs hok.2.1
  | _, _, _, .conditional _ _ _ hc hb he, hok => by
      simp only [allSpelled_append, allSpelled_cons] at hok
      obtain ⟨-, -, hcok, -, hbok, heok⟩ := hok
      rw [Expr.isWellFormed, hc.isWellFormed hcok, hb.isWellFormed hbok,
        he.isWellFormedElse heok]
      rfl
  | _, _, _, .loop _ _ _ hc hb, hok => by
      simp only [allSpelled_append, allSpelled_cons] at hok
      obtain ⟨-, -, hcok, -, hbok⟩ := hok
      rw [Expr.isWellFormed, hc.isWellFormed hcok, hb.isWellFormed hbok]
      rfl
  | _, _, _, .function hkw _ _ hnames hb, hok => by
      simp only [allSpelled_append, allSpelled_cons] at hok
      obtain ⟨hkwok, -, hnamesok, -, hbok⟩ := hok
      rw [Expr.isWellFormed, names_all hnames hnamesok, hb.isWellFormed hbok, Bool.and_true,
        Bool.and_true, beq_iff_eq]
      exact hkwok.word "fn" (by rw [hkw]; decide)

theorem Items.isWellFormedAll : ∀ {ts : List Token} {es : List Expr}, Items ts es →
    AllSpelled ok ts → isWellFormedAll ok es = true
  | _, _, .nil, _ => rfl
  | _, _, .cons he hes, hok => by
      obtain ⟨h₁, h₂⟩ := allSpelled_append.mp hok
      rw [MonkeyLang.isWellFormedAll, he.isWellFormed h₁, hes.isWellFormedAll h₂]
      rfl

theorem MoreItems.isWellFormedAll : ∀ {ts : List Token} {es : List Expr}, MoreItems ts es →
    AllSpelled ok ts → isWellFormedAll ok es = true
  | _, _, .nil, _ => rfl
  | _, _, .cons _ he hes, hok => by
      obtain ⟨h₁, h₂⟩ := allSpelled_append.mp (allSpelled_cons.mp hok).2
      rw [MonkeyLang.isWellFormedAll, he.isWellFormed h₁, hes.isWellFormedAll h₂]
      rfl

theorem Pairs.isWellFormedPairs : ∀ {ts : List Token} {ps : List (Expr × Expr)}, Pairs ts ps →
    AllSpelled ok ts → isWellFormedPairs ok ps = true
  | _, _, .nil, _ => rfl
  | _, _, .last _ hk hv, hok => by
      simp only [allSpelled_append, allSpelled_cons] at hok
      rw [MonkeyLang.isWellFormedPairs, hk.isWellFormed hok.1, hv.isWellFormed hok.2.2]
      rfl
  | _, _, .cons _ _ hk hv hps, hok => by
      simp only [allSpelled_append, allSpelled_cons] at hok
      obtain ⟨hkok, -, hvok, -, hpsok⟩ := hok
      rw [MonkeyLang.isWellFormedPairs, hk.isWellFormed hkok, hv.isWellFormed hvok,
        hps.isWellFormedPairs hpsok]
      rfl

theorem Braces.isWellFormed : ∀ {ts : List Token} {b : Block}, Braces ts b →
    AllSpelled ok ts → b.isWellFormed ok = true
  | _, _, .mk _ _ h, hok => by
      simp only [allSpelled_append, allSpelled_cons] at hok
      exact h.isWellFormedStmts hok.2.1

theorem Otherwise.isWellFormedElse : ∀ {ts : List Token} {b : Option Block}, Otherwise ts b →
    AllSpelled ok ts → isWellFormedElse ok b = true
  | _, _, .missing, _ => rfl
  | _, _, .present _ h, hok => h.isWellFormed (allSpelled_cons.mp hok).2

theorem Lines.isWellFormedStmts : ∀ {next : TokenKind} {ts : List Token} {stmts : List Stmt},
    Lines next ts stmts → AllSpelled ok ts → isWellFormedStmts ok stmts = true
  | _, _, _, .nil, _ => rfl
  | _, _, _, .closed _ h hs, hok => by
      simp only [allSpelled_append, allSpelled_cons] at hok
      rw [MonkeyLang.isWellFormedStmts, h.isWellFormed hok.1, hs.isWellFormedStmts hok.2.2]
      rfl
  | _, _, _, .bare _ h hs, hok => by
      obtain ⟨h₁, h₂⟩ := allSpelled_append.mp hok
      rw [MonkeyLang.isWellFormedStmts, h.isWellFormed h₁, hs.isWellFormedStmts h₂]
      rfl

theorem Clause.isWellFormed : ∀ {ts : List Token} {stmt : Stmt}, Clause ts stmt →
    AllSpelled ok ts → stmt.isWellFormed ok = true
  | _, _, .binding hkw ht _ h, hok => by
      simp only [allSpelled_cons] at hok
      obtain ⟨hkwok, htok, -, hok⟩ := hok
      have hname : isName _ = true := htok.name ht
      rw [Stmt.isWellFormed, h.isWellFormed hok, Bool.and_true, Bool.and_eq_true, beq_iff_eq]
      exact ⟨hkwok.word "let" (by rw [hkw]; decide), hname⟩
  | _, _, .leave hkw h, hok => by
      obtain ⟨hkwok, hok⟩ := allSpelled_cons.mp hok
      rw [Stmt.isWellFormed, h.isWellFormed hok, Bool.and_true, beq_iff_eq]
      exact hkwok.word "return" (by rw [hkw]; decide)
  | _, _, .expression h, hok => h.isWellFormed hok

end

/-! ## Texts -/

/-- The tree of a text without syntax errors is well formed. -/
theorem isWellFormed_parse {source : String} (h : (parse source).errors = [])
    (hok : ∀ t ∈ tokenize source, t.kind = .string → ok t.text = true) :
    (parse source).program.isWellFormed ok = true := by
  obtain ⟨ts, hmem, hderives⟩ := exists_derives h
  exact Lines.isWellFormedStmts hderives fun t ht =>
    isSpelled_of_mem_tokenize (hmem t ht) (hok t (hmem t ht))

end MonkeyLang
