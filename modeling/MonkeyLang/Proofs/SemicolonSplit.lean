import MonkeyLang.Proofs.BraceCount
import MonkeyLang.Proofs.JoinedTexts
import MonkeyLang.Proofs.ParseSteps

/-!
# What follows a semicolon

A text that could end may go on with a semicolon instead, and behind the semicolon the parser
starts afresh: no rule that has finished looks past it, and nothing but the window on the tokens is
carried over it. So whatever stands behind the semicolon is parsed as if it stood alone, malformed
as it may be (`parse_append_semicolon`).

`JoinedTexts` has the case of texts without syntax errors, from the grammar. Here the text behind
the semicolon need not be in the grammar, so the two runs of the parser are compared.
-/

namespace MonkeyLang

open ParseState

/-! ## Tokens -/

section Tokens

variable {semi : Token} {rest : List Token} {α β γ : Type}

theorem Reply.andThen_assoc (r : Reply α) (f : α → ParseState → Reply β)
    (g : β → ParseState → Reply γ) :
    (r.andThen f).andThen g = r.andThen fun a s => (f a s).andThen g := by
  cases r <;> rfl

/-- Behind the semicolon of a statement the others are read on. -/
theorem Clause.statements_closed {ts : List Token} {stmt : Stmt} (h : Clause ts stmt)
    (hsemi : semi.kind = .semicolon) (hrest : rest ≠ []) (n : Nat) (inBlock : Bool) :
    (statements (n + 1) inBlock (ofTokens (ts ++ semi :: rest))).Upto
      ((statements n inBlock (ofTokens rest)).andThen fun body s => .parsed (stmt :: body) s) := by
  obtain ⟨last, hlast⟩ := h.complete n (halts_cons rest hsemi (by decide))
  rw [statements, if_neg (h.current_ne inBlock)]
  refine .either hlast ?_
  rw [skipOptional_ofTokens hsemi, advance_ofTokens hrest]
  exact .refl _

/-- The statements of a text that could end here are read, then the semicolon, and then the rest
with the steps that are left. -/
theorem Lines.statements_closed (hsemi : semi.kind = .semicolon) (hrest : rest ≠ [])
    (inBlock : Bool) : ∀ {ts : List Token} {stmts : List Stmt}, Lines .eof ts stmts → ts ≠ [] →
      (∀ t, ts.getLast? = some t → t.kind ≠ .semicolon) → ∀ n,
      (statements n inBlock (ofTokens (ts ++ semi :: rest))).Upto
        ((statements n inBlock (ofTokens rest)).andThen fun body s => .parsed (stmts ++ body) s)
  | _, _, .nil, hts, _, _ => (hts rfl).elim
  | _, _, _, _, _, 0 => .inl rfl
  | _, _, @Lines.closed _ semi₁ ts₁ us₁ stmt stmts hsemi₁ hclause hlines, _, hlast, n + 1 => by
      have hus₁ : us₁ ≠ [] := by
        rintro rfl
        exact hlast semi₁ (by simp) hsemi₁
      have hmore := hlines.statements_closed hsemi hrest inBlock hus₁ (fun t ht =>
        hlast t (by simp [List.getLast?_append, List.getLast?_cons, ht])) n
      have hfirst := hclause.statements_closed hsemi₁ (show us₁ ++ semi :: rest ≠ [] by simp) n
        inBlock
      rw [List.append_assoc, List.cons_append]
      refine hfirst.trans ((hmore.andThen_congr fun _ _ => .refl _).trans ?_)
      rw [Reply.andThen_assoc]
      exact .andThen_congr (statements_upto n inBlock _) fun _ _ => .refl _
  | _, _, @Lines.bare _ ts₁ us₁ stmt stmts hnext hclause hlines, _, hlast, n + 1 => by
      by_cases hus₁ : us₁ = []
      · subst hus₁
        rw [hlines.of_nil, List.append_nil]
        refine (hclause.statements_closed hsemi hrest n inBlock).trans ?_
        exact .andThen_congr (statements_upto n inBlock _) fun _ _ => .refl _
      · have hmore := hlines.statements_closed hsemi hrest inBlock hus₁ (fun t ht =>
          hlast t (by simp [List.getLast?_append, ht])) n
        obtain ⟨u, us, heq, hhalts, hne⟩ := hlines.halts_append hnext hus₁ (semi :: rest)
        obtain ⟨last, hread⟩ := hclause.complete n hhalts
        rw [statements, List.append_assoc, heq, if_neg (hclause.current_ne inBlock)]
        refine .either hread ?_
        rw [skipOptional_ofTokens_ne hne, advance_ofTokens (List.cons_ne_nil u us), ← heq]
        refine .trans (hmore.andThen_congr fun _ _ => .refl _) ?_
        rw [Reply.andThen_assoc]
        exact .andThen_congr (statements_upto n inBlock _) fun _ _ => .refl _

/-- What stands behind the semicolon is parsed as if it stood alone. -/
theorem parseTokens_append_semicolon {ts : List Token} {p : Program} (h : Derives ts p)
    (hts : ts ≠ []) (hlast : ∀ t, ts.getLast? = some t → t.kind ≠ .semicolon)
    (hsemi : semi.kind = .semicolon) (us : List Token) {t : Token} (ht : t.kind = .eof) :
    parseTokens (ts ++ semi :: (us ++ [t])) =
      ⟨⟨p.statements ++ (parseTokens (us ++ [t])).program.statements⟩,
        (parseTokens (us ++ [t])).errors⟩ := by
  have hwhole : ts ++ semi :: (us ++ [t]) = (ts ++ semi :: us) ++ [t] := by simp
  obtain ⟨all, s, hall⟩ := statements_ofTokens (ts ++ semi :: us) ht
  obtain ⟨body, s', hbody⟩ := statements_ofTokens us ht
  have hsteps : stepsFor (us ++ [t]).length ≤ stepsFor (ts ++ semi :: (us ++ [t])).length := by
    simp only [stepsFor, List.length_append, List.length_cons]
    omega
  have hmore := Reply.Upto.of_le (fun n => statements_upto n false (ofTokens (us ++ [t]))) hsteps
  have hrun := Lines.statements_closed hsemi (show us ++ [t] ≠ [] by simp) false h hts hlast
    (stepsFor (ts ++ semi :: (us ++ [t])).length)
  rw [hbody] at hmore
  rw [← hmore.resolve_left Reply.parsed_ne_exhausted, Reply.andThen_parsed] at hrun
  rw [← hwhole] at hall
  have hdone : statements _ false (ofTokens (ts ++ semi :: (us ++ [t]))) ≠ .exhausted :=
    hall ▸ Reply.parsed_ne_exhausted
  obtain ⟨rfl, rfl⟩ := Reply.parsed.inj (hall.symm.trans (hrun.resolve_left hdone))
  rw [parseTokens, hall, parseTokens, hbody]

end Tokens

/-! ## Texts -/

/-- **Parsing is compositional at a semicolon.** A text that has no syntax errors, ends with no
semicolon of its own and leaves no literal open is followed by a semicolon and any text at all. The
errors of the whole are those of the second text, and its statements are those of the first text
and then those of the second one, up to their places. -/
theorem parse_append_semicolon {a : String} (ha : IsEntry a) (b : String) :
    (parse (a ++ ";" ++ b)).errors = (parse b).errors ∧
      (parse (a ++ ";" ++ b)).program.placeless =
        (Program.mk ((parse a).program.statements ++ (parse b).program.statements)).placeless := by
  obtain ⟨ts, hcontents, hne, hlast, hlines⟩ := ha.exists_lines
  obtain ⟨us, t, htokens, ht, -, -⟩ := tokensFrom_eq_append .start b.toList
  have htokens : tokenize b = us ++ [t] := htokens
  let semi : Token := ⟨.semicolon, ";", .start⟩
  have hwhole : (tokenize (a ++ ";" ++ b)).map Token.content =
      (ts ++ semi :: tokenize b).map Token.content := by
    have htext : (a ++ ";" ++ b).toList = a.toList ++ ';' :: b.toList := by
      rw [String.toList_append, String.toList_append, List.append_assoc]
      rfl
    rw [tokenize, ← contents, htext, contents_append_separator ha.literals rfl (by decide),
      contents_delimiter ';' rfl (by decide), hcontents, List.dropLast_concat, List.map_append,
      List.map_cons]
    rfl
  obtain ⟨hprogram, herrors⟩ := parseTokens_congr (placeless_eq_of_content hwhole)
  have hsplit := parseTokens_append_semicolon hlines hne hlast (rfl : semi.kind = .semicolon) us ht
  rw [← htokens] at hsplit
  rw [hsplit] at hprogram herrors
  exact ⟨herrors, hprogram⟩

/-- A brace that closes nothing behind a `let`: the statement before the semicolon and the one
behind the brace are kept, and the brace is the only error. -/
theorem parse_append_semicolon_malformed :
    let a := "let x = 1"
    let b := "\x7d x"
    IsEntry a ∧ (parse b).errors = [.noExpression .rbrace] ∧
      (parse (a ++ ";" ++ b)).errors = (parse b).errors ∧
      (parse (a ++ ";" ++ b)).program.placeless =
        (Program.mk ((parse a).program.statements ++ (parse b).program.statements)).placeless := by
  intro a b
  have ha : IsEntry a := ⟨by cbv, by cbv, not_endsInString_of_balance (by cbv)⟩
  exact ⟨ha, by cbv, parse_append_semicolon ha b⟩

end MonkeyLang
