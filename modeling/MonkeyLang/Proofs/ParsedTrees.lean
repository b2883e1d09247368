import MonkeyLang.Proofs.ParseSound
import MonkeyLang.Syntax.Known

/-!
# Trees of texts

The tree of a text without syntax errors has a derivation in the grammar, and no
rule of the grammar makes a node of unknown kind.
-/

namespace MonkeyLang

/-! ## Derivations -/

mutual

theorem Phrase.isKnown : ∀ {tier : Tier} {ts : List Token} {e : Expr}, Phrase tier ts e →
    e.isKnown = true
  | _, _, _, .tighten _ h => h.isKnown
  | _, _, _, .binary _ _ hleft hright => by rw [Expr.isKnown, hleft.isKnown, hright.isKnown]; rfl
  | _, _, _, .unary _ h => h.isKnown
  | _, _, _, .call _ _ hf hargs => by rw [Expr.isKnown, hf.isKnown, hargs.allKnown]; rfl
  | _, _, _, .index _ _ hleft hindex => by rw [Expr.isKnown, hleft.isKnown, hindex.isKnown]; rfl
  | _, _, _, .identifier _ | _, _, _, .integer _ _ _ | _, _, _, .string _ | _, _, _, .truth _
  | _, _, _, .falsity _ => rfl
  | _, _, _, .group _ _ h => h.isKnown
  | _, _, _, .array _ _ h => h.allKnown
  | _, _, _, .hash _ _ h => h.pairsKnown
  | _, _, _, .conditional _ _ _ hc hb he => by
      rw [Expr.isKnown, hc.isKnown, hb.isKnown, he.elseIsKnown]; rfl
  | _, _, _, .loop _ _ _ hc hb => by rw [Expr.isKnown, hc.isKnown, hb.isKnown]; rfl
  | _, _, _, .function _ _ _ _ hb => hb.isKnown

theorem Items.allKnown : ∀ {ts : List Token} {es : List Expr}, Items ts es → allKnown es = true
  | _, _, .nil => rfl
  | _, _, .cons he hes => by rw [MonkeyLang.allKnown, he.isKnown, hes.allKnown]; rfl

theorem MoreItems.allKnown : ∀ {ts : List Token} {es : List Expr}, MoreItems ts es →
    allKnown es = true
  | _, _, .nil => rfl
  | _, _, .cons _ he hes => by rw [MonkeyLang.allKnown, he.isKnown, hes.allKnown]; rfl

theorem Pairs.pairsKnown : ∀ {ts : List Token} {ps : List (Expr × Expr)}, Pairs ts ps →
    pairsKnown ps = true
  | _, _, .nil => rfl
  | _, _, .last _ hk hv => by rw [MonkeyLang.pairsKnown, hk.isKnown, hv.isKnown]; rfl
  | _, _, .cons _ _ hk hv hps => by
      rw [MonkeyLang.pairsKnown, hk.isKnown, hv.isKnown, hps.pairsKnown]; rfl

theorem Braces.isKnown : ∀ {ts : List Token} {b : Block}, Braces ts b → b.isKnown = true
  | _, _, .mk _ _ h => h.stmtsKnown

theorem Otherwise.elseIsKnown : ∀ {ts : List Token} {b : Option Block}, Otherwise ts b →
    elseIsKnown b = true
  | _, _, .missing => rfl
  | _, _, .present _ h => h.isKnown

theorem Lines.stmtsKnown : ∀ {next : TokenKind} {ts : List Token} {stmts : List Stmt},
    Lines next ts stmts → stmtsKnown stmts = true
  | _, _, _, .nil => rfl
  | _, _, _, .closed _ h hs => by rw [MonkeyLang.stmtsKnown, h.isKnown, hs.stmtsKnown]; rfl
  | _, _, _, .bare _ h hs => by rw [MonkeyLang.stmtsKnown, h.isKnown, hs.stmtsKnown]; rfl

theorem Clause.isKnown : ∀ {ts : List Token} {stmt : Stmt}, Clause ts stmt → stmt.isKnown = true
  | _, _, .binding _ _ _ h => h.isKnown
  | _, _, .leave _ h => h.isKnown
  | _, _, .expression h => h.isKnown

end

/-! ## Texts -/

/-- The tree of a text without syntax errors has a derivation, from tokens of the text. -/
theorem exists_derives {source : String} (h : (parse source).errors = []) :
    ∃ ts, (∀ t ∈ ts, t ∈ tokenize source) ∧ Derives ts (parse source).program := by
  obtain ⟨ts, t, hts, ht, -, hall⟩ := tokensFrom_eq_append .start source.toList
  have hsource : tokenize source = ts ++ [t] := hts
  have hparse : parse source = parseTokens (ts ++ [t]) := congrArg parseTokens hsource
  rw [hparse] at h ⊢
  exact ⟨ts, fun u hu => hsource ▸ List.mem_append_left _ hu, derives_parseTokens ht hall h⟩

theorem stmtsKnown_parse {source : String} (h : (parse source).errors = []) :
    stmtsKnown (parse source).program.statements = true := by
  obtain ⟨ts, -, hderives⟩ := exists_derives h
  exact Lines.stmtsKnown hderives

end MonkeyLang
