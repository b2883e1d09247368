import MonkeyLang.Proofs.Binding
import MonkeyLang.Proofs.Lexing
import MonkeyLang.Proofs.Literal
import MonkeyLang.Proofs.ParseAllowance

/-!
# The parser is sound

Whatever the parser accepts without an error is a program of the grammar, and
the tree is the one that the grammar gives it.

The rules leave their state at the last token of what they parsed, so a rule
that started in `s` and stopped in `s'` has read `s.current` and then the tokens
`us` with `Reads s us s'`. Since errors do not go away (`Reach`), a run without
errors consists of rules that all succeeded without errors.

The expression loop (`extend`) carries the invariant that ties binding strength
to the tiers: the operand at hand is of a tier, and what follows it binds no
more tightly than that tier allows (`Tier.ceiling`).
-/

namespace MonkeyLang

open ParseState

/-! ## Tokens of a text -/

namespace ParseState

/-- What the rules rely on of the tokens of a text: the last one is the
end-of-file token, and an integer token is made of digits. -/
structure Lexed (s : ParseState) : Prop where
  ends : s.Ends
  digits : ∀ t ∈ s.tokens, t.kind = .int → ∀ c ∈ t.text.toList, isDigit c = true

theorem Reach.lexed {s s' : ParseState} (h : Reach s s') (hs : s.Lexed) : s'.Lexed :=
  ⟨h.ends hs.ends, fun t ht => hs.digits t (h.tokens.mem ht)⟩

theorem Lexed.advance {s : ParseState} (hs : s.Lexed) : s.advance.Lexed :=
  (reach_advance s).lexed hs

theorem Lexed.upcoming_ne_nil {s : ParseState} (hs : s.Lexed) (hk : s.current.kind ≠ .eof) :
    s.upcoming ≠ [] :=
  hs.ends.upcoming_ne_nil hk

end ParseState

/-! ## What a rule has read -/

/-- The tokens `us` stand between the current token of `s` and what follows
the current token of `s'`, and something does follow. -/
structure Reads (s : ParseState) (us : List Token) (s' : ParseState) : Prop where
  upcoming : s.upcoming = us ++ s'.upcoming
  more : s'.upcoming ≠ []

section Reads

variable {α : Type} {s s₁ s₂ : ParseState} {us vs : List Token} {r : Reply α}

theorem Reads.refl (h : s.upcoming ≠ []) : Reads s [] s := ⟨rfl, h⟩

theorem Reads.trans (h : Reads s us s₁) (h' : Reads s₁ vs s₂) :
    Reads s (us ++ vs) s₂ :=
  ⟨by rw [h.upcoming, h'.upcoming, List.append_assoc], h'.more⟩

theorem upcoming_eq_cons (h : s.upcoming ≠ []) :
    s.upcoming = s.peek :: s.advance.upcoming := by
  obtain ⟨cur, _ | ⟨t, ts⟩, errs⟩ := s
  · exact absurd rfl h
  · rfl

theorem Reads.of_advance (h : s.upcoming ≠ []) (h' : Reads s.advance us s₁) :
    Reads s (s.advance.current :: us) s₁ :=
  ⟨by rw [upcoming_eq_cons h, h'.upcoming, current_advance, List.cons_append], h'.more⟩

/-- Moving on to a token that is not the end-of-file token. -/
theorem reads_advance (he : s.Lexed) (hk : s.peek.kind ≠ .eof) :
    Reads s [s.peek] s.advance := by
  have ha := he.advance.upcoming_ne_nil (by rwa [current_advance])
  rw [← current_advance]
  exact .of_advance (he.ends.upcoming_ne_nil_of_peek hk) (.refl ha)

theorem reads_expect {k : TokenKind} {t : Token} (he : s.Lexed) (hk : k ≠ .eof)
    (h : s.expect k = .parsed t s₁) :
    Reads s [t] s₁ ∧ t.kind = k ∧ s₁.current = t ∧ s₁.Lexed ∧ s₁.errors = s.errors := by
  unfold ParseState.expect at h
  split at h
  · rename_i hp
    cases h
    exact ⟨reads_advance he (by rwa [hp]), hp, current_advance s,
      he.advance, errors_advance s⟩
  · cases h

theorem Reply.Grows.reach {a : α} (hg : r.Grows s) (h : r = .parsed a s₁) : Reach s s₁ := by
  subst h
  exact hg

theorem Reply.Grows.errors_ne_nil (hg : r.Grows s) (h : r = .failed s₁) :
    s₁.errors ≠ [] := by
  subst h
  intro hn
  have hlt := hg.2
  rw [hn] at hlt
  exact absurd hlt (by simp)

/-- Of a rule whose failure would make the whole fail, the whole has used what
it parsed. -/
theorem Reply.exists_of_either {β : Type} {f : Option α → ParseState → Reply β} {b : β}
    (hf : ∀ s, f none s ≠ .parsed b s₂) (h : r.either f = .parsed b s₂) :
    ∃ a s, r = .parsed a s ∧ f (some a) s = .parsed b s₂ := by
  rcases either_eq_parsed_iff.mp h with h | ⟨s, -, h⟩
  · exact h
  · exact absurd h (hf s)

theorem Reply.exists_of_mapState {g : ParseState → ParseState} {a : α}
    (h : r.mapState g = .parsed a s₁) : ∃ s, r = .parsed a s ∧ s₁ = g s := by
  cases r with
  | parsed a' s => cases h; exact ⟨s, rfl, rfl⟩
  | failed s => cases h
  | exhausted => cases h

end Reads

/-! ## Parameters -/

theorem moreParameters_sound : ∀ n s names s', s.Lexed →
    moreParameters n s = .parsed names s' →
    ∃ us c, Reads s (us ++ [c]) s' ∧ c.kind = .rparen ∧ MoreNames us names
  | 0, _, _, _, _, h => by cases h
  | n + 1, s, names, s', he, h => by
      unfold moreParameters at h
      split at h
      · rename_i hk
        have ha := he.advance
        have hc := reads_advance he (by rw [hk]; decide)
        obtain ⟨t, s₁, h₁, h⟩ := Reply.andThen_eq_parsed_iff.mp h
        obtain ⟨hr₁, ht, -, he₁, -⟩ := reads_expect ha (by decide) h₁
        obtain ⟨rest, s₂, h₂, h⟩ := Reply.andThen_eq_parsed_iff.mp h
        cases h
        obtain ⟨us, c, hr, hck, hm⟩ := moreParameters_sound n s₁ rest s' he₁ h₂
        exact ⟨s.peek :: t :: us, c, (hc.trans hr₁).trans hr, hck, .cons hk ht hm⟩
      · obtain ⟨c, s₁, h₁, h⟩ := Reply.andThen_eq_parsed_iff.mp h
        cases h
        obtain ⟨hr₁, hck, -⟩ := reads_expect he (by decide) h₁
        exact ⟨[], c, hr₁, hck, .nil⟩

theorem parameters_sound {n : Nat} {s s' : ParseState} {names : List Name} (he : s.Lexed)
    (h : parameters n s = .parsed names s') :
    ∃ us c, Reads s (us ++ [c]) s' ∧ c.kind = .rparen ∧ Names us names := by
  unfold parameters at h
  split at h
  · rename_i hk
    cases h
    exact ⟨[], s.peek, reads_advance he (by rw [hk]; decide), hk, .nil⟩
  · obtain ⟨t, s₁, h₁, h⟩ := Reply.andThen_eq_parsed_iff.mp h
    obtain ⟨hr₁, ht, -, he₁, -⟩ := reads_expect he (by decide) h₁
    obtain ⟨rest, s₂, h₂, h⟩ := Reply.andThen_eq_parsed_iff.mp h
    cases h
    obtain ⟨us, c, hr, hck, hm⟩ := moreParameters_sound n s₁ rest s' he₁ h₂
    exact ⟨t :: us, c, hr₁.trans hr, hck, .cons ht hm⟩

/-! ## The semicolon -/

/-- After a statement's expression: either its semicolon is read, or there is
none and the next token does not carry the expression on. -/
theorem skipOptional_sound {s s₁ : ParseState} {us : List Token} (he : s₁.Lexed)
    (hr : Reads s us s₁) (hl : s₁.peek.kind.level ≤ lowestLevel) :
    (∃ semi, semi.kind = .semicolon ∧ Reads s (us ++ [semi]) (s₁.skipOptional .semicolon)) ∨
      (Reads s us (s₁.skipOptional .semicolon) ∧
        (s₁.skipOptional .semicolon).peek.kind ∉ continuers) := by
  unfold skipOptional
  split
  · rename_i hk
    exact .inl ⟨s₁.peek, hk, hr.trans (reads_advance he (by rw [hk]; decide))⟩
  · refine .inr ⟨hr, fun hm => ?_⟩
    have := mem_continuers_iff.mp hm
    omega

/-! ## Expressions -/

/-- What is known of an operand: its tier is tighter than every binary one, and
what follows does not belong to a part of it. -/
def OperandAt (s : ParseState) (e : Expr) (s' : ParseState) : Prop :=
  ∃ us tier, Reads s us s' ∧ Phrase tier (s.current :: us) e ∧
    Tier.unary.ceiling ≤ tier.ceiling ∧ s'.peek.kind.level ≤ tier.ceiling

theorem OperandAt.of_atom {s s' : ParseState} {us : List Token} {e : Expr}
    (hr : Reads s us s') (h : Phrase .atom (s.current :: us) e) : OperandAt s e s' :=
  ⟨us, .atom, hr, h, by decide, level_le_applied _⟩

/-- What is known of an expression read at a level. -/
def ExpressionAt (level : Nat) (s : ParseState) (e : Expr) (s' : ParseState) : Prop :=
  ∃ us, Reads s us s' ∧ Phrase (.ofLevel level) (s.current :: us) e ∧
    s'.peek.kind.level ≤ level

/-- What is known of a statement: it has been read with its semicolon, or it has
none and is not carried on. -/
def StatementAt (s : ParseState) (stmt : Stmt) (s' : ParseState) : Prop :=
  ∃ us, Clause (s.current :: us) stmt ∧
    ((∃ semi, semi.kind = .semicolon ∧ Reads s (us ++ [semi]) s') ∨
      (Reads s us s' ∧ s'.peek.kind ∉ continuers))

/-- The condition of an `if` or a `while` between its parentheses, and the brace
after it. -/
theorem condition_reads {s s₁ s₂ s₃ s₄ : ParseState} {o c b : Token} {condition : Expr}
    (he : s.Lexed) (h₁ : s.expect .lparen = .parsed o s₁)
    (h₂ : s₁.Lexed → s₂.errors = [] →
      s₂.Lexed ∧ ExpressionAt lowestLevel s₁.advance condition s₂)
    (h₃ : s₂.expect .rparen = .parsed c s₃) (h₄ : s₃.expect .lbrace = .parsed b s₄)
    (herr : s₄.errors = []) :
    ∃ us, Reads s (o :: (us ++ [c, s₄.current])) s₄ ∧ o.kind = .lparen ∧ c.kind = .rparen ∧
      s₄.current.kind = .lbrace ∧ Phrase .equality us condition ∧ s₄.Lexed := by
  obtain ⟨hr₁, ho, -, he₁, -⟩ := reads_expect he (by decide) h₁
  have herr₃ := ((expect_grows s₃ _).reach h₄).errors_eq_nil herr
  have herr₂ := ((expect_grows s₂ _).reach h₃).errors_eq_nil herr₃
  obtain ⟨he₂, us, hr₂, hp, -⟩ := h₂ he₁ herr₂
  obtain ⟨hr₃, hc, -, he₃, -⟩ := reads_expect he₂ (by decide) h₃
  obtain ⟨hr₄, hb, rfl, he₄, -⟩ := reads_expect he₃ (by decide) h₄
  have hr := ((hr₁.trans (.of_advance hr₁.more hr₂)).trans hr₃).trans hr₄
  exact ⟨_, by simpa using hr, ho, hc, hb, hp, he₄⟩

mutual

theorem statement_sound : ∀ n s stmt s', s.Lexed → s.current.kind ≠ .eof →
    statement n s = .parsed stmt s' → s'.errors = [] → StatementAt s stmt s'
  | 0, _, _, _, _, _, h, _ => by cases h
  | n + 1, s, stmt, s', he, hk, h, herr => by
      unfold statement at h
      split at h
      · rename_i hlet
        obtain ⟨name, s₁, h₁, h⟩ := Reply.andThen_eq_parsed_iff.mp h
        obtain ⟨hr₁, hname, -, he₁, -⟩ := reads_expect he (by decide) h₁
        obtain ⟨assign, s₂, h₂, h⟩ := Reply.andThen_eq_parsed_iff.mp h
        obtain ⟨hr₂, hassign, -, he₂, -⟩ := reads_expect he₁ (by decide) h₂
        obtain ⟨value, s₃, h₃, h⟩ := Reply.andThen_eq_parsed_iff.mp h
        cases h
        obtain ⟨s₄, h₄, rfl⟩ := Reply.exists_of_mapState h₃
        have ha := he₂.advance
        have herr₄ := (reach_skipOptional s₄ _).errors_eq_nil herr
        obtain ⟨us, hr, hp, hl⟩ := expression_sound n _ _ _ _ (by decide) (by decide) ha h₄ herr₄
        have hr₀ := (hr₁.trans hr₂).trans (.of_advance hr₂.more hr)
        refine ⟨_, .binding hlet hname hassign hp, ?_⟩
        exact skipOptional_sound ((expression_grows n _ _).reach h₄ |>.lexed ha) hr₀ hl
      · rename_i hret
        obtain ⟨value, s₁, h₁, h⟩ := Reply.andThen_eq_parsed_iff.mp h
        cases h
        obtain ⟨s₂, h₂, rfl⟩ := Reply.exists_of_mapState h₁
        have ha := he.advance
        have herr₂ := (reach_skipOptional s₂ _).errors_eq_nil herr
        obtain ⟨us, hr, hp, hl⟩ := expression_sound n _ _ _ _ (by decide) (by decide) ha h₂ herr₂
        refine ⟨_, .leave hret hp, ?_⟩
        exact skipOptional_sound ((expression_grows n _ _).reach h₂ |>.lexed ha)
          (.of_advance (he.upcoming_ne_nil hk) hr) hl
      · obtain ⟨e, s₁, h₁, h⟩ := Reply.andThen_eq_parsed_iff.mp h
        cases h
        obtain ⟨s₂, h₂, rfl⟩ := Reply.exists_of_mapState h₁
        have herr₂ := (reach_skipOptional s₂ _).errors_eq_nil herr
        obtain ⟨us, hr, hp, hl⟩ := expression_sound n _ _ _ _ (by decide) (by decide) he h₂ herr₂
        refine ⟨us, .expression hp, ?_⟩
        exact skipOptional_sound ((expression_grows n _ _).reach h₂ |>.lexed he) hr hl

theorem statements_sound : ∀ n inBlock s body s', s.Lexed →
    statements n inBlock s = .parsed body s' → s'.errors = [] →
    ∃ ts, s.tokens = ts ++ s'.tokens ∧ Lines s'.current.kind ts body ∧
      (s'.current.kind = .eof ∨ (inBlock = true ∧ s'.current.kind = .rbrace))
  | 0, _, _, _, _, _, h, _ => by cases h
  | n + 1, inBlock, s, body, s', he, h, herr => by
      unfold statements at h
      split at h
      · rename_i hstop
        cases h
        exact ⟨[], rfl, .nil, hstop⟩
      · rename_i hstop
        rcases Reply.either_eq_parsed_iff.mp h with ⟨stmt, s₁, h₁, h⟩ | ⟨s₁, h₁, h⟩
        · obtain ⟨rest, s₂, h₂, h⟩ := Reply.andThen_eq_parsed_iff.mp h
          cases h
          have hg₁ := (statement_grows n s).reach h₁
          have ha := (hg₁.lexed he).advance
          have herr₁ : s₁.errors = [] := by
            simpa using ((statements_grows n inBlock _).reach h₂).errors_eq_nil herr
          obtain ⟨ts, hts, hlines, hend⟩ := statements_sound n inBlock _ _ _ ha h₂ herr
          obtain ⟨us, hclause, hsemi⟩ :=
            statement_sound n s stmt s₁ he (fun hk => hstop (.inl hk)) h₁ herr₁
          rcases hsemi with ⟨semi, hsk, hr⟩ | ⟨hr, hnext⟩
          · refine ⟨(s.current :: us) ++ semi :: ts, ?_, .closed hsk hclause hlines, hend⟩
            rw [ParseState.tokens, hr.upcoming, ← tokens_advance hr.more, hts]
            simp
          · have hfirst : firstKind s'.current.kind ts = s₁.peek.kind := by
              have hcons := upcoming_eq_cons hr.more
              rw [← tokens_advance hr.more, hts] at hcons
              cases ts with
              | nil => exact congrArg Token.kind (List.cons.inj hcons).1
              | cons t ts => exact congrArg Token.kind (List.cons.inj hcons).1
            refine ⟨(s.current :: us) ++ ts, ?_, .bare (hfirst ▸ hnext) hclause hlines, hend⟩
            rw [ParseState.tokens, hr.upcoming, ← tokens_advance hr.more, hts]
            simp
        · -- a statement that failed has left an error
          obtain ⟨rest, s₂, h₂, h⟩ := Reply.andThen_eq_parsed_iff.mp h
          cases h
          have herr₁ : s₁.errors = [] := by
            simpa using ((statements_grows n inBlock _).reach h₂).errors_eq_nil herr
          exact absurd herr₁ ((statement_grows n s).errors_ne_nil h₁)

theorem block_sound : ∀ n s b s', s.Lexed → s.current.kind = .lbrace →
    block n s = .parsed b s' → s'.errors = [] →
    ∃ us, Reads s us s' ∧ Braces (s.current :: us) b
  | 0, _, _, _, _, _, h, _ => by cases h
  | n + 1, s, b, s', he, hk, h, herr => by
      unfold block at h
      obtain ⟨body, s₁, h₁, h⟩ := Reply.andThen_eq_parsed_iff.mp h
      cases h
      split at herr
      · exact absurd herr (by simp)
      · rename_i hne
        rw [if_neg hne]
        have hup := he.upcoming_ne_nil (by rw [hk]; decide)
        have ha := he.advance
        obtain ⟨ts, hts, hlines, hend⟩ := statements_sound n true _ _ _ ha h₁ herr
        have hc : s₁.current.kind = .rbrace := by
          rcases hend with hend | ⟨-, hend⟩
          · exact absurd hend hne
          · exact hend
        have he₁ := ((statements_grows n true _).reach h₁).lexed ha
        refine ⟨ts ++ [s₁.current], ⟨?_, he₁.upcoming_ne_nil hne⟩, .mk hk hc (hc ▸ hlines)⟩
        rw [← tokens_advance hup, hts, ParseState.tokens, List.append_assoc]
        rfl

theorem expression_sound : ∀ n level s e s', lowestLevel ≤ level → level ≤ prefixLevel →
    s.Lexed → expression n level s = .parsed e s' → s'.errors = [] → ExpressionAt level s e s'
  | 0, _, _, _, _, _, _, _, h, _ => by cases h
  | n + 1, level, s, e, s', hl, hl', he, h, herr => by
      unfold expression at h
      obtain ⟨left, s₁, h₁, h⟩ := Reply.andThen_eq_parsed_iff.mp h
      have herr₁ := ((extend_grows n level left s₁).reach h).errors_eq_nil herr
      have he₁ := ((operand_grows n s).reach h₁).lexed he
      obtain ⟨us, tier, hr, hp, htier, hpeek⟩ := operand_sound n s left s₁ he h₁ herr₁
      have hc := Nat.le_trans (Tier.ceiling_ofLevel_le_unary level) htier
      obtain ⟨vs, hr', hp', hpeek'⟩ :=
        extend_sound n level left s₁ e s' hl hl' he₁ hr.more h herr tier _ hp hc hpeek
      exact ⟨us ++ vs, hr.trans hr', hp', hpeek'⟩

theorem operand_sound : ∀ n s e s', s.Lexed → operand n s = .parsed e s' →
    s'.errors = [] → OperandAt s e s'
  | 0, _, _, _, _, h, _ => by cases h
  | n + 1, s, e, s', he, h, herr => by
      have ha := he.advance
      unfold operand at h
      split at h
      case h_1 hk =>
        cases h
        exact .of_atom (.refl (he.upcoming_ne_nil (by rw [hk]; decide))) (.identifier hk)
      case h_2 hk =>
        have hdigits := he.digits s.current (by simp [ParseState.tokens]) hk
        rw [literalValue?_eq hdigits] at h
        split at h
        · rename_i value hvalue
          cases h
          obtain ⟨hle, heq⟩ := Option.ite_none_right_eq_some.mp hvalue
          cases heq
          exact .of_atom (.refl (he.upcoming_ne_nil (by rw [hk]; decide)))
            (.integer hk hdigits hle)
        · cases h
      case h_3 hk =>
        cases h
        exact .of_atom (.refl (he.upcoming_ne_nil (by rw [hk]; decide))) (.string hk)
      case h_4 hk =>
        cases h
        exact .of_atom (.refl (he.upcoming_ne_nil (by rw [hk]; decide))) (.truth hk)
      case h_5 hk =>
        cases h
        exact .of_atom (.refl (he.upcoming_ne_nil (by rw [hk]; decide))) (.falsity hk)
      case h_6 hk | h_7 hk =>
        obtain ⟨right, s₁, h₁, h⟩ := Reply.andThen_eq_parsed_iff.mp h
        cases h
        have hup := he.upcoming_ne_nil (by rw [hk]; decide)
        obtain ⟨us, hr, hp, hpeek⟩ :=
          expression_sound n _ _ _ _ (by decide) (by decide) ha h₁ herr
        exact ⟨_, .unary, .of_advance hup hr, .unary (by simp [hk]) hp, Nat.le_refl _, hpeek⟩
      case h_8 hk =>
        obtain ⟨inner, s₁, h₁, h⟩ :=
          Reply.exists_of_either (by simp [Reply.andThen_eq_parsed_iff]) h
        obtain ⟨c, s₂, h₂, h⟩ := Reply.andThen_eq_parsed_iff.mp h
        cases h
        have hup := he.upcoming_ne_nil (by rw [hk]; decide)
        have he₁ := ((expression_grows n _ _).reach h₁).lexed ha
        obtain ⟨hr₂, hck, -, -, herr₂⟩ := reads_expect he₁ (by decide) h₂
        obtain ⟨us, hr₁, hp, -⟩ :=
          expression_sound n _ _ _ _ (by decide) (by decide) ha h₁ (herr₂ ▸ herr)
        exact .of_atom ((Reads.of_advance hup hr₁).trans hr₂) (.group hk hck hp)
      case h_9 hk =>
        obtain ⟨elements, s₁, h₁, h⟩ := Reply.andThen_eq_parsed_iff.mp h
        cases h
        obtain ⟨us, c, hr, hck, hi⟩ :=
          expressions_sound n .rbracket s _ _ he (by rw [hk]; decide) (by decide) h₁ herr
        exact .of_atom hr (.array hk hck hi)
      case h_10 hk =>
        obtain ⟨entries, s₁, h₁, h⟩ := Reply.andThen_eq_parsed_iff.mp h
        cases h
        obtain ⟨us, c, hr, hck, hi⟩ := pairs_sound n s _ _ he (by rw [hk]; decide) h₁ herr
        exact .of_atom hr (.hash hk hck hi)
      case h_11 hk =>
        obtain ⟨o, s₁, h₁, h⟩ := Reply.andThen_eq_parsed_iff.mp h
        obtain ⟨condition, s₂, h₂, h⟩ :=
          Reply.exists_of_either (by simp [Reply.andThen_eq_parsed_iff]) h
        obtain ⟨c, s₃, h₃, h⟩ := Reply.andThen_eq_parsed_iff.mp h
        obtain ⟨b, s₄, h₄, h⟩ := Reply.andThen_eq_parsed_iff.mp h
        obtain ⟨consequence, s₅, h₅, h⟩ := Reply.andThen_eq_parsed_iff.mp h
        obtain ⟨other, s₆, h₆, h⟩ := Reply.andThen_eq_parsed_iff.mp h
        cases h
        have herr₅ := ((alternative_grows n s₅).reach h₆).errors_eq_nil herr
        have herr₄ := ((block_grows n s₄).reach h₅).errors_eq_nil herr₅
        obtain ⟨ts, hr₄, ho, hck, hb, hp, he₄⟩ := condition_reads he h₁
          (fun he₁ herr₂ => ⟨((expression_grows n _ _).reach h₂).lexed he₁.advance,
            expression_sound n _ _ _ _ (by decide) (by decide) he₁.advance h₂ herr₂⟩)
          h₃ h₄ herr₄
        obtain ⟨us, hr₅, hblock⟩ := block_sound n s₄ _ _ he₄ hb h₅ herr₅
        have he₅ := ((block_grows n s₄).reach h₅).lexed he₄
        obtain ⟨vs, hr₆, hother⟩ := alternative_sound n s₅ _ _ he₅ hr₅.more h₆ herr
        refine .of_atom ((hr₄.trans hr₅).trans hr₆) ?_
        simpa using Phrase.conditional hk ho hck hp hblock hother
      case h_12 hk =>
        obtain ⟨o, s₁, h₁, h⟩ := Reply.andThen_eq_parsed_iff.mp h
        obtain ⟨condition, s₂, h₂, h⟩ :=
          Reply.exists_of_either (by simp [Reply.andThen_eq_parsed_iff]) h
        obtain ⟨c, s₃, h₃, h⟩ := Reply.andThen_eq_parsed_iff.mp h
        obtain ⟨b, s₄, h₄, h⟩ := Reply.andThen_eq_parsed_iff.mp h
        obtain ⟨body, s₅, h₅, h⟩ := Reply.andThen_eq_parsed_iff.mp h
        cases h
        have herr₄ := ((block_grows n s₄).reach h₅).errors_eq_nil herr
        obtain ⟨ts, hr₄, ho, hck, hb, hp, he₄⟩ := condition_reads he h₁
          (fun he₁ herr₂ => ⟨((expression_grows n _ _).reach h₂).lexed he₁.advance,
            expression_sound n _ _ _ _ (by decide) (by decide) he₁.advance h₂ herr₂⟩)
          h₃ h₄ herr₄
        obtain ⟨us, hr₅, hblock⟩ := block_sound n s₄ _ _ he₄ hb h₅ herr
        refine .of_atom (hr₄.trans hr₅) ?_
        simpa using Phrase.loop hk ho hck hp hblock
      case h_13 hk =>
        obtain ⟨o, s₁, h₁, h⟩ := Reply.andThen_eq_parsed_iff.mp h
        obtain ⟨names, s₂, h₂, h⟩ := Reply.andThen_eq_parsed_iff.mp h
        obtain ⟨b, s₃, h₃, h⟩ := Reply.andThen_eq_parsed_iff.mp h
        obtain ⟨body, s₄, h₄, h⟩ := Reply.andThen_eq_parsed_iff.mp h
        cases h
        obtain ⟨hr₁, ho, -, he₁, -⟩ := reads_expect he (by decide) h₁
        obtain ⟨ts, c, hr₂, hck, hnames⟩ := parameters_sound he₁ h₂
        have he₂ := ((parameters_grows n s₁).reach h₂).lexed he₁
        obtain ⟨hr₃, hb, rfl, he₃, -⟩ := reads_expect he₂ (by decide) h₃
        obtain ⟨us, hr₄, hblock⟩ := block_sound n s₃ _ _ he₃ hb h₄ herr
        refine .of_atom (((hr₁.trans hr₂).trans hr₃).trans hr₄) ?_
        simpa using Phrase.function hk ho hck hnames hblock
      case h_14 => cases h

theorem alternative_sound : ∀ n s b s', s.Lexed → s.upcoming ≠ [] →
    alternative n s = .parsed b s' → s'.errors = [] →
    ∃ us, Reads s us s' ∧ Otherwise us b
  | 0, _, _, _, _, _, h, _ => by cases h
  | n + 1, s, b, s', he, hup, h, herr => by
      unfold alternative at h
      split at h
      · rename_i hk
        have ha := he.advance
        have hkw := reads_advance he (by rw [hk]; decide)
        obtain ⟨o, s₁, h₁, h⟩ := Reply.andThen_eq_parsed_iff.mp h
        obtain ⟨hr₁, ho, hcur₁, he₁, -⟩ := reads_expect ha (by decide) h₁
        obtain ⟨body, s₂, h₂, h⟩ := Reply.andThen_eq_parsed_iff.mp h
        cases h
        obtain ⟨us, hr₂, hb⟩ := block_sound n s₁ body s' he₁ (hcur₁ ▸ ho) h₂ herr
        exact ⟨s.peek :: (o :: us), (hkw.trans hr₁).trans hr₂, .present hk (hcur₁ ▸ hb)⟩
      · cases h
        exact ⟨[], .refl hup, .missing⟩

theorem extend_sound : ∀ n level left s e s', lowestLevel ≤ level → level ≤ prefixLevel →
    s.Lexed → s.upcoming ≠ [] → extend n level left s = .parsed e s' → s'.errors = [] →
    ∀ tier ts, Phrase tier ts left → (Tier.ofLevel level).ceiling ≤ tier.ceiling →
    s.peek.kind.level ≤ tier.ceiling →
    ∃ us, Reads s us s' ∧ Phrase (.ofLevel level) (ts ++ us) e ∧ s'.peek.kind.level ≤ level
  | 0, _, _, _, _, _, _, _, _, _, h, _ => by cases h
  | n + 1, level, left, s, e, s', hl, hl', he, hup, h, herr => by
      intro tier ts hp hc hpeek
      unfold extend at h
      split at h
      · rename_i hk
        obtain ⟨left', s₁, h₁, h⟩ := Reply.andThen_eq_parsed_iff.mp h
        have ha := he.advance
        have he₁ := ((continuation_grows n left _).reach h₁).lexed ha
        have herr₁ := ((extend_grows n level left' s₁).reach h).errors_eq_nil herr
        rw [← current_advance] at hk hpeek
        obtain ⟨us, tier', hr₁, hp₁, hc₁, hpeek₁⟩ :=
          continuation_sound n left _ left' s₁ ha hk.2 h₁ herr₁ tier ts hp hpeek
        have hc' := Nat.le_trans (Tier.ceiling_ofLevel_le hl hk.1) hc₁
        obtain ⟨vs, hr', hp', hpeek'⟩ :=
          extend_sound n level left' s₁ e s' hl hl' he₁ hr₁.more h herr tier' _ hp₁ hc' hpeek₁
        refine ⟨_, (Reads.of_advance hup hr₁).trans hr', ?_, hpeek'⟩
        simpa using hp'
      · rename_i hk
        cases h
        refine ⟨[], .refl hup, ?_, ?_⟩
        · rw [List.append_nil]
          exact hp.of_ceiling_le (Tier.ofLevel_ne_atom level) hc
        · have := lowestLevel_le_level s.peek.kind
          omega

theorem continuation_sound : ∀ n left s e s', s.Lexed → lowestLevel < s.current.kind.level →
    continuation n left s = .parsed e s' → s'.errors = [] →
    ∀ tier ts, Phrase tier ts left → s.current.kind.level ≤ tier.ceiling →
    ∃ us tier', Reads s us s' ∧ Phrase tier' (ts ++ s.current :: us) e ∧
      s.current.kind.level ≤ tier'.ceiling ∧ s'.peek.kind.level ≤ tier'.ceiling
  | 0, _, _, _, _, _, _, h, _ => by cases h
  | n + 1, left, s, e, s', he, hk, h, herr => by
      intro tier ts hp hc
      have hne : s.current.kind ≠ .eof := fun h => by rw [h] at hk; exact absurd hk (by decide)
      have hup := he.upcoming_ne_nil hne
      have ha := he.advance
      unfold continuation at h
      split at h
      · rename_i ho
        obtain ⟨arguments, s₁, h₁, h⟩ := Reply.andThen_eq_parsed_iff.mp h
        cases h
        obtain ⟨us, c, hr, hck, hi⟩ :=
          expressions_sound n .rparen s _ _ he hne (by decide) h₁ herr
        have hp' := hp.of_ceiling_le (by decide) (Tier.applied_ceiling_le (ho ▸ hc))
        exact ⟨us ++ [c], .applied, hr, .call ho hck hp' hi, level_le_applied _,
          level_le_applied _⟩
      · rename_i ho
        obtain ⟨index, s₁, h₁, h⟩ :=
          Reply.exists_of_either (by simp [Reply.andThen_eq_parsed_iff]) h
        obtain ⟨c, s₂, h₂, h⟩ := Reply.andThen_eq_parsed_iff.mp h
        cases h
        have he₁ := ((expression_grows n _ _).reach h₁).lexed ha
        obtain ⟨hr₂, hck, -, -, herr₂⟩ := reads_expect he₁ (by decide) h₂
        obtain ⟨us, hr₁, hi, -⟩ :=
          expression_sound n _ _ _ _ (by decide) (by decide) ha h₁ (herr₂ ▸ herr)
        have hc' : TokenKind.lparen.level ≤ tier.ceiling := by
          rw [ho] at hc
          exact Nat.le_trans (by decide) hc
        have hp' := hp.of_ceiling_le (by decide) (Tier.applied_ceiling_le hc')
        exact ⟨_, .applied, (Reads.of_advance hup hr₁).trans hr₂, .index ho hck hp' hi,
          level_le_applied _, level_le_applied _⟩
      · rename_i hcall hindex
        obtain ⟨right, s₁, h₁, h⟩ := Reply.andThen_eq_parsed_iff.mp h
        cases h
        obtain ⟨tier', hop, hceil, htight, hlevel⟩ := exists_tier_of_level hk hcall hindex
        obtain ⟨us, hr₁, hright, hpeek⟩ :=
          expression_sound n _ _ _ _ (lowestLevel_le_level _) hlevel ha h₁ herr
        have hne' := (ne_atom_of_mem_operators hop htight).1
        have hp' := hp.of_ceiling_le hne' (hceil ▸ hc)
        exact ⟨_, tier', Reads.of_advance hup hr₁, .binary hop htight hp' hright,
          Nat.le_of_eq hceil.symm, hceil ▸ hpeek⟩

theorem expressions_sound : ∀ n closing s es s', s.Lexed → s.current.kind ≠ .eof →
    closing ≠ .eof → expressions n closing s = .parsed es s' → s'.errors = [] →
    ∃ us c, Reads s (us ++ [c]) s' ∧ c.kind = closing ∧ Items us es
  | 0, _, _, _, _, _, _, _, h, _ => by cases h
  | n + 1, closing, s, es, s', he, hne, hcl, h, herr => by
      unfold expressions at h
      split at h
      · rename_i hk
        cases h
        exact ⟨[], s.peek, reads_advance he (hk ▸ hcl), hk, .nil⟩
      · obtain ⟨e, s₁, h₁, h⟩ := Reply.andThen_eq_parsed_iff.mp h
        obtain ⟨rest, s₂, h₂, h⟩ := Reply.andThen_eq_parsed_iff.mp h
        cases h
        have herr₁ := ((moreExpressions_grows n closing s₁).reach h₂).errors_eq_nil herr
        have he₁ := ((expression_grows n _ _).reach h₁).lexed he.advance
        obtain ⟨us, hr₁, hp, -⟩ :=
          expression_sound n _ _ _ _ (by decide) (by decide) he.advance h₁ herr₁
        obtain ⟨vs, c, hr₂, hck, hm⟩ := moreExpressions_sound n closing s₁ _ _ he₁ hcl h₂ herr
        have hr := (Reads.of_advance (he.upcoming_ne_nil hne) hr₁).trans hr₂
        exact ⟨_, c, by simpa using hr, hck, .cons hp hm⟩

theorem moreExpressions_sound : ∀ n closing s es s', s.Lexed →
    closing ≠ .eof → moreExpressions n closing s = .parsed es s' → s'.errors = [] →
    ∃ us c, Reads s (us ++ [c]) s' ∧ c.kind = closing ∧ MoreItems us es
  | 0, _, _, _, _, _, _, h, _ => by cases h
  | n + 1, closing, s, es, s', he, hcl, h, herr => by
      unfold moreExpressions at h
      split at h
      · rename_i hk
        have hcomma := reads_advance he (by rw [hk]; decide)
        obtain ⟨e, s₁, h₁, h⟩ := Reply.andThen_eq_parsed_iff.mp h
        obtain ⟨rest, s₂, h₂, h⟩ := Reply.andThen_eq_parsed_iff.mp h
        cases h
        have ha := he.advance.advance
        have herr₁ := ((moreExpressions_grows n closing s₁).reach h₂).errors_eq_nil herr
        have he₁ := ((expression_grows n _ _).reach h₁).lexed ha
        obtain ⟨us, hr₁, hp, -⟩ := expression_sound n _ _ _ _ (by decide) (by decide) ha h₁ herr₁
        obtain ⟨vs, c, hr₂, hck, hm⟩ := moreExpressions_sound n closing s₁ _ _ he₁ hcl h₂ herr
        have hr := (hcomma.trans (.of_advance hcomma.more hr₁)).trans hr₂
        exact ⟨_, c, by simpa using hr, hck, .cons hk hp hm⟩
      · obtain ⟨c, s₁, h₁, h⟩ := Reply.andThen_eq_parsed_iff.mp h
        cases h
        obtain ⟨hr₁, hck, -⟩ := reads_expect he hcl h₁
        exact ⟨[], c, hr₁, hck, .nil⟩

theorem pairs_sound : ∀ n s ps s', s.Lexed → s.current.kind ≠ .eof →
    pairs n s = .parsed ps s' → s'.errors = [] →
    ∃ us c, Reads s (us ++ [c]) s' ∧ c.kind = .rbrace ∧ Pairs us ps
  | 0, _, _, _, _, _, h, _ => by cases h
  | n + 1, s, ps, s', he, hne, h, herr => by
      unfold pairs at h
      split at h
      · rename_i hk
        cases h
        exact ⟨[], s.peek, reads_advance he (by rw [hk]; decide), hk, .nil⟩
      · obtain ⟨key, s₁, h₁, h⟩ := Reply.exists_of_either
          (by simp [Reply.andThen_eq_parsed_iff, Reply.either_eq_parsed_iff]) h
        obtain ⟨colon, s₂, h₂, h⟩ := Reply.andThen_eq_parsed_iff.mp h
        obtain ⟨value, s₃, h₃, h⟩ := Reply.exists_of_either (by simp) h
        have hup := he.upcoming_ne_nil hne
        have he₁ := ((expression_grows n _ _).reach h₁).lexed he.advance
        obtain ⟨hr₂, hcolon, -, he₂, herr₂⟩ := reads_expect he₁ (by decide) h₂
        have he₃ := ((expression_grows n _ _).reach h₃).lexed he₂.advance
        -- the part up to the value, once no error has been found in it
        have read : s₃.errors = [] → ∃ ts us, Reads s (ts ++ colon :: us) s₃ ∧
            Phrase .equality ts key ∧ Phrase .equality us value := by
          intro herr₃
          have herr₁ : s₁.errors = [] := by
            rw [← herr₂]
            simpa using ((expression_grows n _ _).reach h₃).errors_eq_nil herr₃
          obtain ⟨ts, hr₁, hkey, -⟩ :=
            expression_sound n _ _ _ _ (by decide) (by decide) he.advance h₁ herr₁
          obtain ⟨us, hr₃, hvalue, -⟩ :=
            expression_sound n _ _ _ _ (by decide) (by decide) he₂.advance h₃ herr₃
          have hr := ((Reads.of_advance hup hr₁).trans hr₂).trans (.of_advance hr₂.more hr₃)
          exact ⟨_, _, by simpa using hr, hkey, hvalue⟩
        simp only at h
        split at h
        · rename_i hk
          cases h
          obtain ⟨ts, us, hr, hkey, hvalue⟩ := read (by simpa using herr)
          exact ⟨_, s₃.peek, hr.trans (reads_advance he₃ (by rw [hk]; decide)), hk,
            .last hcolon hkey hvalue⟩
        · obtain ⟨comma, s₄, h₄, h⟩ := Reply.andThen_eq_parsed_iff.mp h
          obtain ⟨rest, s₅, h₅, h⟩ := Reply.andThen_eq_parsed_iff.mp h
          cases h
          obtain ⟨hr₄, hcomma, hcur₄, he₄, herr₄⟩ := reads_expect he₃ (by decide) h₄
          have herr₃ : s₃.errors = [] := by
            rw [← herr₄]
            exact ((pairs_grows n s₄).reach h₅).errors_eq_nil herr
          obtain ⟨ts, us, hr, hkey, hvalue⟩ := read herr₃
          obtain ⟨vs, c, hr₅, hck, hrest⟩ :=
            pairs_sound n s₄ _ _ he₄ (by rw [hcur₄, hcomma]; decide) h₅ herr
          have hr' := (hr.trans hr₄).trans hr₅
          exact ⟨_, c, by simpa using hr', hck, .cons hcolon hcomma hkey hvalue hrest⟩

end

/-! ## Whole texts -/

theorem lexed_ofTokens {ts : List Token} {t : Token} (ht : t.kind = .eof)
    (hts : ∀ u ∈ ts, u.kind = .int → ∀ c ∈ u.text.toList, isDigit c = true) :
    (ofTokens (ts ++ [t])).Lexed := by
  refine ⟨ends_ofTokens ht, fun u hu hk => ?_⟩
  rw [tokens_ofTokens (by simp), List.mem_append, List.mem_singleton] at hu
  rcases hu with hu | rfl
  · exact hts u hu hk
  · exact nomatch ht.symm.trans hk

/-- A sequence of tokens is cut in one way only before an end-of-file token. -/
theorem eq_of_append_cons_eof {ts us vs : List Token} {t u : Token}
    (h : ts ++ [t] = us ++ u :: vs) (hu : u.kind = .eof) (hts : ∀ v ∈ ts, v.kind ≠ .eof) :
    ts = us := by
  rcases List.append_eq_append_iff.mp h with ⟨as, hus, has⟩ | ⟨bs, hts', hbs⟩
  · cases as with
    | nil => simpa using hus.symm
    | cons a as => exact absurd (congrArg List.length has) (by simp)
  · cases bs with
    | nil => simpa using hts'
    | cons b bs =>
        obtain ⟨rfl, -⟩ := List.cons.inj hbs
        exact absurd hu (hts u (by simp [hts']))

/-- Tokens that are parsed without an error are those of a program of the grammar, and the tree is
the one that has been parsed. -/
theorem derives_parseTokens {ts : List Token} {t : Token} (ht : t.kind = .eof)
    (hall : ∀ u ∈ ts, u.kind ≠ .eof ∧ (u.kind = .int → ∀ c ∈ u.text.toList, isDigit c = true))
    (h : (parseTokens (ts ++ [t])).errors = []) :
    Derives ts (parseTokens (ts ++ [t])).program := by
  obtain ⟨body, s', hs'⟩ := statements_ofTokens ts ht
  rw [parseTokens, hs'] at h ⊢
  have hl := lexed_ofTokens ht fun u hu => (hall u hu).2
  obtain ⟨us, hus, hlines, hend⟩ := statements_sound _ _ _ _ _ hl hs' h
  have heof : s'.current.kind = .eof := by
    rcases hend with hend | ⟨hfalse, -⟩
    · exact hend
    · cases hfalse
  -- the run has stopped at the only end-of-file token, so it has read all others
  rw [tokens_ofTokens (by simp)] at hus
  rw [heof] at hlines
  rw [Derives, eq_of_append_cons_eof hus heof fun u hu => (hall u hu).1]
  exact hlines

/-- **Soundness.** If a text has no syntax errors, its tokens are those of a
program of the grammar, and the tree is the one that has been parsed. -/
theorem derives_parse {source : String} (h : (parse source).errors = []) :
    ∃ ts t, tokenize source = ts ++ [t] ∧ t.kind = .eof ∧ (∀ u ∈ ts, u.kind ≠ .eof) ∧
      Derives ts (parse source).program := by
  obtain ⟨ts, t, hts, ht, -, hall⟩ := tokensFrom_eq_append .start source.toList
  have hparse : parse source = parseTokens (ts ++ [t]) := congrArg parseTokens hts
  rw [hparse] at h ⊢
  exact ⟨ts, t, hts, ht, fun u hu => (hall u hu).1, derives_parseTokens ht hall h⟩

theorem derives_parse_sample :
    (parse "let x = 1 + 2 * f(3); if (x) { x } else { [1, 2][0] }").errors = [] ∧
      ∃ ts t, tokenize "let x = 1 + 2 * f(3); if (x) { x } else { [1, 2][0] }" = ts ++ [t] ∧
        t.kind = .eof ∧ (∀ u ∈ ts, u.kind ≠ .eof) ∧
        Derives ts (parse "let x = 1 + 2 * f(3); if (x) { x } else { [1, 2][0] }").program :=
  ⟨by cbv, derives_parse (by cbv)⟩

end MonkeyLang
