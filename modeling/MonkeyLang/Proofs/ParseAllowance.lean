import MonkeyLang.Proofs.ParseProgress

/-!
# The allowance of steps suffices

The steps that the rules of the parser carry are no part of the language: as
long as the last token is the end-of-file token, no rule runs out of them
(`statements_ne_exhausted`), and the parser comes to an answer on every text
(`statements_ofTokens`).

Eight steps pay for each token after the current one, and a few more for the
rules that call each other on the same token. A rule that goes on to the next
token gets eight steps back; that it does go on is what `Ends` is for, since
behind the end-of-file token the window stays where it is.
-/

namespace MonkeyLang

open ParseState

/-! ## Sequencing -/

section Allowance

variable {α β : Type} {s : ParseState} {r : Reply α}

theorem Reply.parsed_ne_exhausted {a : α} : Reply.parsed a s ≠ .exhausted := by
  simp

theorem Reply.andThen_ne_exhausted {f : α → ParseState → Reply β} (hg : r.Grows s)
    (hr : r ≠ .exhausted) (hf : ∀ a s₁, Reach s s₁ → f a s₁ ≠ .exhausted) :
    r.andThen f ≠ .exhausted := by
  cases r with
  | parsed a s₁ => exact hf a s₁ hg
  | failed s₁ => exact nofun
  | exhausted => exact absurd rfl hr

theorem Reply.either_ne_exhausted {f : Option α → ParseState → Reply β} (hg : r.Grows s)
    (hr : r ≠ .exhausted) (hf : ∀ o s₁, Reach s s₁ → f o s₁ ≠ .exhausted) :
    r.either f ≠ .exhausted := by
  cases r with
  | parsed a s₁ => exact hf (some a) s₁ hg
  | failed s₁ => exact hf none s₁ hg.1
  | exhausted => exact absurd rfl hr

theorem Reply.mapState_ne_exhausted {g : ParseState → ParseState} (hr : r ≠ .exhausted) :
    r.mapState g ≠ .exhausted := by
  cases r with
  | parsed a s₁ => exact nofun
  | failed s₁ => exact nofun
  | exhausted => exact absurd rfl hr

theorem Reply.ofOption_ne_exhausted {o : Option α} : Reply.ofOption o s ≠ .exhausted := by
  cases o <;> exact nofun

theorem expect_ne_exhausted {k : TokenKind} {f : Token → ParseState → Reply β}
    (hf : ∀ s₁, Reach s s₁ → s₁.current.kind = k → f s.peek s₁ ≠ .exhausted) :
    (s.expect k).andThen f ≠ .exhausted := by
  unfold ParseState.expect
  split
  · exact hf s.advance (reach_advance s) (by simpa)
  · exact nofun

theorem ParseState.Ends.upcoming_pos (h : s.Ends) (hk : s.current.kind ≠ .eof) :
    0 < s.upcoming.length :=
  List.length_pos_iff.mpr (h.upcoming_ne_nil hk)

theorem ParseState.Ends.upcoming_pos_of_peek (h : s.Ends) (hk : s.peek.kind ≠ .eof) :
    0 < s.upcoming.length :=
  List.length_pos_iff.mpr (h.upcoming_ne_nil_of_peek hk)

end Allowance

/-! ## No rule runs out of steps -/

theorem moreParameters_ne_exhausted : ∀ n s, s.Ends → 8 * s.upcoming.length + 1 ≤ n →
    moreParameters n s ≠ .exhausted
  | 0, _, _, hn => absurd hn (by omega)
  | n + 1, s, he, hn => by
      unfold moreParameters
      split
      · rename_i hk
        have hpos := he.upcoming_pos_of_peek (by rw [hk]; decide)
        have hlen := length_advance s
        refine expect_ne_exhausted ?_
        intro s₁ h₁ _
        have hl₁ := h₁.upcoming_length
        refine Reply.andThen_ne_exhausted (moreParameters_grows n s₁) ?_
          fun _ _ _ => Reply.parsed_ne_exhausted
        exact moreParameters_ne_exhausted n s₁ (h₁.ends ((reach_advance s).ends he)) (by omega)
      · exact expect_ne_exhausted fun _ _ _ => Reply.parsed_ne_exhausted

theorem parameters_ne_exhausted {n : Nat} {s : ParseState} (he : s.Ends)
    (hn : 8 * s.upcoming.length + 1 ≤ n) : parameters n s ≠ .exhausted := by
  unfold parameters
  split
  · exact nofun
  · refine expect_ne_exhausted ?_
    intro s₁ h₁ _
    have hl₁ := h₁.upcoming_length
    refine Reply.andThen_ne_exhausted (moreParameters_grows n s₁) ?_
      fun _ _ _ => nofun
    exact moreParameters_ne_exhausted n s₁ (h₁.ends he) (by omega)

mutual

theorem statement_ne_exhausted : ∀ n s, s.Ends → 8 * s.upcoming.length + 4 ≤ n →
    statement n s ≠ .exhausted
  | 0, _, _, hn => absurd hn (by omega)
  | n + 1, s, he, hn => by
      unfold statement
      split
      · refine expect_ne_exhausted ?_
        intro s₁ h₁ _
        refine expect_ne_exhausted ?_
        intro s₂ h₂ _
        have r₂ := (h₁.trans h₂).trans (reach_advance s₂)
        have hl := r₂.upcoming_length
        refine Reply.andThen_ne_exhausted
          ((expression_grows n _ _).mapState (reach_skipOptional · _)) ?_
          fun _ _ _ => nofun
        exact Reply.mapState_ne_exhausted
          (expression_ne_exhausted n _ _ (r₂.ends he) (by omega))
      · have hl := (reach_advance s).upcoming_length
        refine Reply.andThen_ne_exhausted
          ((expression_grows n _ _).mapState (reach_skipOptional · _)) ?_
          fun _ _ _ => nofun
        exact Reply.mapState_ne_exhausted
          (expression_ne_exhausted n _ _ ((reach_advance s).ends he) (by omega))
      · refine Reply.andThen_ne_exhausted
          ((expression_grows n _ _).mapState (reach_skipOptional · _)) ?_
          fun _ _ _ => nofun
        exact Reply.mapState_ne_exhausted (expression_ne_exhausted n _ _ he (by omega))

theorem statements_ne_exhausted : ∀ n inBlock s, s.Ends →
    8 * s.upcoming.length + 5 ≤ n → statements n inBlock s ≠ .exhausted
  | 0, _, _, _, hn => absurd hn (by omega)
  | n + 1, inBlock, s, he, hn => by
      unfold statements
      split
      · exact nofun
      · rename_i hk
        have hpos := he.upcoming_pos fun h => hk (.inl h)
        refine Reply.either_ne_exhausted (statement_grows n s)
          (statement_ne_exhausted n s he (by omega)) ?_
        intro first s₁ h₁
        have hl₁ := h₁.upcoming_length
        have hl₂ := length_advance s₁
        refine Reply.andThen_ne_exhausted (statements_grows n inBlock _) ?_
          fun _ _ _ => nofun
        exact statements_ne_exhausted n inBlock _ ((reach_advance s₁).ends (h₁.ends he))
          (by omega)

theorem block_ne_exhausted : ∀ n s, s.Ends → 0 < s.upcoming.length →
    8 * s.upcoming.length + 1 ≤ n → block n s ≠ .exhausted
  | 0, _, _, _, hn => absurd hn (by omega)
  | n + 1, s, he, hpos, hn => by
      unfold block
      have hl := length_advance s
      refine Reply.andThen_ne_exhausted (statements_grows n true _) ?_
        fun _ _ _ => nofun
      exact statements_ne_exhausted n true _ ((reach_advance s).ends he) (by omega)

theorem expression_ne_exhausted : ∀ n level s, s.Ends →
    8 * s.upcoming.length + 3 ≤ n → expression n level s ≠ .exhausted
  | 0, _, _, _, hn => absurd hn (by omega)
  | n + 1, level, s, he, hn => by
      unfold expression
      refine Reply.andThen_ne_exhausted (operand_grows n s)
        (operand_ne_exhausted n s he (by omega)) ?_
      intro left s₁ h₁
      have hl₁ := h₁.upcoming_length
      exact extend_ne_exhausted n level left s₁ (h₁.ends he) (by omega)

theorem operand_ne_exhausted : ∀ n s, s.Ends → 8 * s.upcoming.length + 2 ≤ n →
    operand n s ≠ .exhausted
  | 0, _, _, hn => absurd hn (by omega)
  | n + 1, s, he, hn => by
      have ha := (reach_advance s).ends he
      have hl := length_advance s
      unfold operand
      split
      case h_1 | h_3 | h_4 | h_5 | h_14 => exact nofun
      case h_2 => split <;> exact nofun
      case h_6 hk | h_7 hk =>
        have hpos := he.upcoming_pos (by rw [hk]; decide)
        exact Reply.andThen_ne_exhausted (expression_grows n _ _)
          (expression_ne_exhausted n _ _ ha (by omega)) fun _ _ _ => nofun
      case h_8 hk =>
        have hpos := he.upcoming_pos (by rw [hk]; decide)
        exact Reply.either_ne_exhausted (expression_grows n _ _)
          (expression_ne_exhausted n _ _ ha (by omega)) fun _ s₁ _ =>
            expect_ne_exhausted fun _ _ _ => Reply.ofOption_ne_exhausted
      case h_9 hk =>
        exact Reply.andThen_ne_exhausted (expressions_grows n _ s)
          (expressions_ne_exhausted n _ s he (he.upcoming_pos (by rw [hk]; decide))
            (by omega)) fun _ _ _ => nofun
      case h_10 hk =>
        exact Reply.andThen_ne_exhausted (pairs_grows n s)
          (pairs_ne_exhausted n s he (he.upcoming_pos (by rw [hk]; decide)) (by omega))
          fun _ _ _ => nofun
      case h_11 hk =>
        refine expect_ne_exhausted ?_
        intro s₁ h₁ hk₁
        have he₁ := h₁.ends he
        have hpos₁ := he₁.upcoming_pos (by rw [hk₁]; decide)
        have hl₁ := h₁.upcoming_length
        have hla := length_advance s₁
        refine Reply.either_ne_exhausted (expression_grows n _ _)
          (expression_ne_exhausted n _ _ ((reach_advance s₁).ends he₁) (by omega)) ?_
        intro condition s₂ h₂
        refine expect_ne_exhausted ?_
        intro s₃ h₃ _
        refine expect_ne_exhausted ?_
        intro s₄ h₄ hk₄
        have r₄ := ((reach_advance s₁).trans h₂).trans (h₃.trans h₄)
        have he₄ := r₄.ends he₁
        have hl₄ := r₄.upcoming_length
        refine Reply.andThen_ne_exhausted (block_grows n s₄)
          (block_ne_exhausted n s₄ he₄ (he₄.upcoming_pos (by rw [hk₄]; decide)) (by omega)) ?_
        intro consequence s₅ h₅
        have hl₅ := h₅.upcoming_length
        exact Reply.andThen_ne_exhausted (alternative_grows n s₅)
          (alternative_ne_exhausted n s₅ (h₅.ends he₄) (by omega))
          fun _ _ _ => Reply.ofOption_ne_exhausted
      case h_12 hk =>
        refine expect_ne_exhausted ?_
        intro s₁ h₁ hk₁
        have he₁ := h₁.ends he
        have hpos₁ := he₁.upcoming_pos (by rw [hk₁]; decide)
        have hl₁ := h₁.upcoming_length
        have hla := length_advance s₁
        refine Reply.either_ne_exhausted (expression_grows n _ _)
          (expression_ne_exhausted n _ _ ((reach_advance s₁).ends he₁) (by omega)) ?_
        intro condition s₂ h₂
        refine expect_ne_exhausted ?_
        intro s₃ h₃ _
        refine expect_ne_exhausted ?_
        intro s₄ h₄ hk₄
        have r₄ := ((reach_advance s₁).trans h₂).trans (h₃.trans h₄)
        have he₄ := r₄.ends he₁
        have hl₄ := r₄.upcoming_length
        exact Reply.andThen_ne_exhausted (block_grows n s₄)
          (block_ne_exhausted n s₄ he₄ (he₄.upcoming_pos (by rw [hk₄]; decide)) (by omega))
          fun _ _ _ => Reply.ofOption_ne_exhausted
      case h_13 hk =>
        refine expect_ne_exhausted ?_
        intro s₁ h₁ _
        have he₁ := h₁.ends he
        have hl₁ := h₁.upcoming_length
        refine Reply.andThen_ne_exhausted (parameters_grows n s₁)
          (parameters_ne_exhausted he₁ (by omega)) ?_
        intro names s₂ h₂
        refine expect_ne_exhausted ?_
        intro s₃ h₃ hk₃
        have r₃ := h₂.trans h₃
        have he₃ := r₃.ends he₁
        have hl₃ := r₃.upcoming_length
        exact Reply.andThen_ne_exhausted (block_grows n s₃)
          (block_ne_exhausted n s₃ he₃ (he₃.upcoming_pos (by rw [hk₃]; decide)) (by omega))
          fun _ _ _ => nofun

theorem alternative_ne_exhausted : ∀ n s, s.Ends → 8 * s.upcoming.length + 1 ≤ n →
    alternative n s ≠ .exhausted
  | 0, _, _, hn => absurd hn (by omega)
  | n + 1, s, he, hn => by
      unfold alternative
      split
      · rename_i hk
        have hpos := he.upcoming_pos_of_peek (by rw [hk]; decide)
        have hl := length_advance s
        refine expect_ne_exhausted ?_
        intro s₁ h₁ hk₁
        have hl₁ := h₁.upcoming_length
        have he₁ := h₁.ends ((reach_advance s).ends he)
        exact Reply.andThen_ne_exhausted (block_grows n s₁)
          (block_ne_exhausted n s₁ he₁ (he₁.upcoming_pos (by rw [hk₁]; decide)) (by omega))
          fun _ _ _ => nofun
      · exact nofun

theorem extend_ne_exhausted : ∀ n level left s, s.Ends →
    8 * s.upcoming.length + 1 ≤ n → extend n level left s ≠ .exhausted
  | 0, _, _, _, _, hn => absurd hn (by omega)
  | n + 1, level, left, s, he, hn => by
      unfold extend
      split
      · rename_i hk
        have hne : s.peek.kind ≠ .eof := fun h => by
          rw [h] at hk
          exact absurd hk.2 (by decide)
        have hpos := he.upcoming_pos_of_peek hne
        have hl := length_advance s
        have ha := (reach_advance s).ends he
        refine Reply.andThen_ne_exhausted (continuation_grows n left _)
          (continuation_ne_exhausted n left _ ha (ha.upcoming_pos (by simpa)) (by omega)) ?_
        intro left s₁ h₁
        have hl₁ := h₁.upcoming_length
        exact extend_ne_exhausted n level left s₁ (h₁.ends ha) (by omega)
      · exact nofun

theorem continuation_ne_exhausted : ∀ n left s, s.Ends → 0 < s.upcoming.length →
    8 * s.upcoming.length + 2 ≤ n → continuation n left s ≠ .exhausted
  | 0, _, _, _, _, hn => absurd hn (by omega)
  | n + 1, left, s, he, hpos, hn => by
      have ha := (reach_advance s).ends he
      have hl := length_advance s
      unfold continuation
      split
      · exact Reply.andThen_ne_exhausted (expressions_grows n _ s)
          (expressions_ne_exhausted n _ s he hpos (by omega)) fun _ _ _ => nofun
      · exact Reply.either_ne_exhausted (expression_grows n _ _)
          (expression_ne_exhausted n _ _ ha (by omega)) fun _ s₁ _ =>
            expect_ne_exhausted fun _ _ _ => Reply.ofOption_ne_exhausted
      · exact Reply.andThen_ne_exhausted (expression_grows n _ _)
          (expression_ne_exhausted n _ _ ha (by omega)) fun _ _ _ => nofun

theorem expressions_ne_exhausted : ∀ n closing s, s.Ends → 0 < s.upcoming.length →
    8 * s.upcoming.length + 1 ≤ n → expressions n closing s ≠ .exhausted
  | 0, _, _, _, _, hn => absurd hn (by omega)
  | n + 1, closing, s, he, hpos, hn => by
      have ha := (reach_advance s).ends he
      have hl := length_advance s
      unfold expressions
      split
      · exact nofun
      · refine Reply.andThen_ne_exhausted (expression_grows n _ _)
          (expression_ne_exhausted n _ _ ha (by omega)) ?_
        intro e s₁ h₁
        have hl₁ := h₁.upcoming_length
        exact Reply.andThen_ne_exhausted (moreExpressions_grows n _ _)
          (moreExpressions_ne_exhausted n closing s₁ (h₁.ends ha) (by omega))
          fun _ _ _ => nofun

theorem moreExpressions_ne_exhausted : ∀ n closing s, s.Ends →
    8 * s.upcoming.length + 1 ≤ n → moreExpressions n closing s ≠ .exhausted
  | 0, _, _, _, hn => absurd hn (by omega)
  | n + 1, closing, s, he, hn => by
      unfold moreExpressions
      split
      · rename_i hk
        have hpos := he.upcoming_pos_of_peek (by rw [hk]; decide)
        have ha := (reach_advance s).ends he
        have ha₂ := (reach_advance s.advance).ends ha
        have hl := length_advance s
        have hl₂ := (reach_advance s.advance).upcoming_length
        refine Reply.andThen_ne_exhausted (expression_grows n _ _)
          (expression_ne_exhausted n _ _ ha₂ (by omega)) ?_
        intro e s₁ h₁
        have hl₁ := h₁.upcoming_length
        exact Reply.andThen_ne_exhausted (moreExpressions_grows n _ _)
          (moreExpressions_ne_exhausted n closing s₁ (h₁.ends ha₂) (by omega))
          fun _ _ _ => nofun
      · exact expect_ne_exhausted fun _ _ _ => nofun

theorem pairs_ne_exhausted : ∀ n s, s.Ends → 0 < s.upcoming.length →
    8 * s.upcoming.length + 1 ≤ n → pairs n s ≠ .exhausted
  | 0, _, _, _, hn => absurd hn (by omega)
  | n + 1, s, he, hpos, hn => by
      have ha := (reach_advance s).ends he
      have hl := length_advance s
      unfold pairs
      split
      · exact nofun
      · refine Reply.either_ne_exhausted (expression_grows n _ _)
          (expression_ne_exhausted n _ _ ha (by omega)) ?_
        intro key s₁ h₁
        refine expect_ne_exhausted ?_
        intro s₂ h₂ _
        have r₂ := (h₁.trans h₂).trans (reach_advance s₂)
        have hl₂ := r₂.upcoming_length
        refine Reply.either_ne_exhausted (expression_grows n _ _)
          (expression_ne_exhausted n _ _ (r₂.ends ha) (by omega)) ?_
        intro value s₃ h₃
        split
        · split
          · exact nofun
          · refine expect_ne_exhausted ?_
            intro s₄ h₄ hk₄
            have r₄ := (r₂.trans h₃).trans h₄
            have he₄ := r₄.ends ha
            have hl₄ := r₄.upcoming_length
            exact Reply.andThen_ne_exhausted (pairs_grows n s₄)
              (pairs_ne_exhausted n s₄ he₄ (he₄.upcoming_pos (by rw [hk₄]; decide))
                (by omega)) fun _ _ _ => nofun
        · exact nofun

end

/-! ## Whole texts -/

/-- A sequence of statements never fails: a statement that does is dropped. -/
theorem statements_ne_failed : ∀ n inBlock s s', statements n inBlock s ≠ .failed s'
  | 0, _, _, _ => nofun
  | n + 1, inBlock, s, s' => by
      unfold statements
      split
      · exact nofun
      · have key : ∀ o s₁, ((statements n inBlock s₁).andThen fun rest s₂ =>
            Reply.parsed (Option.toList o ++ rest) s₂) ≠ .failed s' := by
          intro o s₁ h
          cases hr : statements n inBlock s₁ with
          | parsed a s₂ => rw [hr] at h; exact nomatch h
          | failed s₂ => exact statements_ne_failed n inBlock s₁ s₂ hr
          | exhausted => rw [hr] at h; exact nomatch h
        cases statement n s with
        | parsed first s₁ => exact key (some first) s₁.advance
        | failed s₁ => exact key none s₁.advance
        | exhausted => exact nofun

theorem tokens_ofTokens {ts : List Token} (h : ts ≠ []) : (ofTokens ts).tokens = ts := by
  cases ts with
  | nil => exact absurd rfl h
  | cons t ts => rfl

theorem ends_ofTokens {ts : List Token} {t : Token} (ht : t.kind = .eof) :
    (ofTokens (ts ++ [t])).Ends := by
  refine ⟨t, ?_, ht⟩
  rw [tokens_ofTokens (by simp), List.getLast?_concat]

/-- The parser comes to an answer on every sequence of tokens that ends with
the end-of-file token. -/
theorem statements_ofTokens (ts : List Token) {t : Token} (ht : t.kind = .eof) :
    ∃ body s', statements (stepsFor (ts ++ [t]).length) false (ofTokens (ts ++ [t]))
      = .parsed body s' := by
  have hlen : (ofTokens (ts ++ [t])).upcoming.length = ts.length := by
    cases ts <;> simp [ofTokens]
  have hne := statements_ne_exhausted (stepsFor (ts ++ [t]).length) false
    (ofTokens (ts ++ [t])) (ends_ofTokens ht) (by
      rw [hlen, stepsFor, List.length_append, List.length_singleton]
      omega)
  cases hr : statements (stepsFor (ts ++ [t]).length) false (ofTokens (ts ++ [t])) with
  | parsed body s' => exact ⟨body, s', rfl⟩
  | failed s' => exact absurd hr (statements_ne_failed _ _ _ s')
  | exhausted => exact absurd hr hne

end MonkeyLang
