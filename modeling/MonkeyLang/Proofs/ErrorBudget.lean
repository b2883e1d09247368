import MonkeyLang.Proofs.ParseSound

/-!
# Errors and tokens

However malformed a text is, the parser reads all of its tokens, and it finds at most one error
for each of them, the end-of-file token included (`parse_reads_all`).

The tokens pay for the errors. The account of a state holds the errors found so far and the
tokens that are still to come, so the account does not change when the window moves on by a
token and the error that this token pays for is recorded. A rule that takes up the current token
may record one error more than that (`Reply.Within`): either no rule starts at this token, or it
opens a construct and what has to follow is missing, and the construct is then given up. A block
that the end of the file cuts off is the one construct that is kept, and its opening brace pays.
-/

namespace MonkeyLang

open ParseState

/-! ## Accounts -/

namespace ParseState

/-- The errors found so far and the tokens still to come. -/
def account (s : ParseState) : Nat := s.errors.length + s.upcoming.length

variable {s : ParseState}

theorem account_record (s : ParseState) (e : SyntaxError) :
    (s.record e).account = s.account + 1 := by
  simp only [account, errors_record, upcoming_record, List.length_append, List.length_singleton]
  omega

theorem account_advance (h : s.upcoming ≠ []) : s.advance.account + 1 = s.account := by
  have hpos := List.length_pos_iff.mpr h
  rw [account, account, errors_advance, length_advance]
  omega

theorem account_advance_le (s : ParseState) : s.advance.account ≤ s.account := by
  rw [account, account, errors_advance, length_advance]
  omega

theorem account_skipOptional_le (s : ParseState) (k : TokenKind) :
    (s.skipOptional k).account ≤ s.account := by
  unfold skipOptional
  split
  · exact s.account_advance_le
  · exact Nat.le_refl _

theorem Ends.advance (h : s.Ends) : s.advance.Ends := (reach_advance s).ends h

theorem Ends.account_advance (h : s.Ends) (hk : s.current.kind ≠ .eof) :
    s.advance.account + 1 = s.account :=
  ParseState.account_advance (h.upcoming_ne_nil hk)

theorem Ends.account_advance_of_peek (h : s.Ends) (hk : s.peek.kind ≠ .eof) :
    s.advance.account + 1 = s.account :=
  ParseState.account_advance (h.upcoming_ne_nil_of_peek hk)

end ParseState

/-- A rule has stopped with so much in the account at most. -/
def Reply.Within {α : Type} (limit : Nat) : Reply α → Prop
  | .parsed _ s | .failed s => s.Ends ∧ s.account ≤ limit
  | .exhausted => True

section Within

variable {α β : Type} {s : ParseState} {r : Reply α} {l m : Nat}

theorem Reply.Within.mono (h : r.Within l) (hlm : l ≤ m) : r.Within m := by
  cases r with
  | parsed a s => exact ⟨h.1, Nat.le_trans h.2 hlm⟩
  | failed s => exact ⟨h.1, Nat.le_trans h.2 hlm⟩
  | exhausted => trivial

theorem Reply.Within.andThen {f : α → ParseState → Reply β} (h : r.Within l) (hlm : l ≤ m)
    (hf : ∀ a s, s.Ends → s.account ≤ l → (f a s).Within m) : (r.andThen f).Within m := by
  cases r with
  | parsed a s => exact hf a s h.1 h.2
  | failed s => exact ⟨h.1, Nat.le_trans h.2 hlm⟩
  | exhausted => trivial

theorem Reply.Within.either {f : Option α → ParseState → Reply β} (h : r.Within l)
    (hf : ∀ o s, s.Ends → s.account ≤ l → (f o s).Within m) : (r.either f).Within m := by
  cases r with
  | parsed a s => exact hf (some a) s h.1 h.2
  | failed s => exact hf none s h.1 h.2
  | exhausted => trivial

theorem Reply.Within.skipOptional (h : r.Within l) (k : TokenKind) :
    (r.mapState (·.skipOptional k)).Within l := by
  cases r with
  | parsed a s =>
      exact ⟨(reach_skipOptional s k).ends h.1, Nat.le_trans (s.account_skipOptional_le k) h.2⟩
  | failed s =>
      exact ⟨(reach_skipOptional s k).ends h.1, Nat.le_trans (s.account_skipOptional_le k) h.2⟩
  | exhausted => trivial

theorem within_ofOption (hs : s.Ends) (hl : s.account ≤ l) (o : Option α) :
    (Reply.ofOption o s).Within l := by
  cases o <;> exact ⟨hs, hl⟩

theorem within_record (hs : s.Ends) (e : SyntaxError) :
    (Reply.failed (s.record e) : Reply α).Within (s.account + 1) :=
  ⟨(reach_record s e).ends hs, Nat.le_of_eq (account_record s e)⟩

/-- A missing token is one more error; one that is there has paid for itself. -/
theorem within_expect {k : TokenKind} {f : Token → ParseState → Reply β} (hs : s.Ends)
    (hk : k ≠ .eof) (hm : s.account + 1 ≤ m)
    (hf : ∀ s₁, s₁.Ends → s₁.current.kind = k → s₁.account + 1 = s.account →
      (f s.peek s₁).Within m) : ((s.expect k).andThen f).Within m := by
  unfold ParseState.expect
  split
  · rename_i hp
    exact hf s.advance hs.advance (by rw [current_advance, hp])
      (hs.account_advance_of_peek (by rwa [hp]))
  · exact (within_record hs _).mono hm

end Within

/-! ## Every rule stays within the account -/

theorem moreParameters_within : ∀ n s, s.Ends → (moreParameters n s).Within (s.account + 1)
  | 0, _, _ => trivial
  | n + 1, s, hs => by
      unfold moreParameters
      split
      · rename_i hk
        have ha := hs.account_advance_of_peek (by rw [hk]; decide)
        refine within_expect hs.advance (by decide) (by omega) fun s₁ hs₁ _ h₁ => ?_
        exact (moreParameters_within n s₁ hs₁).andThen (by omega) fun _ s₂ hs₂ _ =>
          ⟨hs₂, by omega⟩
      · exact within_expect hs (by decide) (Nat.le_refl _) fun s₁ hs₁ _ _ => ⟨hs₁, by omega⟩

theorem parameters_within {n : Nat} {s : ParseState} (hs : s.Ends) :
    (parameters n s).Within (s.account + 1) := by
  unfold parameters
  split
  · exact ⟨hs.advance, Nat.le_succ_of_le s.account_advance_le⟩
  · refine within_expect hs (by decide) (Nat.le_refl _) fun s₁ hs₁ _ h₁ => ?_
    exact (moreParameters_within n s₁ hs₁).andThen (by omega) fun _ s₂ hs₂ _ => ⟨hs₂, by omega⟩

/-- The condition of an `if` or of a `while` in parentheses, up to the brace of the block. -/
theorem within_header {β : Type} {n : Nat} {s : ParseState}
    {f : Option Expr → ParseState → Reply β} (hs : s.Ends)
    (hcondition : ∀ s₁ : ParseState, s₁.Ends →
      (expression n lowestLevel s₁).Within (s₁.account + 1))
    (hf : ∀ o s₄, s₄.Ends → s₄.current.kind = .lbrace → s₄.account + 1 ≤ s.account →
      (f o s₄).Within (s.account + 1)) :
    ((s.expect .lparen).andThen fun _ s₁ =>
      (expression n lowestLevel s₁.advance).either fun condition s₂ =>
      (s₂.expect .rparen).andThen fun _ s₃ =>
      (s₃.expect .lbrace).andThen fun _ s₄ => f condition s₄).Within (s.account + 1) := by
  refine within_expect hs (by decide) (Nat.le_refl _) fun s₁ hs₁ hk₁ h₁ => ?_
  have ha := hs₁.account_advance (by rw [hk₁]; decide)
  refine (hcondition _ hs₁.advance).either fun o s₂ hs₂ h₂ => ?_
  refine within_expect hs₂ (by decide) (by omega) fun s₃ hs₃ _ h₃ => ?_
  refine within_expect hs₃ (by decide) (by omega) fun s₄ hs₄ hk₄ h₄ => ?_
  exact hf o s₄ hs₄ hk₄ (by omega)

/-- Statements that start at the end of the file are none, and find nothing. -/
theorem statements_within_of_eof {n : Nat} {inBlock : Bool} {s : ParseState} (hs : s.Ends)
    (hk : s.current.kind = .eof) : (statements n inBlock s).Within s.account := by
  cases n with
  | zero => trivial
  | succ n =>
      unfold statements
      rw [if_pos (.inl hk)]
      exact ⟨hs, Nat.le_refl _⟩

mutual

theorem statement_within : ∀ n s, s.Ends → (statement n s).Within (s.account + 1)
  | 0, _, _ => trivial
  | n + 1, s, hs => by
      unfold statement
      split
      case h_1 =>
        refine within_expect hs (by decide) (Nat.le_refl _) fun s₁ hs₁ _ h₁ => ?_
        refine within_expect hs₁ (by decide) (by omega) fun s₂ hs₂ _ h₂ => ?_
        have ha := s₂.account_advance_le
        exact ((expression_within n _ _ hs₂.advance).skipOptional _).andThen (by omega)
          fun _ s₃ hs₃ h₃ => ⟨hs₃, by omega⟩
      case h_2 =>
        have ha := s.account_advance_le
        exact ((expression_within n _ _ hs.advance).skipOptional _).andThen (by omega)
          fun _ s₁ hs₁ h₁ => ⟨hs₁, by omega⟩
      case h_3 =>
        exact ((expression_within n _ _ hs).skipOptional _).andThen (Nat.le_refl _)
          fun _ s₁ hs₁ h₁ => ⟨hs₁, h₁⟩

theorem statements_within : ∀ n inBlock s, s.Ends →
    (statements n inBlock s).Within (s.account + 1)
  | 0, _, _, _ => trivial
  | n + 1, inBlock, s, hs => by
      unfold statements
      split
      · exact ⟨hs, Nat.le_succ _⟩
      · refine (statement_within n s hs).either fun first s₁ hs₁ h₁ => ?_
        -- at the end of the file moving on pays for nothing, but there is nothing to pay for
        have hrest : (statements n inBlock s₁.advance).Within (s.account + 1) := by
          by_cases hk : s₁.advance.current.kind = .eof
          · exact (statements_within_of_eof hs₁.advance hk).mono
              (Nat.le_trans s₁.account_advance_le h₁)
          · have ha := hs₁.account_advance_of_peek (by rwa [current_advance] at hk)
            exact (statements_within n inBlock _ hs₁.advance).mono (by omega)
        exact hrest.andThen (Nat.le_refl _) fun _ s₂ hs₂ h₂ => ⟨hs₂, h₂⟩

theorem block_within : ∀ n s, s.Ends → s.current.kind ≠ .eof →
    (block n s).Within (s.account + 1)
  | 0, _, _, _ => trivial
  | n + 1, s, hs, hk => by
      unfold block
      have ha := hs.account_advance hk
      refine (statements_within n true _ hs.advance).andThen (by omega) fun body s₁ hs₁ h₁ => ?_
      split
      · exact ⟨(reach_record s₁ _).ends hs₁, by rw [account_record]; omega⟩
      · exact ⟨hs₁, by omega⟩

theorem expression_within : ∀ n level s, s.Ends →
    (expression n level s).Within (s.account + 1)
  | 0, _, _, _ => trivial
  | n + 1, level, s, hs => by
      unfold expression
      refine (operand_within n s hs).andThen (Nat.le_refl _) fun left s₁ hs₁ h₁ => ?_
      exact (extend_within n level left s₁ hs₁).mono h₁

theorem operand_within : ∀ n s, s.Ends → (operand n s).Within (s.account + 1)
  | 0, _, _ => trivial
  | n + 1, s, hs => by
      unfold operand
      split
      case h_1 | h_3 | h_4 | h_5 => exact ⟨hs, Nat.le_succ _⟩
      case h_2 =>
        split
        · exact ⟨hs, Nat.le_succ _⟩
        · exact within_record hs _
      case h_6 | h_7 =>
        have ha := s.account_advance_le
        exact (expression_within n _ _ hs.advance).andThen (by omega) fun _ s₁ hs₁ h₁ =>
          ⟨hs₁, by omega⟩
      case h_8 hk =>
        have ha := hs.account_advance (by rw [hk]; decide)
        refine (expression_within n _ _ hs.advance).either fun inner s₁ hs₁ h₁ => ?_
        exact within_expect hs₁ (by decide) (by omega) fun s₂ hs₂ _ h₂ =>
          within_ofOption hs₂ (by omega) inner
      case h_9 hk =>
        exact (expressions_within n _ s hs (by rw [hk]; decide) (by decide)).andThen
          (Nat.le_refl _) fun _ s₁ hs₁ h₁ => ⟨hs₁, h₁⟩
      case h_10 hk =>
        exact (pairs_within n s hs (by rw [hk]; decide)).andThen (Nat.le_refl _)
          fun _ s₁ hs₁ h₁ => ⟨hs₁, h₁⟩
      case h_11 =>
        refine within_header hs (expression_within n _) fun condition s₄ hs₄ hk₄ h₄ => ?_
        refine (block_within n s₄ hs₄ (by rw [hk₄]; decide)).andThen (by omega)
          fun consequence s₅ hs₅ h₅ => ?_
        exact (alternative_within n s₅ hs₅).andThen (by omega) fun _ s₆ hs₆ h₆ =>
          within_ofOption hs₆ (by omega) _
      case h_12 =>
        refine within_header hs (expression_within n _) fun condition s₄ hs₄ hk₄ h₄ => ?_
        exact (block_within n s₄ hs₄ (by rw [hk₄]; decide)).andThen (by omega)
          fun body s₅ hs₅ h₅ => within_ofOption hs₅ (by omega) _
      case h_13 =>
        refine within_expect hs (by decide) (Nat.le_refl _) fun s₁ hs₁ _ h₁ => ?_
        refine (parameters_within hs₁).andThen (by omega) fun names s₂ hs₂ h₂ => ?_
        refine within_expect hs₂ (by decide) (by omega) fun s₃ hs₃ hk₃ h₃ => ?_
        exact (block_within n s₃ hs₃ (by rw [hk₃]; decide)).andThen (by omega)
          fun body s₄ hs₄ h₄ => ⟨hs₄, by omega⟩
      case h_14 => exact within_record hs _

theorem alternative_within : ∀ n s, s.Ends → (alternative n s).Within s.account
  | 0, _, _ => trivial
  | n + 1, s, hs => by
      unfold alternative
      split
      · rename_i hk
        have ha := hs.account_advance_of_peek (by rw [hk]; decide)
        refine within_expect hs.advance (by decide) (by omega) fun s₁ hs₁ hk₁ h₁ => ?_
        exact (block_within n s₁ hs₁ (by rw [hk₁]; decide)).andThen (by omega)
          fun b s₂ hs₂ h₂ => ⟨hs₂, by omega⟩
      · exact ⟨hs, Nat.le_refl _⟩

theorem extend_within : ∀ n level left s, s.Ends → (extend n level left s).Within s.account
  | 0, _, _, _, _ => trivial
  | n + 1, level, left, s, hs => by
      unfold extend
      split
      · rename_i hk
        have hpeek : s.peek.kind ≠ .eof := fun h => by
          rw [h] at hk
          exact absurd hk.2 (by decide)
        have ha := hs.account_advance_of_peek hpeek
        refine (continuation_within n left _ hs.advance (by simpa)).andThen (by omega)
          fun left s₁ hs₁ h₁ => ?_
        exact (extend_within n level left s₁ hs₁).mono (by omega)
      · exact ⟨hs, Nat.le_refl _⟩

theorem continuation_within : ∀ n left s, s.Ends → s.current.kind ≠ .eof →
    (continuation n left s).Within (s.account + 1)
  | 0, _, _, _, _ => trivial
  | n + 1, left, s, hs, hk => by
      unfold continuation
      have ha := hs.account_advance hk
      split
      · exact (expressions_within n _ s hs hk (by decide)).andThen (Nat.le_refl _)
          fun _ s₁ hs₁ h₁ => ⟨hs₁, h₁⟩
      · refine (expression_within n _ _ hs.advance).either fun index s₁ hs₁ h₁ => ?_
        exact within_expect hs₁ (by decide) (by omega) fun s₂ hs₂ _ h₂ =>
          within_ofOption hs₂ (by omega) _
      · exact (expression_within n _ _ hs.advance).andThen (by omega) fun _ s₁ hs₁ h₁ =>
          ⟨hs₁, by omega⟩

theorem expressions_within : ∀ n closing s, s.Ends → s.current.kind ≠ .eof → closing ≠ .eof →
    (expressions n closing s).Within (s.account + 1)
  | 0, _, _, _, _, _ => trivial
  | n + 1, closing, s, hs, hk, hclosing => by
      unfold expressions
      have ha := hs.account_advance hk
      split
      · exact ⟨hs.advance, by omega⟩
      · refine (expression_within n _ _ hs.advance).andThen (by omega) fun e s₁ hs₁ h₁ => ?_
        exact (moreExpressions_within n closing s₁ hs₁ hclosing).andThen (by omega)
          fun es s₂ hs₂ h₂ => ⟨hs₂, by omega⟩

theorem moreExpressions_within : ∀ n closing s, s.Ends → closing ≠ .eof →
    (moreExpressions n closing s).Within (s.account + 1)
  | 0, _, _, _, _ => trivial
  | n + 1, closing, s, hs, hclosing => by
      unfold moreExpressions
      split
      · rename_i hk
        have ha := hs.account_advance_of_peek (by rw [hk]; decide)
        have hb := hs.advance.account_advance (by rw [current_advance, hk]; decide)
        refine (expression_within n _ _ hs.advance.advance).andThen (by omega)
          fun e s₁ hs₁ h₁ => ?_
        exact (moreExpressions_within n closing s₁ hs₁ hclosing).andThen (by omega)
          fun es s₂ hs₂ h₂ => ⟨hs₂, by omega⟩
      · exact within_expect hs hclosing (Nat.le_refl _) fun s₁ hs₁ _ h₁ => ⟨hs₁, by omega⟩

theorem pairs_within : ∀ n s, s.Ends → s.current.kind ≠ .eof →
    (pairs n s).Within (s.account + 1)
  | 0, _, _, _ => trivial
  | n + 1, s, hs, hk => by
      unfold pairs
      have ha := hs.account_advance hk
      split
      · exact ⟨hs.advance, by omega⟩
      · refine (expression_within n _ _ hs.advance).either fun key s₁ hs₁ h₁ => ?_
        refine within_expect hs₁ (by decide) (by omega) fun s₂ hs₂ hk₂ h₂ => ?_
        have hb := hs₂.account_advance (by rw [hk₂]; decide)
        refine (expression_within n _ _ hs₂.advance).either fun value s₃ hs₃ h₃ => ?_
        split
        · split
          · exact ⟨hs₃.advance, Nat.le_trans s₃.account_advance_le (by omega)⟩
          · refine within_expect hs₃ (by decide) (by omega) fun s₄ hs₄ hk₄ h₄ => ?_
            exact (pairs_within n s₄ hs₄ (by rw [hk₄]; decide)).andThen (by omega)
              fun rest s₅ hs₅ h₅ => ⟨hs₅, by omega⟩
        · exact ⟨hs₃, by omega⟩

end

/-! ## Whole texts -/

/-- Statements that are in no block stop at an end-of-file token. -/
theorem statements_stops : ∀ n s body s', statements n false s = .parsed body s' →
    s'.current.kind = .eof
  | 0, _, _, _, h => nomatch h
  | n + 1, s, body, s', h => by
      unfold statements at h
      split at h
      · rename_i hk
        cases h
        exact hk.resolve_right fun hblock => nomatch hblock.1
      · obtain ⟨first, s₁, h⟩ : ∃ first s₁, ((statements n false (ParseState.advance s₁)).andThen
            fun rest s₂ => Reply.parsed (Option.toList first ++ rest) s₂) = .parsed body s' := by
          rcases Reply.either_eq_parsed_iff.mp h with ⟨first, s₁, -, h⟩ | ⟨s₁, -, h⟩
          · exact ⟨some first, s₁, h⟩
          · exact ⟨none, s₁, h⟩
        obtain ⟨rest, s₂, hrest, hdone⟩ := Reply.andThen_eq_parsed_iff.mp h
        cases hdone
        exact statements_stops n s₁.advance rest s' hrest

/-- **Parsing comes to an end.** On every text the statement rules come to a program within their
allowance of steps. They stop when the end-of-file token alone is left, and have then found at
most one error for each token before it and one more. -/
theorem parse_reads_all (source : String) :
    ∃ ts eof body s, tokenize source = ts ++ [eof] ∧ eof.kind = .eof ∧
      (∀ t ∈ ts, t.kind ≠ .eof) ∧
      statements (stepsFor (tokenize source).length) false (.ofTokens (tokenize source)) =
        .parsed body s ∧
      s.tokens = [eof] ∧ parse source = ⟨⟨body⟩, s.errors⟩ ∧
      s.errors.length ≤ ts.length + 1 := by
  obtain ⟨ts, eof, hts, heof, -, hall⟩ := tokensFrom_eq_append .start source.toList
  have htokens : tokenize source = ts ++ [eof] := hts
  obtain ⟨body, s, hrun⟩ := statements_ofTokens ts heof
  have hends : (ofTokens (ts ++ [eof])).Ends := ends_ofTokens heof
  refine ⟨ts, eof, body, s, htokens, heof, fun t ht => (hall t ht).1, ?_, ?_, ?_, ?_⟩
  · rw [htokens]
    exact hrun
  · have hstop := statements_stops _ _ _ _ hrun
    obtain ⟨before, hbefore⟩ := ((statements_grows _ _ _).reach hrun).tokens
    rw [tokens_ofTokens (by simp)] at hbefore
    have hall := eq_of_append_cons_eof hbefore.symm hstop fun t ht => (hall t ht).1
    rw [← hall] at hbefore
    exact List.append_cancel_left hbefore
  · rw [parse, parseTokens, htokens, hrun]
  · have hwithin := statements_within (stepsFor (ts ++ [eof]).length) false _ hends
    rw [hrun] at hwithin
    have hstart : (ofTokens (ts ++ [eof])).account = ts.length := by
      cases ts <;> simp [account, ofTokens]
    have hle := hwithin.2
    rw [hstart] at hle
    exact Nat.le_trans (Nat.le_add_right _ _) hle

/-- Each of three parentheses pays for what is missing behind it, and the end of the file for the
operand. -/
example : (parse "(((").errors.length = 4 := by cbv

end MonkeyLang
