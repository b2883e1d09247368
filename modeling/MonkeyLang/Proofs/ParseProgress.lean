import MonkeyLang.Syntax.Parser

/-!
# Progress of the parser

What every rule of the parser does to the state it works on, whatever the
tokens are: it moves the window forward over the tokens, never back, and it
only adds errors. A rule that fails has added one (`Reply.Grows`). So an empty
error list at the end was empty all along, and no rule in between failed.
-/

namespace MonkeyLang

namespace ParseState

/-! ## Moving forward -/

/-- The tokens from the current one on. -/
def tokens (s : ParseState) : List Token := s.current :: s.upcoming

theorem tokens_advance {s : ParseState} (h : s.upcoming ≠ []) :
    s.advance.tokens = s.upcoming := by
  obtain ⟨cur, _ | ⟨t, ts⟩, errs⟩ := s
  · exact absurd rfl h
  · rfl

theorem length_advance (s : ParseState) :
    s.advance.upcoming.length = s.upcoming.length - 1 := by
  obtain ⟨cur, _ | ⟨t, ts⟩, errs⟩ := s <;> rfl

@[simp] theorem current_advance (s : ParseState) : s.advance.current = s.peek := by
  obtain ⟨cur, _ | ⟨t, ts⟩, errs⟩ := s <;> rfl

/-- `s'` is `s` after the window has moved forward and errors have been
added. -/
structure Reach (s s' : ParseState) : Prop where
  tokens : s'.tokens <:+ s.tokens
  errors : s.errors <+: s'.errors

theorem Reach.refl (s : ParseState) : Reach s s :=
  ⟨List.suffix_refl _, List.prefix_refl _⟩

theorem Reach.trans {s₁ s₂ s₃ : ParseState} (h : Reach s₁ s₂) (h' : Reach s₂ s₃) :
    Reach s₁ s₃ :=
  ⟨h'.tokens.trans h.tokens, h.errors.trans h'.errors⟩

/-- Errors do not go away: where there are none, there were none. -/
theorem Reach.errors_eq_nil {s s' : ParseState} (h : Reach s s')
    (he : s'.errors = []) : s.errors = [] :=
  List.prefix_nil.mp (he ▸ h.errors)

theorem Reach.errors_length {s s' : ParseState} (h : Reach s s') :
    s.errors.length ≤ s'.errors.length :=
  h.errors.length_le

theorem Reach.upcoming_length {s s' : ParseState} (h : Reach s s') :
    s'.upcoming.length ≤ s.upcoming.length := by
  have := h.tokens.length_le
  simpa [ParseState.tokens] using this

theorem reach_advance (s : ParseState) : Reach s s.advance := by
  obtain ⟨cur, _ | ⟨t, ts⟩, errs⟩ := s
  · exact Reach.refl _
  · exact ⟨List.suffix_cons _ _, List.prefix_refl _⟩

theorem reach_record (s : ParseState) (e : SyntaxError) : Reach s (s.record e) :=
  ⟨List.suffix_refl _, List.prefix_append _ _⟩

theorem reach_skipOptional (s : ParseState) (k : TokenKind) :
    Reach s (s.skipOptional k) := by
  unfold skipOptional
  split
  · exact reach_advance s
  · exact Reach.refl s

/-! ## The end-of-file token -/

/-- The last token is the end-of-file token. -/
def Ends (s : ParseState) : Prop :=
  ∃ t, s.tokens.getLast? = some t ∧ t.kind = .eof

theorem Reach.ends {s s' : ParseState} (h : Reach s s') (he : s.Ends) : s'.Ends := by
  obtain ⟨t, ht, hk⟩ := he
  obtain ⟨before, hb⟩ := h.tokens
  rw [← hb, List.getLast?_append] at ht
  exact ⟨t, by simpa [ParseState.tokens, List.getLast?_cons] using ht, hk⟩

/-- Something follows a token that is not the end-of-file token. -/
theorem Ends.upcoming_ne_nil {s : ParseState} (h : s.Ends) (hk : s.current.kind ≠ .eof) :
    s.upcoming ≠ [] := by
  obtain ⟨t, ht, hkt⟩ := h
  intro hnil
  rw [ParseState.tokens, hnil] at ht
  cases ht
  exact hk hkt

/-- A next token of another kind than end of file does follow. -/
theorem Ends.upcoming_ne_nil_of_peek {s : ParseState} (h : s.Ends)
    (hk : s.peek.kind ≠ .eof) : s.upcoming ≠ [] := by
  intro hnil
  refine h.upcoming_ne_nil ?_ hnil
  rwa [peek, hnil] at hk

end ParseState

open ParseState

/-! ## Replies that move forward -/

/-- The reply of a rule that started in `s`: it has moved forward, and if it
failed, there are more errors than before. -/
def Reply.Grows {α : Type} (s : ParseState) : Reply α → Prop
  | .parsed _ s' => Reach s s'
  | .failed s' => Reach s s' ∧ s.errors.length < s'.errors.length
  | .exhausted => True

section Grows

variable {α β : Type} {s s₁ : ParseState} {r : Reply α}

theorem Reply.Grows.of_reach (h : Reach s s₁) (hr : r.Grows s₁) : r.Grows s := by
  cases r with
  | parsed a s' => exact h.trans hr
  | failed s' => exact ⟨h.trans hr.1, Nat.lt_of_le_of_lt h.errors_length hr.2⟩
  | exhausted => trivial

theorem Reply.Grows.andThen {f : α → ParseState → Reply β} (h : Reach s s₁)
    (hr : r.Grows s₁) (hf : ∀ a s₂, Reach s₁ s₂ → (f a s₂).Grows s) :
    (r.andThen f).Grows s := by
  cases r with
  | parsed a s₂ => exact hf a s₂ hr
  | failed s₂ => exact of_reach h hr
  | exhausted => trivial

/-- What follows a rule whose failure is kept back has to know only that a
missing part has left an error. -/
theorem Reply.Grows.either {f : Option α → ParseState → Reply β} (h : Reach s s₁)
    (hr : r.Grows s₁)
    (hf : ∀ o s₂, Reach s₁ s₂ → (o = none → s.errors.length < s₂.errors.length) →
      (f o s₂).Grows s) : (r.either f).Grows s := by
  cases r with
  | parsed a s₂ => exact hf (some a) s₂ hr nofun
  | failed s₂ =>
      exact hf none s₂ hr.1 (fun _ => Nat.lt_of_le_of_lt h.errors_length hr.2)
  | exhausted => trivial

theorem Reply.Grows.mapState {g : ParseState → ParseState} (hg : ∀ s₂, Reach s₂ (g s₂))
    (hr : r.Grows s) : (r.mapState g).Grows s := by
  cases r with
  | parsed a s₂ => exact hr.trans (hg s₂)
  | failed s₂ =>
      exact ⟨hr.1.trans (hg s₂), Nat.lt_of_lt_of_le hr.2 (hg s₂).errors_length⟩
  | exhausted => trivial

theorem Reply.Grows.ofOption {o : Option α} (h : Reach s s₁)
    (ho : o = none → s.errors.length < s₁.errors.length) :
    (Reply.ofOption o s₁).Grows s := by
  cases o with
  | none => exact ⟨h, ho rfl⟩
  | some a => exact h

theorem expect_grows (s : ParseState) (k : TokenKind) : (s.expect k).Grows s := by
  unfold ParseState.expect
  split
  · exact reach_advance s
  · exact ⟨reach_record s _, by simp⟩

theorem failed_record_grows (s : ParseState) (e : SyntaxError) :
    (Reply.failed (s.record e) : Reply α).Grows s :=
  ⟨reach_record s e, by simp⟩

end Grows

/-! ## Every rule moves forward -/

theorem moreParameters_grows : ∀ n s, (moreParameters n s).Grows s
  | 0, _ => trivial
  | n + 1, s => by
      unfold moreParameters
      split
      · refine .andThen (reach_advance s) (expect_grows _ _) ?_
        intro t s₁ h₁
        have r₁ := (reach_advance s).trans h₁
        exact .andThen r₁ (moreParameters_grows n s₁) fun names s₂ h₂ => r₁.trans h₂
      · exact .andThen (.refl s) (expect_grows _ _) fun _ s₁ h₁ => h₁

theorem parameters_grows (n : Nat) (s : ParseState) : (parameters n s).Grows s := by
  unfold parameters
  split
  · exact reach_advance s
  · refine .andThen (.refl s) (expect_grows _ _) ?_
    intro t s₁ h₁
    exact .andThen h₁ (moreParameters_grows n s₁) fun names s₂ h₂ => h₁.trans h₂

mutual

theorem statement_grows : ∀ n s, (statement n s).Grows s
  | 0, _ => trivial
  | n + 1, s => by
      unfold statement
      split
      · refine .andThen (.refl s) (expect_grows _ _) ?_
        intro name s₁ h₁
        refine .andThen h₁ (expect_grows _ _) ?_
        intro _ s₂ h₂
        have r₂ := (h₁.trans h₂).trans (reach_advance s₂)
        refine .andThen r₂ ((expression_grows n _ _).mapState (reach_skipOptional · _)) ?_
        exact fun value s₃ h₃ => r₂.trans h₃
      · refine .andThen (reach_advance s)
          ((expression_grows n _ _).mapState (reach_skipOptional · _)) ?_
        exact fun value s₁ h₁ => (reach_advance s).trans h₁
      · refine .andThen (.refl s)
          ((expression_grows n _ _).mapState (reach_skipOptional · _)) ?_
        exact fun e s₁ h₁ => h₁

theorem statements_grows : ∀ n inBlock s, (statements n inBlock s).Grows s
  | 0, _, _ => trivial
  | n + 1, inBlock, s => by
      unfold statements
      split
      · exact Reach.refl s
      · refine .either (.refl s) (statement_grows n s) ?_
        intro first s₁ h₁ _
        have r₁ := h₁.trans (reach_advance s₁)
        exact .andThen r₁ (statements_grows n inBlock _) fun rest s₂ h₂ => r₁.trans h₂

theorem block_grows : ∀ n s, (block n s).Grows s
  | 0, _ => trivial
  | n + 1, s => by
      unfold block
      refine .andThen (reach_advance s) (statements_grows n true _) ?_
      intro body s₁ h₁
      have r₁ := (reach_advance s).trans h₁
      show Reach s _
      split
      · exact r₁.trans (reach_record s₁ _)
      · exact r₁

theorem expression_grows : ∀ n level s, (expression n level s).Grows s
  | 0, _, _ => trivial
  | n + 1, level, s => by
      unfold expression
      exact .andThen (.refl s) (operand_grows n s) fun left s₁ h₁ =>
        .of_reach h₁ (extend_grows n level left s₁)

theorem operand_grows : ∀ n s, (operand n s).Grows s
  | 0, _ => trivial
  | n + 1, s => by
      unfold operand
      split
      case h_1 | h_3 | h_4 | h_5 => exact Reach.refl s
      case h_2 =>
        split
        · exact Reach.refl s
        · exact failed_record_grows s _
      case h_6 | h_7 =>
        exact .andThen (reach_advance s) (expression_grows n _ _) fun right s₁ h₁ =>
          (reach_advance s).trans h₁
      case h_8 =>
        refine .either (reach_advance s) (expression_grows n _ _) ?_
        intro inner s₁ h₁ hi
        have r₁ := (reach_advance s).trans h₁
        refine .andThen r₁ (expect_grows s₁ _) ?_
        intro _ s₂ h₂
        exact .ofOption (r₁.trans h₂) fun hn => Nat.lt_of_lt_of_le (hi hn) h₂.errors_length
      case h_9 =>
        exact .andThen (.refl s) (expressions_grows n _ s) fun elements s₁ h₁ => h₁
      case h_10 =>
        exact .andThen (.refl s) (pairs_grows n s) fun entries s₁ h₁ => h₁
      case h_11 =>
        refine .andThen (.refl s) (expect_grows s _) ?_
        intro _ s₁ h₁
        have r₁ := h₁.trans (reach_advance s₁)
        refine .either r₁ (expression_grows n _ _) ?_
        intro condition s₂ h₂ hc
        refine .andThen (r₁.trans h₂) (expect_grows s₂ _) ?_
        intro _ s₃ h₃
        refine .andThen ((r₁.trans h₂).trans h₃) (expect_grows s₃ _) ?_
        intro _ s₄ h₄
        have r₄ := h₃.trans h₄
        refine .andThen ((r₁.trans h₂).trans r₄) (block_grows n s₄) ?_
        intro consequence s₅ h₅
        have r₅ := r₄.trans h₅
        refine .andThen ((r₁.trans h₂).trans r₅) (alternative_grows n s₅) ?_
        intro other s₆ h₆
        have r₆ := r₅.trans h₆
        exact .ofOption ((r₁.trans h₂).trans r₆) fun hn =>
          Nat.lt_of_lt_of_le (hc (Option.map_eq_none_iff.mp hn)) r₆.errors_length
      case h_12 =>
        refine .andThen (.refl s) (expect_grows s _) ?_
        intro _ s₁ h₁
        have r₁ := h₁.trans (reach_advance s₁)
        refine .either r₁ (expression_grows n _ _) ?_
        intro condition s₂ h₂ hc
        refine .andThen (r₁.trans h₂) (expect_grows s₂ _) ?_
        intro _ s₃ h₃
        refine .andThen ((r₁.trans h₂).trans h₃) (expect_grows s₃ _) ?_
        intro _ s₄ h₄
        have r₄ := h₃.trans h₄
        refine .andThen ((r₁.trans h₂).trans r₄) (block_grows n s₄) ?_
        intro body s₅ h₅
        have r₅ := r₄.trans h₅
        exact .ofOption ((r₁.trans h₂).trans r₅) fun hn =>
          Nat.lt_of_lt_of_le (hc (Option.map_eq_none_iff.mp hn)) r₅.errors_length
      case h_13 =>
        refine .andThen (.refl s) (expect_grows s _) ?_
        intro _ s₁ h₁
        refine .andThen h₁ (parameters_grows n s₁) ?_
        intro names s₂ h₂
        have r₂ := h₁.trans h₂
        refine .andThen r₂ (expect_grows s₂ _) ?_
        intro _ s₃ h₃
        have r₃ := r₂.trans h₃
        exact .andThen r₃ (block_grows n s₃) fun body s₄ h₄ => r₃.trans h₄
      case h_14 => exact failed_record_grows s _

theorem alternative_grows : ∀ n s, (alternative n s).Grows s
  | 0, _ => trivial
  | n + 1, s => by
      unfold alternative
      split
      · refine .andThen (reach_advance s) (expect_grows _ _) ?_
        intro _ s₁ h₁
        have r₁ := (reach_advance s).trans h₁
        exact .andThen r₁ (block_grows n s₁) fun b s₂ h₂ => r₁.trans h₂
      · exact Reach.refl s

theorem extend_grows : ∀ n level left s, (extend n level left s).Grows s
  | 0, _, _, _ => trivial
  | n + 1, level, left, s => by
      unfold extend
      split
      · refine .andThen (reach_advance s) (continuation_grows n left _) ?_
        intro left s₁ h₁
        exact .of_reach ((reach_advance s).trans h₁) (extend_grows n level left s₁)
      · exact Reach.refl s

theorem continuation_grows : ∀ n left s, (continuation n left s).Grows s
  | 0, _, _ => trivial
  | n + 1, left, s => by
      unfold continuation
      split
      · exact .andThen (.refl s) (expressions_grows n _ s) fun arguments s₁ h₁ => h₁
      · refine .either (reach_advance s) (expression_grows n _ _) ?_
        intro index s₁ h₁ hi
        have r₁ := (reach_advance s).trans h₁
        refine .andThen r₁ (expect_grows s₁ _) ?_
        intro _ s₂ h₂
        exact .ofOption (r₁.trans h₂) fun hn =>
          Nat.lt_of_lt_of_le (hi (Option.map_eq_none_iff.mp hn)) h₂.errors_length
      · exact .andThen (reach_advance s) (expression_grows n _ _) fun right s₁ h₁ =>
          (reach_advance s).trans h₁

theorem expressions_grows : ∀ n closing s, (expressions n closing s).Grows s
  | 0, _, _ => trivial
  | n + 1, closing, s => by
      unfold expressions
      split
      · exact reach_advance s
      · refine .andThen (reach_advance s) (expression_grows n _ _) ?_
        intro e s₁ h₁
        have r₁ := (reach_advance s).trans h₁
        exact .andThen r₁ (moreExpressions_grows n closing s₁) fun es s₂ h₂ => r₁.trans h₂

theorem moreExpressions_grows : ∀ n closing s, (moreExpressions n closing s).Grows s
  | 0, _, _ => trivial
  | n + 1, closing, s => by
      unfold moreExpressions
      split
      · have r₀ := (reach_advance s).trans (reach_advance s.advance)
        refine .andThen r₀ (expression_grows n _ _) ?_
        intro e s₁ h₁
        have r₁ := r₀.trans h₁
        exact .andThen r₁ (moreExpressions_grows n closing s₁) fun es s₂ h₂ => r₁.trans h₂
      · exact .andThen (.refl s) (expect_grows s _) fun _ s₁ h₁ => h₁

theorem pairs_grows : ∀ n s, (pairs n s).Grows s
  | 0, _ => trivial
  | n + 1, s => by
      unfold pairs
      split
      · exact reach_advance s
      · refine .either (reach_advance s) (expression_grows n _ _) ?_
        intro key s₁ h₁ hk
        have r₁ := (reach_advance s).trans h₁
        refine .andThen r₁ (expect_grows s₁ _) ?_
        intro _ s₂ h₂
        have r₂ := h₂.trans (reach_advance s₂)
        refine .either (r₁.trans r₂) (expression_grows n _ _) ?_
        intro value s₃ h₃ hv
        have r₃ := r₂.trans h₃
        split
        · split
          · exact (r₁.trans r₃).trans (reach_advance s₃)
          · refine .andThen (r₁.trans r₃) (expect_grows s₃ _) ?_
            intro _ s₄ h₄
            have r₄ := (r₁.trans r₃).trans h₄
            exact .andThen r₄ (pairs_grows n s₄) fun rest s₅ h₅ => r₄.trans h₅
        · rename_i hnone
          refine ⟨r₁.trans r₃, ?_⟩
          cases key with
          | none => exact Nat.lt_of_lt_of_le (hk rfl) r₃.errors_length
          | some k =>
              cases value with
              | none => exact hv rfl
              | some v => exact absurd rfl (hnone k v rfl)

end

end MonkeyLang
