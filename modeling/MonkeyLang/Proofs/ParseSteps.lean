import MonkeyLang.Proofs.ParseComplete

/-!
# More steps for the parser

More steps never change a reply of the parser: a rule either uses up its steps or replies the same
with every larger allowance (`statements_upto`). So the rest of a text is parsed in the same way
whether it is a text of its own or stands behind other statements, which use up steps before it.
-/

namespace MonkeyLang

open ParseState

/-! ## Combining -/

section Combine

variable {α β : Type} {r r' : Reply α}

theorem Reply.Upto.andThen_congr {f g : α → ParseState → Reply β} (h : r.Upto r')
    (hf : ∀ a s, (f a s).Upto (g a s)) : (r.andThen f).Upto (r'.andThen g) := by
  rcases h with rfl | rfl
  · exact .inl rfl
  · cases r with
    | parsed a s => exact hf a s
    | failed s => exact .refl _
    | exhausted => exact .refl _

theorem Reply.Upto.either_congr {f g : Option α → ParseState → Reply β} (h : r.Upto r')
    (hf : ∀ o s, (f o s).Upto (g o s)) : (r.either f).Upto (r'.either g) := by
  rcases h with rfl | rfl
  · exact .inl rfl
  · cases r with
    | parsed a s => exact hf (some a) s
    | failed s => exact hf none s
    | exhausted => exact .refl _

theorem Reply.Upto.mapState_congr (h : r.Upto r') (g : ParseState → ParseState) :
    (r.mapState g).Upto (r'.mapState g) := by
  rcases h with rfl | rfl
  · exact .inl rfl
  · exact .refl _

theorem Reply.Upto.ite {c : Prop} [Decidable c] {q q' : Reply α} (h : r.Upto r')
    (hq : q.Upto q') : (if c then r else q).Upto (if c then r' else q') := by
  split
  · exact h
  · exact hq

/-- With any larger allowance than one more step. -/
theorem Reply.Upto.of_le {r : Nat → Reply α} (h : ∀ n, (r n).Upto (r (n + 1))) {n k : Nat}
    (hnk : n ≤ k) : (r n).Upto (r k) := by
  induction hnk with
  | refl => exact .refl _
  | step _ ih => exact ih.trans (h _)

end Combine

/-! ## Every rule -/

theorem moreParameters_upto (n : Nat) (s : ParseState) :
    (moreParameters n s).Upto (moreParameters (n + 1) s) := by
  induction n generalizing s with
  | zero => exact .inl rfl
  | succ n ih =>
      unfold moreParameters
      refine .ite ?_ (.refl _)
      refine .andThen_congr (.refl _) fun _ s₁ => ?_
      exact .andThen_congr (ih s₁) fun _ _ => .refl _

theorem parameters_upto (n : Nat) (s : ParseState) :
    (parameters n s).Upto (parameters (n + 1) s) := by
  unfold parameters
  refine .ite (.refl _) ?_
  refine .andThen_congr (.refl _) fun _ s₁ => ?_
  exact .andThen_congr (moreParameters_upto n s₁) fun _ _ => .refl _

mutual

theorem statement_upto : ∀ n s, (statement n s).Upto (statement (n + 1) s)
  | 0, _ => .inl rfl
  | n + 1, s => by
      have hexpr := expression_upto n lowestLevel
      unfold statement
      cases s.current.kind
      case kwLet =>
        refine .andThen_congr (.refl _) fun _ s₁ => ?_
        refine .andThen_congr (.refl _) fun _ s₂ => ?_
        exact .andThen_congr ((hexpr s₂.advance).mapState_congr _) fun _ _ => .refl _
      case kwReturn =>
        exact .andThen_congr ((hexpr s.advance).mapState_congr _) fun _ _ => .refl _
      all_goals exact .andThen_congr ((hexpr s).mapState_congr _) fun _ _ => .refl _

theorem statements_upto : ∀ n inBlock s,
    (statements n inBlock s).Upto (statements (n + 1) inBlock s)
  | 0, _, _ => .inl rfl
  | n + 1, inBlock, s => by
      unfold statements
      refine .ite (.refl _) ?_
      refine .either_congr (statement_upto n s) fun _ s₁ => ?_
      exact .andThen_congr (statements_upto n inBlock s₁.advance) fun _ _ => .refl _

theorem block_upto : ∀ n s, (block n s).Upto (block (n + 1) s)
  | 0, _ => .inl rfl
  | n + 1, s => by
      unfold block
      exact .andThen_congr (statements_upto n true s.advance) fun _ _ => .refl _

theorem expression_upto : ∀ n level s, (expression n level s).Upto (expression (n + 1) level s)
  | 0, _, _ => .inl rfl
  | n + 1, level, s => by
      unfold expression
      exact .andThen_congr (operand_upto n s) fun left s₁ => extend_upto n level left s₁

theorem operand_upto : ∀ n s, (operand n s).Upto (operand (n + 1) s)
  | 0, _ => .inl rfl
  | n + 1, s => by
      have hexpr := expression_upto n
      have hblock := block_upto n
      unfold operand
      cases s.current.kind
      case bang | minus => exact .andThen_congr (hexpr _ _) fun _ _ => .refl _
      case lparen => exact .either_congr (hexpr _ _) fun _ _ => .refl _
      case lbracket => exact .andThen_congr (expressions_upto n _ s) fun _ _ => .refl _
      case lbrace => exact .andThen_congr (pairs_upto n s) fun _ _ => .refl _
      case kwIf =>
        refine .andThen_congr (.refl _) fun _ s₁ => ?_
        refine .either_congr (hexpr _ _) fun _ s₂ => ?_
        refine .andThen_congr (.refl _) fun _ s₃ => ?_
        refine .andThen_congr (.refl _) fun _ s₄ => ?_
        refine .andThen_congr (hblock s₄) fun _ s₅ => ?_
        exact .andThen_congr (alternative_upto n s₅) fun _ _ => .refl _
      case kwWhile =>
        refine .andThen_congr (.refl _) fun _ s₁ => ?_
        refine .either_congr (hexpr _ _) fun _ s₂ => ?_
        refine .andThen_congr (.refl _) fun _ s₃ => ?_
        refine .andThen_congr (.refl _) fun _ s₄ => ?_
        exact .andThen_congr (hblock s₄) fun _ _ => .refl _
      case kwFn =>
        refine .andThen_congr (.refl _) fun _ s₁ => ?_
        refine .andThen_congr (parameters_upto n s₁) fun _ s₂ => ?_
        refine .andThen_congr (.refl _) fun _ s₃ => ?_
        exact .andThen_congr (hblock s₃) fun _ _ => .refl _
      all_goals exact .refl _

theorem alternative_upto : ∀ n s, (alternative n s).Upto (alternative (n + 1) s)
  | 0, _ => .inl rfl
  | n + 1, s => by
      unfold alternative
      refine .ite ?_ (.refl _)
      refine .andThen_congr (.refl _) fun _ s₁ => ?_
      exact .andThen_congr (block_upto n s₁) fun _ _ => .refl _

theorem extend_upto : ∀ n level left s,
    (extend n level left s).Upto (extend (n + 1) level left s)
  | 0, _, _, _ => .inl rfl
  | n + 1, level, left, s => by
      unfold extend
      refine .ite ?_ (.refl _)
      exact .andThen_congr (continuation_upto n left s.advance) fun left s₁ =>
        extend_upto n level left s₁

theorem continuation_upto : ∀ n left s, (continuation n left s).Upto (continuation (n + 1) left s)
  | 0, _, _ => .inl rfl
  | n + 1, left, s => by
      have hexpr := expression_upto n
      unfold continuation
      cases s.current.kind
      case lparen => exact .andThen_congr (expressions_upto n _ s) fun _ _ => .refl _
      case lbracket => exact .either_congr (hexpr _ _) fun _ _ => .refl _
      all_goals exact .andThen_congr (hexpr _ _) fun _ _ => .refl _

theorem expressions_upto : ∀ n closing s,
    (expressions n closing s).Upto (expressions (n + 1) closing s)
  | 0, _, _ => .inl rfl
  | n + 1, closing, s => by
      unfold expressions
      refine .ite (.refl _) ?_
      refine .andThen_congr (expression_upto n _ _) fun _ s₁ => ?_
      exact .andThen_congr (moreExpressions_upto n closing s₁) fun _ _ => .refl _

theorem moreExpressions_upto : ∀ n closing s,
    (moreExpressions n closing s).Upto (moreExpressions (n + 1) closing s)
  | 0, _, _ => .inl rfl
  | n + 1, closing, s => by
      unfold moreExpressions
      refine .ite ?_ (.refl _)
      refine .andThen_congr (expression_upto n _ _) fun _ s₁ => ?_
      exact .andThen_congr (moreExpressions_upto n closing s₁) fun _ _ => .refl _

theorem pairs_upto : ∀ n s, (pairs n s).Upto (pairs (n + 1) s)
  | 0, _ => .inl rfl
  | n + 1, s => by
      have hexpr := expression_upto n lowestLevel
      unfold pairs
      refine .ite (.refl _) ?_
      refine .either_congr (hexpr _) fun key s₁ => ?_
      refine .andThen_congr (.refl _) fun _ s₂ => ?_
      refine .either_congr (hexpr _) fun value s₃ => ?_
      cases key with
      | none => exact .refl _
      | some key =>
          cases value with
          | none => exact .refl _
          | some value =>
              refine .ite (.refl _) ?_
              refine .andThen_congr (.refl _) fun _ s₄ => ?_
              exact .andThen_congr (pairs_upto n s₄) fun _ _ => .refl _

end

end MonkeyLang
