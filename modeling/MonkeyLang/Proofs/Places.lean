import MonkeyLang.Proofs.Marks
import MonkeyLang.Syntax.Parser

/-!
# Places play no role in parsing

The parser copies the places of its tokens into the marks of the tree and looks
at nothing but kinds and texts. So it commutes with forgetting the places: every
rule, run on tokens without places, gives what it gave with the places left out
(`Reply.under`), the same errors included.
-/

namespace MonkeyLang

open ParseState

/-! ## States and replies -/

/-- A token without its place. -/
def Token.placeless (t : Token) : Token := ⟨t.kind, t.text, .start⟩

namespace ParseState

/-- A parse state without places. -/
def placeless (s : ParseState) : ParseState :=
  ⟨s.current.placeless, s.upcoming.map Token.placeless, s.errors⟩

theorem peek_placeless (s : ParseState) : s.placeless.peek = s.peek.placeless := by
  obtain ⟨t, ts, errors⟩ := s
  cases ts <;> rfl

theorem advance_placeless (s : ParseState) : s.placeless.advance = s.advance.placeless := by
  obtain ⟨t, ts, errors⟩ := s
  cases ts <;> rfl

theorem skipOptional_placeless (s : ParseState) (k : TokenKind) :
    s.placeless.skipOptional k = (s.skipOptional k).placeless := by
  unfold skipOptional
  rw [peek_placeless, advance_placeless]
  exact (apply_ite ParseState.placeless _ _ _).symm

theorem kind_placeless (s : ParseState) : s.placeless.current.kind = s.current.kind := rfl

theorem ofTokens_placeless (ts : List Token) :
    ofTokens (ts.map Token.placeless) = (ofTokens ts).placeless := by
  cases ts <;> rfl

end ParseState

/-- A reply without places, where `f` forgets those of the answer. -/
def Reply.under {α : Type} (f : α → α) : Reply α → Reply α
  | .parsed a s => .parsed (f a) s.placeless
  | .failed s => .failed s.placeless
  | .exhausted => .exhausted

section Under

variable {α β : Type} {f : α → α} {g : β → β} {r r' : Reply α}

theorem Reply.under_andThen {k k' : α → ParseState → Reply β} (h : r' = r.under f)
    (hk : ∀ a s, k' (f a) s.placeless = (k a s).under g) :
    r'.andThen k' = (r.andThen k).under g := by
  subst h
  cases r with
  | parsed a s => exact hk a s
  | failed s => rfl
  | exhausted => rfl

theorem Reply.under_either {k k' : Option α → ParseState → Reply β} (h : r' = r.under f)
    (hk : ∀ o s, k' (o.map f) s.placeless = (k o s).under g) :
    r'.either k' = (r.either k).under g := by
  subst h
  cases r with
  | parsed a s => exact hk (some a) s
  | failed s => exact hk none s
  | exhausted => rfl

theorem Reply.under_ite {c c' : Prop} [Decidable c] [Decidable c'] {q q' : Reply α}
    (hc : c' ↔ c) (h : r' = r.under f) (hq : q' = q.under f) :
    (if c' then r' else q') = (if c then r else q).under f := by
  by_cases hp : c
  · rw [if_pos hp, if_pos (hc.mpr hp), h]
  · rw [if_neg hp, if_neg (mt hc.mp hp), hq]

theorem Reply.under_skip (k : TokenKind) (h : r' = r.under f) :
    r'.mapState (·.skipOptional k) = (r.mapState (·.skipOptional k)).under f := by
  subst h
  cases r with
  | parsed a s => exact congrArg (Reply.parsed (f a)) (skipOptional_placeless s k)
  | failed s => exact congrArg Reply.failed (skipOptional_placeless s k)
  | exhausted => rfl

theorem Reply.under_ofOption (o : Option α) (s : ParseState) :
    Reply.ofOption (o.map f) s.placeless = (Reply.ofOption o s).under f := by
  cases o <;> rfl

theorem expect_placeless (s : ParseState) (k : TokenKind) :
    s.placeless.expect k = (s.expect k).under Token.placeless := by
  unfold ParseState.expect
  rw [peek_placeless, advance_placeless]
  exact Reply.under_ite .rfl rfl rfl

end Under

/-! ## Rules -/

theorem moreParameters_placeless (n : Nat) (s : ParseState) : moreParameters n s.placeless =
    (moreParameters n s).under (List.map (Name.map .placeless)) := by
  induction n generalizing s with
  | zero => rfl
  | succ n ih =>
      unfold moreParameters
      rw [peek_placeless, advance_placeless]
      refine Reply.under_ite .rfl ?_ ?_
      · refine Reply.under_andThen (expect_placeless _ _) ?_
        intro t s₁
        exact Reply.under_andThen (ih s₁) fun names s₂ => rfl
      · exact Reply.under_andThen (expect_placeless _ _) fun _ _ => rfl

theorem parameters_placeless (n : Nat) (s : ParseState) : parameters n s.placeless =
    (parameters n s).under (List.map (Name.map .placeless)) := by
  unfold parameters
  rw [peek_placeless, advance_placeless]
  refine Reply.under_ite .rfl rfl ?_
  refine Reply.under_andThen (expect_placeless _ _) ?_
  intro t s₁
  exact Reply.under_andThen (moreParameters_placeless n s₁) fun names s₂ => rfl

mutual

theorem statement_placeless : ∀ n s,
    statement n s.placeless = (statement n s).under (Stmt.map .placeless id)
  | 0, _ => rfl
  | n + 1, s => by
      have hexpr := expression_placeless n lowestLevel
      unfold statement
      rw [kind_placeless]
      cases s.current.kind
      case kwLet =>
        refine Reply.under_andThen (expect_placeless s _) ?_
        intro name s₁
        refine Reply.under_andThen (expect_placeless s₁ _) ?_
        intro _ s₂
        rw [advance_placeless]
        exact Reply.under_andThen (Reply.under_skip _ (hexpr s₂.advance)) fun _ _ => rfl
      case kwReturn =>
        rw [advance_placeless]
        exact Reply.under_andThen (Reply.under_skip _ (hexpr s.advance)) fun _ _ => rfl
      all_goals exact Reply.under_andThen (Reply.under_skip _ (hexpr s)) fun _ _ => rfl

theorem statements_placeless : ∀ n inBlock s, statements n inBlock s.placeless =
    (statements n inBlock s).under (mapStmts .placeless id)
  | 0, _, _ => rfl
  | n + 1, inBlock, s => by
      unfold statements
      refine Reply.under_ite .rfl rfl ?_
      refine Reply.under_either (statement_placeless n s) ?_
      intro first s₁
      rw [advance_placeless]
      refine Reply.under_andThen (statements_placeless n inBlock s₁.advance) ?_
      intro rest s₂
      cases first <;> rfl

theorem block_placeless : ∀ n s,
    block n s.placeless = (block n s).under (Block.map .placeless id)
  | 0, _ => rfl
  | n + 1, s => by
      unfold block
      rw [advance_placeless]
      refine Reply.under_andThen (statements_placeless n true s.advance) ?_
      intro body s₁
      refine congrArg (Reply.parsed _) ?_
      rw [kind_placeless, apply_ite ParseState.placeless]
      rfl

theorem expression_placeless : ∀ n level s,
    expression n level s.placeless = (expression n level s).under (Expr.map .placeless id)
  | 0, _, _ => rfl
  | n + 1, level, s => by
      unfold expression
      exact Reply.under_andThen (operand_placeless n s) fun left s₁ =>
        extend_placeless n level left s₁

theorem operand_placeless : ∀ n s,
    operand n s.placeless = (operand n s).under (Expr.map .placeless id)
  | 0, _ => rfl
  | n + 1, s => by
      have hexpr := expression_placeless n
      have hblock := block_placeless n
      unfold operand
      rw [kind_placeless, advance_placeless]
      cases s.current.kind
      case int =>
        show (match literalValue? s.current.text.toList with | some value => _ | none => _) = _
        cases literalValue? s.current.text.toList <;> rfl
      case bang | minus => exact Reply.under_andThen (hexpr _ _) fun _ _ => rfl
      case lparen =>
        refine Reply.under_either (hexpr _ _) ?_
        intro inner s₁
        refine Reply.under_andThen (expect_placeless s₁ _) ?_
        intro _ s₂
        exact Reply.under_ofOption inner s₂
      case lbracket =>
        exact Reply.under_andThen (expressions_placeless n .rbracket s) fun _ _ => rfl
      case lbrace => exact Reply.under_andThen (pairs_placeless n s) fun _ _ => rfl
      case kwIf =>
        refine Reply.under_andThen (expect_placeless s _) ?_
        intro _ s₁
        rw [advance_placeless]
        refine Reply.under_either (hexpr _ _) ?_
        intro condition s₂
        refine Reply.under_andThen (expect_placeless s₂ _) ?_
        intro _ s₃
        refine Reply.under_andThen (expect_placeless s₃ _) ?_
        intro _ s₄
        refine Reply.under_andThen (hblock s₄) ?_
        intro consequence s₅
        refine Reply.under_andThen (alternative_placeless n s₅) ?_
        intro other s₆
        cases condition <;> rfl
      case kwWhile =>
        refine Reply.under_andThen (expect_placeless s _) ?_
        intro _ s₁
        rw [advance_placeless]
        refine Reply.under_either (hexpr _ _) ?_
        intro condition s₂
        refine Reply.under_andThen (expect_placeless s₂ _) ?_
        intro _ s₃
        refine Reply.under_andThen (expect_placeless s₃ _) ?_
        intro _ s₄
        refine Reply.under_andThen (hblock s₄) ?_
        intro body s₅
        cases condition <;> rfl
      case kwFn =>
        refine Reply.under_andThen (expect_placeless s _) ?_
        intro _ s₁
        refine Reply.under_andThen (parameters_placeless n s₁) ?_
        intro names s₂
        refine Reply.under_andThen (expect_placeless s₂ _) ?_
        intro _ s₃
        exact Reply.under_andThen (hblock s₃) fun body s₄ => rfl
      all_goals rfl

theorem alternative_placeless : ∀ n s,
    alternative n s.placeless = (alternative n s).under (mapElse .placeless id)
  | 0, _ => rfl
  | n + 1, s => by
      unfold alternative
      rw [peek_placeless, advance_placeless]
      refine Reply.under_ite .rfl ?_ rfl
      refine Reply.under_andThen (expect_placeless _ _) ?_
      intro _ s₁
      exact Reply.under_andThen (block_placeless n s₁) fun _ _ => rfl

theorem extend_placeless : ∀ n level left s, extend n level (left.map .placeless id) s.placeless =
    (extend n level left s).under (Expr.map .placeless id)
  | 0, _, _, _ => rfl
  | n + 1, level, left, s => by
      unfold extend
      rw [peek_placeless, advance_placeless]
      refine Reply.under_ite .rfl ?_ rfl
      exact Reply.under_andThen (continuation_placeless n left s.advance) fun left s₁ =>
        extend_placeless n level left s₁

theorem continuation_placeless : ∀ n left s,
    continuation n (left.map .placeless id) s.placeless =
      (continuation n left s).under (Expr.map .placeless id)
  | 0, _, _ => rfl
  | n + 1, left, s => by
      have hexpr := expression_placeless n
      unfold continuation
      rw [kind_placeless, advance_placeless]
      cases s.current.kind
      case lparen => exact Reply.under_andThen (expressions_placeless n .rparen s) fun _ _ => rfl
      case lbracket =>
        refine Reply.under_either (hexpr _ _) ?_
        intro index s₁
        refine Reply.under_andThen (expect_placeless s₁ _) ?_
        intro _ s₂
        cases index <;> rfl
      all_goals exact Reply.under_andThen (hexpr _ _) fun _ _ => rfl

theorem expressions_placeless : ∀ n closing s, expressions n closing s.placeless =
    (expressions n closing s).under (mapAll .placeless id)
  | 0, _, _ => rfl
  | n + 1, closing, s => by
      unfold expressions
      rw [peek_placeless, advance_placeless]
      refine Reply.under_ite .rfl rfl ?_
      refine Reply.under_andThen (expression_placeless n _ _) ?_
      intro e s₁
      exact Reply.under_andThen (moreExpressions_placeless n closing s₁) fun _ _ => rfl

theorem moreExpressions_placeless : ∀ n closing s, moreExpressions n closing s.placeless =
    (moreExpressions n closing s).under (mapAll .placeless id)
  | 0, _, _ => rfl
  | n + 1, closing, s => by
      unfold moreExpressions
      rw [peek_placeless, advance_placeless, advance_placeless]
      refine Reply.under_ite .rfl ?_ ?_
      · refine Reply.under_andThen (expression_placeless n _ _) ?_
        intro e s₁
        exact Reply.under_andThen (moreExpressions_placeless n closing s₁) fun _ _ => rfl
      · exact Reply.under_andThen (expect_placeless s _) fun _ _ => rfl

theorem pairs_placeless : ∀ n s,
    pairs n s.placeless = (pairs n s).under (mapPairs .placeless id)
  | 0, _ => rfl
  | n + 1, s => by
      have hexpr := expression_placeless n
      unfold pairs
      rw [peek_placeless, advance_placeless]
      refine Reply.under_ite .rfl rfl ?_
      refine Reply.under_either (hexpr _ _) ?_
      intro key s₁
      refine Reply.under_andThen (expect_placeless s₁ _) ?_
      intro _ s₂
      rw [advance_placeless]
      refine Reply.under_either (hexpr _ _) ?_
      intro value s₃
      rw [peek_placeless, advance_placeless]
      cases key with
      | none => rfl
      | some key =>
          cases value with
          | none => rfl
          | some value =>
              refine Reply.under_ite .rfl rfl ?_
              refine Reply.under_andThen (expect_placeless s₃ _) ?_
              intro _ s₄
              exact Reply.under_andThen (pairs_placeless n s₄) fun _ _ => rfl

end

/-! ## Whole texts -/

/-- Without the places of the tokens the program is the same without places,
and so are the errors. -/
theorem parseTokens_placeless (ts : List Token) :
    parseTokens (ts.map Token.placeless) =
      ⟨(parseTokens ts).program.placeless, (parseTokens ts).errors⟩ := by
  unfold parseTokens
  rw [ofTokens_placeless, List.length_map, statements_placeless]
  cases statements (stepsFor ts.length) false (ofTokens ts) <;> rfl

/-- Token sequences that differ in places only give programs that differ in
places only, and the same errors. -/
theorem parseTokens_congr {ts us : List Token}
    (h : ts.map Token.placeless = us.map Token.placeless) :
    (parseTokens ts).program.placeless = (parseTokens us).program.placeless ∧
      (parseTokens ts).errors = (parseTokens us).errors := by
  have hp := parseTokens_placeless ts
  rw [h, parseTokens_placeless us] at hp
  exact ⟨(congrArg Parsed.program hp).symm, (congrArg Parsed.errors hp).symm⟩

end MonkeyLang
