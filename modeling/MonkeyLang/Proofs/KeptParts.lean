import MonkeyLang.Proofs.ParseAllowance
import MonkeyLang.Proofs.ParserCalls

/-!
# What the rules keep

A tree that the parser gives holds what the calls that led to it have parsed, and it is given
although errors have been found only where a block has taken them in. `Script.Keeps` says this of
one rule by itself, in terms of the replies of the rules that it calls, and it holds of every rule
(`RuleCall.keeps`).
-/

namespace MonkeyLang

open ParseState

/-! ## Parts -/

mutual

/-- The statements in an expression, at every depth. A block counts as a statement. -/
def Expr.parts : Expr → List Stmt
  | .identifier .. | .integer .. | .string .. | .boolean .. | .unknown .. => []
  | .prefixOp _ _ right => right.parts
  | .infixOp _ left _ right => left.parts ++ right.parts
  | .conditional _ condition consequence alternative =>
    condition.parts ++ consequence.parts ++ elseParts alternative
  | .loop _ condition body => condition.parts ++ body.parts
  | .function _ _ body => body.parts
  | .call _ function arguments => function.parts ++ allParts arguments
  | .array _ elements => allParts elements
  | .index _ left index => left.parts ++ index.parts
  | .hash _ pairs => pairsParts pairs
  | .statement s => s.parts

def elseParts : Option Block → List Stmt
  | none => []
  | some block => block.parts

def allParts : List Expr → List Stmt
  | [] => []
  | e :: es => e.parts ++ allParts es

def pairsParts : List (Expr × Expr) → List Stmt
  | [] => []
  | (key, value) :: pairs => key.parts ++ value.parts ++ pairsParts pairs

/-- A block and the statements in it, at every depth. -/
def Block.parts : Block → List Stmt
  | .mk mark statements => .block (.mk mark statements) :: stmtsParts statements
  | .program statements => .block (.program statements) :: stmtsParts statements

/-- A statement and the statements in it, at every depth. -/
def Stmt.parts : Stmt → List Stmt
  | .binding mark name value => .binding mark name value :: value.parts
  | .leave mark value => .leave mark value :: value.parts
  | .expression mark e => .expression mark e :: e.parts
  | .block block => block.parts
  | .bare e => .bare e :: e.parts
  | .unknown mark kind => [.unknown mark kind]

def stmtsParts : List Stmt → List Stmt
  | [] => []
  | s :: ss => s.parts ++ stmtsParts ss

end

def Program.parts (p : Program) : List Stmt := stmtsParts p.statements

theorem Stmt.mem_parts (s : Stmt) : s ∈ s.parts := by
  rcases s with - | - | - | (- | -) | - | - <;> simp [Stmt.parts, Block.parts]

theorem Block.mem_parts (b : Block) : .block b ∈ b.parts := by
  cases b <;> simp [Block.parts]

theorem stmtsParts_append (ss ts : List Stmt) :
    stmtsParts (ss ++ ts) = stmtsParts ss ++ stmtsParts ts := by
  induction ss with
  | nil => rfl
  | cons s ss ih => rw [List.cons_append, stmtsParts, stmtsParts, ih, List.append_assoc]

/-- The statements in what a rule has parsed. -/
def Rule.parts : (rule : Rule) → rule.Answer → List Stmt
  | .statement, s => s.parts
  | .statements _, ss => stmtsParts ss
  | .block, b => b.parts
  | .expression _, e | .operand, e | .extend _ _, e | .continuation _, e => e.parts
  | .alternative, b => elseParts b
  | .expressions _, es | .moreExpressions _, es => allParts es
  | .pairs, entries => pairsParts entries
  | .parameters, _ | .moreParameters, _ => []

/-! ## What a continuation keeps -/

theorem continuation_parts {n : Nat} {left e : Expr} {s s' : ParseState}
    (h : continuation n left s = .parsed e s') : left.parts ⊆ e.parts := by
  cases n with
  | zero => exact absurd h.symm Reply.parsed_ne_exhausted
  | succ n =>
      unfold continuation at h
      split at h
      · obtain ⟨es, s₁, -, he⟩ := Reply.andThen_eq_parsed_iff.mp h
        cases he
        simp [Expr.parts]
      · obtain ⟨i, s₁, -, hi⟩ | ⟨s₁, -, hi⟩ := Reply.either_eq_parsed_iff.mp h
        · obtain ⟨t, s₂, -, he⟩ := Reply.andThen_eq_parsed_iff.mp hi
          cases he
          simp [Expr.parts]
        · obtain ⟨t, s₂, -, he⟩ := Reply.andThen_eq_parsed_iff.mp hi
          cases he
      · obtain ⟨right, s₁, -, he⟩ := Reply.andThen_eq_parsed_iff.mp h
        cases he
        simp [Expr.parts]

theorem extend_parts : ∀ {n level : Nat} {left e : Expr} {s s' : ParseState},
    extend n level left s = .parsed e s' → left.parts ⊆ e.parts
  | 0, _, _, _, _, _, h => absurd h.symm Reply.parsed_ne_exhausted
  | n + 1, level, left, e, s, s', h => by
      unfold extend at h
      split at h
      · obtain ⟨e₁, s₁, h₁, h₂⟩ := Reply.andThen_eq_parsed_iff.mp h
        exact List.Subset.trans (continuation_parts h₁) (extend_parts h₂)
      · cases h
        exact List.Subset.refl _

/-! ## Scripts that keep what they find -/

/-- The window may have moved on; the errors are the same. -/
structure ParseState.Moves (s s' : ParseState) : Prop where
  tokens : s'.tokens <:+ s.tokens
  errors : s'.errors = s.errors

theorem ParseState.Moves.refl (s : ParseState) : Moves s s := ⟨List.suffix_refl _, rfl⟩

theorem ParseState.Moves.trans {s₁ s₂ s₃ : ParseState} (h : Moves s₁ s₂) (h' : Moves s₂ s₃) :
    Moves s₁ s₃ :=
  ⟨h'.tokens.trans h.tokens, h'.errors.trans h.errors⟩

theorem ParseState.Moves.reach {s s' : ParseState} (h : Moves s s') : Reach s s' :=
  ⟨h.tokens, h.errors ▸ List.prefix_refl _⟩

theorem moves_advance (s : ParseState) : Moves s s.advance :=
  ⟨(reach_advance s).tokens, errors_advance s⟩

theorem moves_skipOptional (s : ParseState) (k : TokenKind) : Moves s (s.skipOptional k) := by
  unfold skipOptional
  split
  · exact moves_advance s
  · exact .refl s

/-- The rules that go on where a statement has failed. -/
def Rule.absorbs : Rule → Bool
  | .statements _ | .block => true
  | _ => false

/-- A call has fewer steps than the one that makes it; the parameters of a function are read by a
rule that spends none of its own. -/
def RuleCall.size : RuleCall → Nat
  | ⟨.parameters, n, _⟩ => 2 * n + 1
  | ⟨_, n, _⟩ => 2 * n

/-- A call that another one may make. -/
structure RuleCall.Below (d c : RuleCall) : Prop where
  size : d.size < c.size
  sequence : c.rule.absorbs = false → ∀ inBlock, d.rule ≠ .statements inBlock

/-- From a state on, the script of a call `c` loses nothing. Between its calls it only moves the
window, and it adds an error of its own only where it fails or where `c` may go on after one. The
statements in what it parses include those that are `owed` for what has been parsed so far; nothing
can be parsed where `owed` is `none`, because a call has failed. -/
inductive Script.Keeps {α : Type} (c : RuleCall) (parts : α → List Stmt) :
    ParseState → Option (List Stmt) → Script α → Prop
  | parsed {s s' l a} (hreach : Reach s s')
      (herrors : c.rule.absorbs = false → s'.errors = s.errors) (hparts : l ⊆ parts a) :
      Keeps c parts s (some l) (.reply (.parsed a s'))
  | failed {s s' owed} (hreach : Reach s s') : Keeps c parts s owed (.reply (.failed s'))
  | exhausted {s owed} : Keeps c parts s owed (.reply .exhausted)
  | call {s owed d next} (hmoves : Moves s d.state) (hbelow : d.Below c)
      (hparsed : ∀ a t, d.reply = .parsed a t →
        Keeps c parts t (owed.map (· ++ d.rule.parts a)) (next (some a) t))
      (hfailed : ∀ t, d.reply = .failed t →
        Keeps c parts t (if c.rule.absorbs then owed else none) (next none t)) :
      Keeps c parts s owed (.call d next)

/-! ## Every rule -/

section Rules

variable {α : Type} {c d : RuleCall} {kept : α → List Stmt} {s s₁ : ParseState}
  {owed : Option (List Stmt)}

theorem Script.Keeps.of_moves {script : Script α} (h : script.Keeps c kept s₁ owed)
    (hmoves : Moves s s₁) : script.Keeps c kept s owed := by
  cases h with
  | parsed hreach herrors hparts =>
      exact .parsed (hmoves.reach.trans hreach) (fun ha => (herrors ha).trans hmoves.errors) hparts
  | failed hreach => exact .failed (hmoves.reach.trans hreach)
  | exhausted => exact .exhausted
  | call hmoves' hbelow hparsed hfailed => exact .call (hmoves.trans hmoves') hbelow hparsed hfailed

theorem keeps_done {l : List Stmt} {a : α} (hmoves : Moves s s₁) (hparts : l ⊆ kept a) :
    (Script.done a s₁).Keeps c kept s (some l) :=
  .parsed hmoves.reach (fun _ => hmoves.errors) hparts

/-- What is parsed holds the parts of what it is made of, and no others. -/
theorem keeps_whole (s : ParseState) {l : List Stmt} {a : α} (h : kept a = l) :
    (Script.done a s).Keeps c kept s (some l) :=
  keeps_done (.refl s) (h ▸ List.Subset.refl l)

/-- What is parsed is made of tokens only. -/
theorem keeps_leaf {a : α} (hmoves : Moves s s₁) : (Script.done a s₁).Keeps c kept s (some []) :=
  keeps_done hmoves (List.nil_subset _)

theorem keeps_expect {k : TokenKind} {f : Token → ParseState → Script α}
    (h : (f s.peek s.advance).Keeps c kept s.advance owed) :
    (Script.expect s k f).Keeps c kept s owed := by
  unfold Script.expect
  split
  · exact h.of_moves (moves_advance s)
  · exact .failed (reach_record s _)

theorem keeps_after {f : d.rule.Answer → ParseState → Script α} (hmoves : Moves s d.state)
    (hbelow : d.Below c)
    (h : ∀ a t, d.reply = .parsed a t →
      (f a t).Keeps c kept t (owed.map (· ++ d.rule.parts a))) :
    (Script.after d f).Keeps c kept s owed :=
  .call hmoves hbelow h fun t _ => .failed (.refl t)

theorem RuleCall.size_le (rule : Rule) (n : Nat) (s : ParseState) :
    (RuleCall.mk rule n s).size ≤ 2 * n + 1 := by
  cases rule <;> simp [RuleCall.size]

theorem RuleCall.le_size (rule : Rule) (n : Nat) (s : ParseState) :
    2 * n ≤ (RuleCall.mk rule n s).size := by
  cases rule <;> simp [RuleCall.size]

/-- With one step less, any rule but a sequence of statements may be called. -/
theorem below_succ {rule rule' : Rule} {n : Nat} {s t : ParseState}
    (h : ∀ inBlock, rule' ≠ .statements inBlock) :
    RuleCall.Below ⟨rule', n, t⟩ ⟨rule, n + 1, s⟩ := by
  refine ⟨?_, fun _ => h⟩
  have hcallee := RuleCall.size_le rule' n t
  have hcaller := RuleCall.le_size rule (n + 1) s
  omega

variable (n : Nat)

theorem valueScript_keeps {stmt : Expr → Stmt} (hmoves : Moves s s₁)
    (hstmt : ∀ e, e.parts ⊆ (stmt e).parts) (t : ParseState) :
    (valueScript n s₁ stmt).Keeps ⟨.statement, n + 1, t⟩ Stmt.parts s (some []) := by
  refine .call hmoves (below_succ nofun) ?_ ?_
  · exact fun e t _ => keeps_done (moves_skipOptional t _) (hstmt e)
  · exact fun t _ => .failed (reach_skipOptional t _)

theorem statementScript_keeps (s : ParseState) :
    (statementScript n s).Keeps ⟨.statement, n + 1, s⟩ Stmt.parts s (some []) := by
  unfold statementScript
  split
  · refine keeps_expect (keeps_expect ?_)
    exact valueScript_keeps n (moves_advance _) (fun e => List.subset_cons_self _ _) s
  · exact valueScript_keeps n (moves_advance s) (fun e => List.subset_cons_self _ _) s
  · exact valueScript_keeps n (.refl s) (fun e => List.subset_cons_self _ _) s

theorem statementsScript_keeps (inBlock : Bool) (s : ParseState) :
    (statementsScript n inBlock s).Keeps ⟨.statements inBlock, n + 1, s⟩ stmtsParts s
      (some []) := by
  unfold statementsScript
  split
  · exact keeps_leaf (.refl s)
  · -- the others are kept whether or not the first statement has been parsed
    have hrest : ∀ (first : Option Stmt) (s₁ : ParseState),
        (Script.after ⟨.statements inBlock, n, s₁.advance⟩ fun rest s₂ =>
          Script.done (first.toList ++ rest) s₂).Keeps ⟨.statements inBlock, n + 1, s⟩ stmtsParts s₁
            (some (stmtsParts first.toList)) := by
      intro first s₁
      refine keeps_after (moves_advance s₁) ⟨?_, nofun⟩ fun rest t _ => ?_
      · simp [RuleCall.size]
      · exact keeps_whole t (stmtsParts_append _ _)
    refine .call (.refl s) (below_succ nofun) (fun first t _ => ?_)
      fun t _ => hrest none t
    have h := hrest (some first) t
    rw [Option.toList_some, stmtsParts, stmtsParts, List.append_nil] at h
    exact h

theorem blockScript_keeps (s : ParseState) :
    (blockScript n s).Keeps ⟨.block, n + 1, s⟩ Block.parts s (some []) := by
  refine keeps_after (moves_advance s) ⟨by simp [RuleCall.size], nofun⟩ fun body t _ => ?_
  refine .parsed ?_ nofun (List.subset_cons_self _ _)
  split
  · exact reach_record t _
  · exact .refl t

theorem headerScript_keeps {f : Option Expr → Block → ParseState → Script Expr}
    (h : ∀ condition body t,
      (f condition body t).Keeps ⟨.operand, n + 1, s⟩ Expr.parts t
        (condition.map fun c => c.parts ++ body.parts)) :
    (headerScript n s f).Keeps ⟨.operand, n + 1, s⟩ Expr.parts s (some []) := by
  -- a condition that has failed is noticed only behind the block
  have hblock : ∀ (condition : Option Expr) (s₂ : ParseState),
      (Script.expect s₂ .rparen fun _ s₃ =>
        .expect s₃ .lbrace fun _ s₄ =>
        .after ⟨.block, n, s₄⟩ fun body s₅ => f condition body s₅).Keeps ⟨.operand, n + 1, s⟩
          Expr.parts s₂ (condition.map Expr.parts) := by
    intro condition s₂
    refine keeps_expect (keeps_expect ?_)
    refine keeps_after (.refl _) (below_succ nofun) fun body t _ => ?_
    rw [Option.map_map]
    exact h condition body t
  refine keeps_expect (.call (moves_advance _) (below_succ nofun) ?_ ?_)
  · exact fun e t _ => hblock (some e) t
  · exact fun t _ => hblock none t

theorem operandScript_keeps (s : ParseState) :
    (operandScript n s).Keeps ⟨.operand, n + 1, s⟩ Expr.parts s (some []) := by
  unfold operandScript
  cases s.current.kind
  case ident | string | kwTrue | kwFalse => exact keeps_leaf (.refl s)
  case int =>
    cases literalValue? s.current.text.toList with
    | some value => exact keeps_leaf (.refl s)
    | none => exact .failed (reach_record s _)
  case bang | minus =>
    exact keeps_after (moves_advance s) (below_succ nofun) fun right t _ =>
      keeps_whole t rfl
  case lparen =>
    refine .call (moves_advance s) (below_succ nofun) (fun e t _ => ?_) fun t _ => ?_
    · exact keeps_expect (keeps_whole _ rfl)
    · exact keeps_expect (.failed (.refl _))
  case lbracket =>
    exact keeps_after (.refl s) (below_succ nofun) fun elements t _ =>
      keeps_whole t rfl
  case lbrace =>
    exact keeps_after (.refl s) (below_succ nofun) fun entries t _ =>
      keeps_whole t rfl
  case kwIf =>
    refine headerScript_keeps n fun condition consequence t => ?_
    refine keeps_after (.refl t) (below_succ nofun) fun other t _ => ?_
    cases condition with
    | none => exact .failed (.refl t)
    | some c => exact keeps_whole t rfl
  case kwWhile =>
    refine headerScript_keeps n fun condition body t => ?_
    cases condition with
    | none => exact .failed (.refl t)
    | some c => exact keeps_whole t rfl
  case kwFn =>
    refine keeps_expect (keeps_after (.refl _) (below_succ nofun) fun names t _ => ?_)
    refine keeps_expect (keeps_after (.refl _) (below_succ nofun) fun body t _ => ?_)
    exact keeps_whole t rfl
  all_goals exact .failed (reach_record s _)

theorem alternativeScript_keeps (s : ParseState) :
    (alternativeScript n s).Keeps ⟨.alternative, n + 1, s⟩ elseParts s (some []) := by
  unfold alternativeScript
  split
  · refine .of_moves (keeps_expect ?_) (moves_advance s)
    exact keeps_after (.refl _) (below_succ nofun) fun b t _ =>
      keeps_whole t rfl
  · exact keeps_leaf (.refl s)

/-- An operand that is parsed is extended, so its parts are kept. -/
theorem last_extend_keeps (rule : Rule) (t : ParseState) (level : Nat) (left : Expr)
    (s : ParseState) :
    (Script.last ⟨.extend level left, n, s⟩).Keeps ⟨rule, n + 1, t⟩ Expr.parts s
      (some ([] ++ left.parts)) := by
  refine .call (.refl s) (below_succ nofun) (fun e t he => ?_) fun t _ => .failed (.refl t)
  exact keeps_done (.refl t) (List.append_subset.mpr ⟨extend_parts he, List.Subset.refl _⟩)

theorem extendScript_keeps (level : Nat) (left : Expr) (s : ParseState) :
    (extendScript n level left s).Keeps ⟨.extend level left, n + 1, s⟩ Expr.parts s
      (some []) := by
  unfold extendScript
  split
  · exact keeps_after (moves_advance s) (below_succ nofun) fun e t _ =>
      last_extend_keeps n _ s level e t
  · exact keeps_leaf (.refl s)

theorem continuationScript_keeps (left : Expr) (s : ParseState) :
    (continuationScript n left s).Keeps ⟨.continuation left, n + 1, s⟩ Expr.parts s
      (some []) := by
  unfold continuationScript
  cases s.current.kind
  case lparen =>
    exact keeps_after (.refl s) (below_succ nofun) fun arguments t _ =>
      keeps_done (.refl t) (List.subset_append_right _ _)
  case lbracket =>
    refine .call (moves_advance s) (below_succ nofun) (fun e t _ => ?_) fun t _ => ?_
    · exact keeps_expect (keeps_done (.refl _) (List.subset_append_right _ _))
    · exact keeps_expect (.failed (.refl _))
  all_goals
    exact keeps_after (moves_advance s) (below_succ nofun) fun right t _ =>
      keeps_done (.refl t) (List.subset_append_right _ _)

/-- An expression is followed by those behind the commas. -/
theorem element_keeps (rule : Rule) {closing : TokenKind} (hmoves : Moves s s₁) :
    (Script.after ⟨.expression lowestLevel, n, s₁⟩ fun e s₁ =>
      .after ⟨.moreExpressions closing, n, s₁⟩ fun es s₂ =>
      .done (e :: es) s₂).Keeps ⟨rule, n + 1, s⟩ allParts s (some []) := by
  refine keeps_after hmoves (below_succ nofun) fun e t _ => ?_
  exact keeps_after (.refl t) (below_succ nofun) fun es t _ =>
    keeps_whole t rfl

theorem expressionsScript_keeps (closing : TokenKind) (s : ParseState) :
    (expressionsScript n closing s).Keeps ⟨.expressions closing, n + 1, s⟩ allParts s
      (some []) := by
  unfold expressionsScript
  split
  · exact keeps_leaf (moves_advance s)
  · exact element_keeps n _ (moves_advance s)

theorem moreExpressionsScript_keeps (closing : TokenKind) (s : ParseState) :
    (moreExpressionsScript n closing s).Keeps ⟨.moreExpressions closing, n + 1, s⟩ allParts s
      (some []) := by
  unfold moreExpressionsScript
  split
  · exact element_keeps n _ ((moves_advance s).trans (moves_advance _))
  · exact keeps_expect (keeps_leaf (.refl _))

theorem parametersScript_keeps (hbelow : ∀ t, RuleCall.Below ⟨.moreParameters, n, t⟩ c)
    (s : ParseState) : (parametersScript n s).Keeps c (fun _ => []) s (some []) :=
  keeps_expect (keeps_after (.refl _) (hbelow _) fun _ t _ =>
    keeps_leaf (.refl t))

theorem pairsScript_keeps (s : ParseState) :
    (pairsScript n s).Keeps ⟨.pairs, n + 1, s⟩ pairsParts s (some []) := by
  unfold pairsScript
  split
  · exact keeps_leaf (moves_advance s)
  · refine .call (moves_advance s) (below_succ nofun) (fun key t _ => ?_) fun t _ => ?_
    · refine keeps_expect (.call (moves_advance _) (below_succ nofun) (fun value t _ => ?_)
        fun t _ => .failed (.refl t))
      show Script.Keeps _ _ _ _ (ite _ _ _)
      split
      · refine keeps_done (moves_advance t) ?_
        simp [pairsParts, Rule.parts]
      · refine keeps_expect (keeps_after (.refl _) (below_succ nofun) fun rest t _ => ?_)
        exact keeps_whole t rfl
    · refine keeps_expect (.call (moves_advance _) (below_succ nofun) (fun value t _ => ?_)
        fun t _ => .failed (.refl t))
      exact .failed (.refl t)

end Rules

/-- **No rule loses what it finds.** -/
theorem RuleCall.keeps (c : RuleCall) : c.script.Keeps c c.rule.parts c.state (some []) := by
  obtain ⟨rule, n, s⟩ := c
  -- the one rule that spends no step of its own
  by_cases hrule : rule = .parameters
  · subst hrule
    show Script.Keeps _ _ _ _ (ite _ _ _)
    split
    · exact keeps_leaf (moves_advance s)
    · exact parametersScript_keeps n (fun t => ⟨by simp [RuleCall.size], nofun⟩) s
  cases n with
  | zero =>
      cases rule with
      | parameters => exact absurd rfl hrule
      | _ => exact .exhausted
  | succ n =>
      cases rule with
      | parameters => exact absurd rfl hrule
      | statement => exact statementScript_keeps n s
      | statements inBlock => exact statementsScript_keeps n inBlock s
      | block => exact blockScript_keeps n s
      | expression level =>
          exact keeps_after (.refl s) (below_succ nofun) fun e t _ =>
            last_extend_keeps n _ s level e t
      | operand => exact operandScript_keeps n s
      | alternative => exact alternativeScript_keeps n s
      | extend level left => exact extendScript_keeps n level left s
      | continuation left => exact continuationScript_keeps n left s
      | expressions closing => exact expressionsScript_keeps n closing s
      | moreExpressions closing => exact moreExpressionsScript_keeps n closing s
      | pairs => exact pairsScript_keeps n s
      | moreParameters =>
          show Script.Keeps _ _ _ _ (ite _ _ _)
          split
          · refine .of_moves (parametersScript_keeps n (fun t => ?_) _) (moves_advance s)
            exact below_succ nofun
          · exact keeps_expect (keeps_leaf (.refl _))

end MonkeyLang
