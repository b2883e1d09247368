import Mathlib.Logic.Relation
import MonkeyLang.Proofs.ParseProgress

/-!
# The calls of the parser

The rules of the parser call one another, and a reply shows nothing of the calls that led to it. A
script spells them out: it is what one rule does by itself, with every call of another rule as a
step that waits for a reply. Run with the replies of the rules, the script of a call gives the
reply of the call (`RuleCall.reply_eq_run`), so `RuleCall.calls` are the calls that the parser
makes, in their order.
-/

namespace MonkeyLang

open ParseState

/-! ## Calls -/

/-- The rules, with what they are asked for besides the state. -/
inductive Rule
  | statement
  | statements (inBlock : Bool)
  | block
  | expression (level : Nat)
  | operand
  | alternative
  | extend (level : Nat) (left : Expr)
  | continuation (left : Expr)
  | expressions (closing : TokenKind)
  | moreExpressions (closing : TokenKind)
  | pairs
  | parameters
  | moreParameters

/-- What a rule parses. -/
@[reducible]
def Rule.Answer : Rule → Type
  | .statement => Stmt
  | .statements _ => List Stmt
  | .block => Block
  | .expression _ | .operand | .extend _ _ | .continuation _ => Expr
  | .alternative => Option Block
  | .expressions _ | .moreExpressions _ => List Expr
  | .pairs => List (Expr × Expr)
  | .parameters | .moreParameters => List Name

/-- A rule that is called in a state, with an allowance of steps. -/
structure RuleCall where
  rule : Rule
  steps : Nat
  state : ParseState

def RuleCall.reply : (c : RuleCall) → Reply c.rule.Answer
  | ⟨.statement, n, s⟩ => MonkeyLang.statement n s
  | ⟨.statements inBlock, n, s⟩ => MonkeyLang.statements n inBlock s
  | ⟨.block, n, s⟩ => MonkeyLang.block n s
  | ⟨.expression level, n, s⟩ => MonkeyLang.expression n level s
  | ⟨.operand, n, s⟩ => MonkeyLang.operand n s
  | ⟨.alternative, n, s⟩ => MonkeyLang.alternative n s
  | ⟨.extend level left, n, s⟩ => MonkeyLang.extend n level left s
  | ⟨.continuation left, n, s⟩ => MonkeyLang.continuation n left s
  | ⟨.expressions closing, n, s⟩ => MonkeyLang.expressions n closing s
  | ⟨.moreExpressions closing, n, s⟩ => MonkeyLang.moreExpressions n closing s
  | ⟨.pairs, n, s⟩ => MonkeyLang.pairs n s
  | ⟨.parameters, n, s⟩ => MonkeyLang.parameters n s
  | ⟨.moreParameters, n, s⟩ => MonkeyLang.moreParameters n s

/-- What a call has parsed, if it has parsed anything. -/
def RuleCall.answer (c : RuleCall) : Option c.rule.Answer := (c.reply.settle c.state).1

/-- The state that a call stops in. -/
def RuleCall.stop (c : RuleCall) : ParseState := (c.reply.settle c.state).2

/-! ## Scripts -/

/-- What a rule does by itself: it replies, or it calls a rule and goes on with what that rule
parsed, or with nothing if that rule failed. -/
inductive Script (α : Type)
  | reply (r : Reply α)
  | call (c : RuleCall) (next : Option c.rule.Answer → ParseState → Script α)

namespace Script

variable {α : Type}

def done (a : α) (s : ParseState) : Script α := .reply (.parsed a s)

def fail (s : ParseState) : Script α := .reply (.failed s)

/-- Calls a rule and fails if it fails. -/
def after (c : RuleCall) (f : c.rule.Answer → ParseState → Script α) : Script α :=
  .call c fun
    | some a, s => f a s
    | none, s => fail s

/-- Leaves the reply to another rule. -/
def last (c : RuleCall) : Script c.rule.Answer := .call c fun o s => .reply (.ofOption o s)

/-- Goes on if the next token is of the wanted kind, and fails with an error otherwise. -/
def expect (s : ParseState) (wanted : TokenKind) (f : Token → ParseState → Script α) : Script α :=
  if s.peek.kind = wanted then f s.peek s.advance
  else fail (s.record (.expected wanted s.peek.kind))

/-- The reply when every call replies as its rule does. -/
def run : Script α → Reply α
  | reply r => r
  | call c next => c.reply.either fun o s => (next o s).run

/-- The calls that are made, in their order. A call that runs out of steps is the last one. -/
def calls : Script α → List RuleCall
  | reply _ => []
  | call c next => c :: match c.reply with
    | .parsed a s => (next (some a) s).calls
    | .failed s => (next none s).calls
    | .exhausted => []

@[simp] theorem run_call (c : RuleCall) (next : Option c.rule.Answer → ParseState → Script α) :
    (call c next).run = c.reply.either fun o s => (next o s).run := rfl

@[simp] theorem run_after (c : RuleCall) (f : c.rule.Answer → ParseState → Script α) :
    (after c f).run = c.reply.andThen fun a s => (f a s).run := by
  rw [after, run_call]
  cases c.reply <;> rfl

@[simp] theorem run_last (c : RuleCall) : (last c).run = c.reply := by
  rw [last, run_call]
  cases c.reply <;> rfl

@[simp] theorem run_expect (s : ParseState) (k : TokenKind)
    (f : Token → ParseState → Script α) :
    (expect s k f).run = (s.expect k).andThen fun t s => (f t s).run := by
  unfold expect ParseState.expect
  split <;> rfl

theorem calls_call_parsed {c : RuleCall} {next : Option c.rule.Answer → ParseState → Script α}
    {a : c.rule.Answer} {s : ParseState} (h : c.reply = .parsed a s) :
    (call c next).calls = c :: (next (some a) s).calls := by
  rw [calls, h]

theorem calls_call_failed {c : RuleCall} {next : Option c.rule.Answer → ParseState → Script α}
    {s : ParseState} (h : c.reply = .failed s) :
    (call c next).calls = c :: (next none s).calls := by
  rw [calls, h]

end Script

/-! ## The script of every rule -/

section Rules

/-- A statement whose expression starts in a given state, with the semicolon after it if there is
one. -/
def valueScript (n : Nat) (s : ParseState) (stmt : Expr → Stmt) : Script Stmt :=
  .call ⟨.expression lowestLevel, n, s⟩ fun value s₁ =>
    .reply (.ofOption (value.map stmt) (s₁.skipOptional .semicolon))

def statementScript (n : Nat) (s : ParseState) : Script Stmt :=
  match s.current.kind with
  | .kwLet =>
    .expect s .ident fun name s₁ =>
    .expect s₁ .assign fun _ s₂ =>
    valueScript n s₂.advance (.binding s.current.mark name.name)
  | .kwReturn => valueScript n s.advance (.leave s.current.mark)
  | _ => valueScript n s (.expression s.current.mark)

def statementsScript (n : Nat) (inBlock : Bool) (s : ParseState) : Script (List Stmt) :=
  if s.current.kind = .eof ∨ (inBlock ∧ s.current.kind = .rbrace) then .done [] s
  else
    .call ⟨.statement, n, s⟩ fun first s₁ =>
    .after ⟨.statements inBlock, n, s₁.advance⟩ fun rest s₂ =>
    .done (first.toList ++ rest) s₂

def blockScript (n : Nat) (s : ParseState) : Script Block :=
  .after ⟨.statements true, n, s.advance⟩ fun body s₁ =>
  .done (.mk s.current.mark body)
    (if s₁.current.kind = .eof then s₁.record (.expected .rbrace .eof) else s₁)

/-- The condition of an `if` or of a `while` in parentheses and the block after it. -/
def headerScript (n : Nat) (s : ParseState)
    (f : Option Expr → Block → ParseState → Script Expr) : Script Expr :=
  .expect s .lparen fun _ s₁ =>
  .call ⟨.expression lowestLevel, n, s₁.advance⟩ fun condition s₂ =>
  .expect s₂ .rparen fun _ s₃ =>
  .expect s₃ .lbrace fun _ s₄ =>
  .after ⟨.block, n, s₄⟩ fun body s₅ => f condition body s₅

def operandScript (n : Nat) (s : ParseState) : Script Expr :=
  match s.current.kind with
  | .ident => .done (.identifier s.current.mark s.current.text) s
  | .int =>
    match literalValue? s.current.text.toList with
    | some value => .done (.integer s.current.mark value) s
    | none => .fail (s.record (.integerRange s.current.text))
  | .string => .done (.string s.current.mark s.current.text) s
  | .kwTrue => .done (.boolean s.current.mark true) s
  | .kwFalse => .done (.boolean s.current.mark false) s
  | .bang | .minus =>
    .after ⟨.expression prefixLevel, n, s.advance⟩ fun right s₁ =>
    .done (.prefixOp s.current.mark s.current.text right) s₁
  | .lparen =>
    .call ⟨.expression lowestLevel, n, s.advance⟩ fun inner s₁ =>
    .expect s₁ .rparen fun _ s₂ =>
    .reply (.ofOption inner s₂)
  | .lbracket =>
    .after ⟨.expressions .rbracket, n, s⟩ fun elements s₁ =>
    .done (.array s.current.mark elements) s₁
  | .lbrace =>
    .after ⟨.pairs, n, s⟩ fun entries s₁ =>
    .done (.hash s.current.mark entries) s₁
  | .kwIf =>
    headerScript n s fun condition consequence s₅ =>
    .after ⟨.alternative, n, s₅⟩ fun other s₆ =>
    .reply (.ofOption
      (condition.map fun c => .conditional s.current.mark c consequence other) s₆)
  | .kwWhile =>
    headerScript n s fun condition body s₅ =>
    .reply (.ofOption (condition.map fun c => .loop s.current.mark c body) s₅)
  | .kwFn =>
    .expect s .lparen fun _ s₁ =>
    .after ⟨.parameters, n, s₁⟩ fun names s₂ =>
    .expect s₂ .lbrace fun _ s₃ =>
    .after ⟨.block, n, s₃⟩ fun body s₄ =>
    .done (.function s.current.mark names body) s₄
  | kind => .fail (s.record (.noExpression kind))

def alternativeScript (n : Nat) (s : ParseState) : Script (Option Block) :=
  if s.peek.kind = .kwElse then
    .expect s.advance .lbrace fun _ s₁ =>
    .after ⟨.block, n, s₁⟩ fun b s₂ =>
    .done (some b) s₂
  else .done none s

def extendScript (n : Nat) (level : Nat) (left : Expr) (s : ParseState) : Script Expr :=
  if level < s.peek.kind.level ∧ lowestLevel < s.peek.kind.level then
    .after ⟨.continuation left, n, s.advance⟩ fun left s₁ =>
    .last ⟨.extend level left, n, s₁⟩
  else .done left s

def continuationScript (n : Nat) (left : Expr) (s : ParseState) : Script Expr :=
  match s.current.kind with
  | .lparen =>
    .after ⟨.expressions .rparen, n, s⟩ fun arguments s₁ =>
    .done (.call s.current.mark left arguments) s₁
  | .lbracket =>
    .call ⟨.expression lowestLevel, n, s.advance⟩ fun index s₁ =>
    .expect s₁ .rbracket fun _ s₂ =>
    .reply (.ofOption (index.map (.index s.current.mark left)) s₂)
  | kind =>
    .after ⟨.expression kind.level, n, s.advance⟩ fun right s₁ =>
    .done (.infixOp s.current.mark left s.current.text right) s₁

def expressionsScript (n : Nat) (closing : TokenKind) (s : ParseState) : Script (List Expr) :=
  if s.peek.kind = closing then .done [] s.advance
  else
    .after ⟨.expression lowestLevel, n, s.advance⟩ fun e s₁ =>
    .after ⟨.moreExpressions closing, n, s₁⟩ fun es s₂ =>
    .done (e :: es) s₂

def moreExpressionsScript (n : Nat) (closing : TokenKind) (s : ParseState) :
    Script (List Expr) :=
  if s.peek.kind = .comma then
    .after ⟨.expression lowestLevel, n, s.advance.advance⟩ fun e s₁ =>
    .after ⟨.moreExpressions closing, n, s₁⟩ fun es s₂ =>
    .done (e :: es) s₂
  else .expect s closing fun _ s₁ => .done [] s₁

def pairsScript (n : Nat) (s : ParseState) : Script (List (Expr × Expr)) :=
  if s.peek.kind = .rbrace then .done [] s.advance
  else
    .call ⟨.expression lowestLevel, n, s.advance⟩ fun key s₁ =>
    .expect s₁ .colon fun _ s₂ =>
    .call ⟨.expression lowestLevel, n, s₂.advance⟩ fun value s₃ =>
    match key, value with
    | some key, some value =>
      if s₃.peek.kind = .rbrace then .done [(key, value)] s₃.advance
      else
        .expect s₃ .comma fun _ s₄ =>
        .after ⟨.pairs, n, s₄⟩ fun rest s₅ =>
        .done ((key, value) :: rest) s₅
    | _, _ => .fail s₃

/-- A parameter and those after it, from where its name has to stand. -/
def parametersScript (n : Nat) (s : ParseState) : Script (List Name) :=
  .expect s .ident fun t s₁ =>
  .after ⟨.moreParameters, n, s₁⟩ fun names s₂ =>
  .done (t.name :: names) s₂

/-- What a call does by itself. -/
def RuleCall.script : (c : RuleCall) → Script c.rule.Answer
  | ⟨.parameters, n, s⟩ =>
    if s.peek.kind = .rparen then .done [] s.advance else parametersScript n s
  | ⟨_, 0, _⟩ => .reply .exhausted
  | ⟨.statement, n + 1, s⟩ => statementScript n s
  | ⟨.statements inBlock, n + 1, s⟩ => statementsScript n inBlock s
  | ⟨.block, n + 1, s⟩ => blockScript n s
  | ⟨.expression level, n + 1, s⟩ =>
    .after ⟨.operand, n, s⟩ fun left s₁ =>
    .last ⟨.extend level left, n, s₁⟩
  | ⟨.operand, n + 1, s⟩ => operandScript n s
  | ⟨.alternative, n + 1, s⟩ => alternativeScript n s
  | ⟨.extend level left, n + 1, s⟩ => extendScript n level left s
  | ⟨.continuation left, n + 1, s⟩ => continuationScript n left s
  | ⟨.expressions closing, n + 1, s⟩ => expressionsScript n closing s
  | ⟨.moreExpressions closing, n + 1, s⟩ => moreExpressionsScript n closing s
  | ⟨.pairs, n + 1, s⟩ => pairsScript n s
  | ⟨.moreParameters, n + 1, s⟩ =>
    if s.peek.kind = .comma then parametersScript n s.advance
    else .expect s .rparen fun _ s₁ => .done [] s₁

end Rules

/-! ## Scripts and rules agree -/

section Agree

variable {α : Type} (n : Nat) (s : ParseState)

theorem run_valueScript (stmt : Expr → Stmt) :
    (valueScript n s stmt).run =
      ((expression n lowestLevel s).mapState (·.skipOptional .semicolon)).andThen
        fun value s₁ => .parsed (stmt value) s₁ := by
  rw [valueScript, Script.run_call]
  show (expression n lowestLevel s).either _ = _
  cases expression n lowestLevel s <;> rfl

theorem run_statementScript : (statementScript n s).run = statement (n + 1) s := by
  unfold statementScript statement
  cases s.current.kind
  case kwLet => simp only [Script.run_expect, run_valueScript]
  all_goals exact run_valueScript n _ _

theorem run_headerScript (f : Option Expr → Block → ParseState → Script Expr) :
    (headerScript n s f).run =
      (s.expect .lparen).andThen fun _ s₁ =>
      (expression n lowestLevel s₁.advance).either fun condition s₂ =>
      (s₂.expect .rparen).andThen fun _ s₃ =>
      (s₃.expect .lbrace).andThen fun _ s₄ =>
      (block n s₄).andThen fun body s₅ => (f condition body s₅).run := by
  simp only [headerScript, Script.run_expect, Script.run_call, Script.run_after]
  rfl

theorem run_operandScript : (operandScript n s).run = operand (n + 1) s := by
  unfold operandScript operand
  cases s.current.kind
  case int => cases literalValue? s.current.text.toList <;> rfl
  case bang | minus | lbracket | lbrace => exact Script.run_after _ _
  case kwIf =>
    rw [run_headerScript]
    simp only [Script.run_after]
    rfl
  case kwWhile => exact run_headerScript n s _
  case lparen | kwFn =>
    simp only [Script.run_expect, Script.run_call, Script.run_after]
    rfl
  all_goals rfl

theorem run_continuationScript (left : Expr) :
    (continuationScript n left s).run = continuation (n + 1) left s := by
  unfold continuationScript continuation
  cases s.current.kind
  case lbracket =>
    simp only [Script.run_expect, Script.run_call]
    rfl
  all_goals exact Script.run_after _ _

theorem run_extendScript (level : Nat) (left : Expr) :
    (extendScript n level left s).run = extend (n + 1) level left s := by
  unfold extendScript extend
  split
  · rw [Script.run_after]
    exact congrArg (Reply.andThen _) (funext₂ fun left s₁ =>
      Script.run_last ⟨.extend level left, n, s₁⟩)
  · rfl

theorem run_pairsScript : (pairsScript n s).run = pairs (n + 1) s := by
  unfold pairsScript pairs
  simp only [apply_ite Script.run, Script.run_expect, Script.run_call]
  refine congrArg (ite _ _) (congrArg (Reply.either _) (funext₂ fun key s₁ => ?_))
  refine congrArg (Reply.andThen _) (funext₂ fun _ s₂ => ?_)
  refine congrArg (Reply.either _) (funext₂ fun value s₃ => ?_)
  cases key with
  | none => rfl
  | some key =>
      cases value with
      | none => rfl
      | some value =>
          show Script.run (ite _ _ _) = ite _ _ _
          simp only [apply_ite Script.run, Script.run_expect, Script.run_after]
          rfl

/-- A name and the parameters after it are read alike at the beginning and behind a comma. -/
theorem run_parametersScript :
    (parametersScript n s).run =
      (s.expect .ident).andThen fun t s₁ =>
      (moreParameters n s₁).andThen fun names s₂ =>
      .parsed (t.name :: names) s₂ := by
  simp only [parametersScript, Script.run_expect, Script.run_after]
  rfl

end Agree

/-- **The script of a call gives its reply.** -/
theorem RuleCall.reply_eq_run (c : RuleCall) : c.reply = c.script.run := by
  obtain ⟨rule, n, s⟩ := c
  -- the one rule that spends no step of its own
  by_cases hrule : rule = .parameters
  · subst hrule
    show MonkeyLang.parameters n s = Script.run (ite _ _ _)
    rw [apply_ite Script.run, run_parametersScript]
    rfl
  cases n with
  | zero =>
      cases rule with
      | parameters => exact absurd rfl hrule
      | _ => rfl
  | succ n =>
      cases rule with
      | parameters => exact absurd rfl hrule
      | statement => exact (run_statementScript n s).symm
      | operand => exact (run_operandScript n s).symm
      | extend level left => exact (run_extendScript n s level left).symm
      | continuation left => exact (run_continuationScript n s left).symm
      | pairs => exact (run_pairsScript n s).symm
      | block =>
          show MonkeyLang.block (n + 1) s = Script.run (.after _ _)
          rw [Script.run_after]
          rfl
      | expression level =>
          show MonkeyLang.expression (n + 1) level s = Script.run (.after _ _)
          rw [Script.run_after]
          exact congrArg (Reply.andThen _) (funext₂ fun left s₁ =>
            (Script.run_last ⟨.extend level left, n, s₁⟩).symm)
      | statements inBlock =>
          show MonkeyLang.statements (n + 1) inBlock s = Script.run (ite _ _ _)
          simp only [apply_ite Script.run, Script.run_call, Script.run_after]
          rfl
      | alternative =>
          show MonkeyLang.alternative (n + 1) s = Script.run (ite _ _ _)
          simp only [apply_ite Script.run, Script.run_expect, Script.run_after]
          rfl
      | expressions closing =>
          show MonkeyLang.expressions (n + 1) closing s = Script.run (ite _ _ _)
          simp only [apply_ite Script.run, Script.run_after]
          rfl
      | moreExpressions closing =>
          show MonkeyLang.moreExpressions (n + 1) closing s = Script.run (ite _ _ _)
          simp only [apply_ite Script.run, Script.run_expect, Script.run_after]
          rfl
      | moreParameters =>
          show MonkeyLang.moreParameters (n + 1) s = Script.run (ite _ _ _)
          rw [apply_ite Script.run, run_parametersScript, Script.run_expect]
          rfl

namespace RuleCall

/-! ## Calls that lead to calls -/

/-- The calls of rules that a call makes, in their order. -/
def calls (c : RuleCall) : List RuleCall := c.script.calls

/-- A call leads to itself, to the calls that it makes and to those that they lead to. -/
def LeadsTo : RuleCall → RuleCall → Prop :=
  Relation.ReflTransGen fun c d => d ∈ c.calls

/-- The call that a text is parsed with. -/
def ofText (source : String) : RuleCall :=
  ⟨.statements false, stepsFor (tokenize source).length, .ofTokens (tokenize source)⟩

end RuleCall

end MonkeyLang
