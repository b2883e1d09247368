import MonkeyLang.Syntax.Basic
import MonkeyLang.Syntax.Error

/-!
# Parse states

What the grammar rules work on: a window of two tokens on the tokens of a text and the list of the
syntax errors found so far, and the reply of a rule. A rule that fails has recorded an error and
replies with the state that it stopped in, from where its caller goes on.
-/

namespace MonkeyLang

/-! ## States -/

/-- A window on the tokens of a text: the current token and those after it, the last of them the
end-of-file token, and the errors found so far. -/
structure ParseState where
  current : Token
  upcoming : List Token
  errors : List SyntaxError
deriving DecidableEq, Repr

namespace ParseState

/-- The state before any of the tokens has been read. -/
def ofTokens : List Token → ParseState
  | [] => ⟨⟨.eof, "", .start⟩, [], []⟩
  | t :: ts => ⟨t, ts, []⟩

/-- The token after the current one. The end-of-file token is followed by itself. -/
def peek (s : ParseState) : Token :=
  s.upcoming.headD s.current

/-- Moves the window on by one token. At the end-of-file token it stays. -/
def advance (s : ParseState) : ParseState :=
  match s.upcoming with
  | [] => s
  | t :: ts => { s with current := t, upcoming := ts }

def record (s : ParseState) (e : SyntaxError) : ParseState :=
  { s with errors := s.errors ++ [e] }

/-- Moves on if the next token is of a given kind. -/
def skipOptional (s : ParseState) (kind : TokenKind) : ParseState :=
  if s.peek.kind = kind then s.advance else s

@[simp] theorem errors_advance (s : ParseState) : s.advance.errors = s.errors := by
  unfold advance
  split <;> rfl

@[simp] theorem errors_record (s : ParseState) (e : SyntaxError) :
    (s.record e).errors = s.errors ++ [e] := rfl

@[simp] theorem current_record (s : ParseState) (e : SyntaxError) :
    (s.record e).current = s.current := rfl

@[simp] theorem upcoming_record (s : ParseState) (e : SyntaxError) :
    (s.record e).upcoming = s.upcoming := rfl

end ParseState

/-! ## Replies -/

/-- What a rule replies: what it parsed, that it failed, or that its allowance of steps was used
up. The parser grants more steps than any text needs. -/
inductive Reply (α : Type)
  | parsed (value : α) (state : ParseState)
  | failed (state : ParseState)
  | exhausted

namespace Reply

variable {α β : Type}

/-- Goes on with what was parsed; a failure is passed on. -/
@[inline] def andThen (r : Reply α) (f : α → ParseState → Reply β) : Reply β :=
  match r with
  | parsed a s => f a s
  | failed s => failed s
  | exhausted => exhausted

/-- Goes on whether something was parsed or not. -/
@[inline] def either (r : Reply α) (f : Option α → ParseState → Reply β) : Reply β :=
  match r with
  | parsed a s => f (some a) s
  | failed s => f none s
  | exhausted => exhausted

/-- The reply of a rule that has an answer or has failed in a given state. -/
def ofOption (o : Option α) (s : ParseState) : Reply α :=
  match o with
  | some a => parsed a s
  | none => failed s

/-- Changes the state that a rule stopped in. -/
def mapState (f : ParseState → ParseState) : Reply α → Reply α
  | parsed a s => parsed a (f s)
  | failed s => failed (f s)
  | exhausted => exhausted

@[simp] theorem andThen_parsed (a : α) (s : ParseState) (f : α → ParseState → Reply β) :
    (parsed a s).andThen f = f a s := rfl

@[simp] theorem andThen_failed (s : ParseState) (f : α → ParseState → Reply β) :
    (failed s).andThen f = failed s := rfl

@[simp] theorem andThen_exhausted (f : α → ParseState → Reply β) :
    (exhausted : Reply α).andThen f = exhausted := rfl

@[simp] theorem either_parsed (a : α) (s : ParseState) (f : Option α → ParseState → Reply β) :
    (parsed a s).either f = f (some a) s := rfl

@[simp] theorem either_failed (s : ParseState) (f : Option α → ParseState → Reply β) :
    (failed s : Reply α).either f = f none s := rfl

@[simp] theorem either_exhausted (f : Option α → ParseState → Reply β) :
    (exhausted : Reply α).either f = exhausted := rfl

@[simp] theorem ofOption_some (a : α) (s : ParseState) : ofOption (some a) s = parsed a s := rfl

@[simp] theorem ofOption_none (s : ParseState) : ofOption (none : Option α) s = failed s := rfl

theorem andThen_eq_parsed_iff {r : Reply α} {f : α → ParseState → Reply β} {b : β}
    {s' : ParseState} :
    r.andThen f = parsed b s' ↔ ∃ a s, r = parsed a s ∧ f a s = parsed b s' := by
  cases r <;> simp [and_assoc]

theorem either_eq_parsed_iff {r : Reply α} {f : Option α → ParseState → Reply β} {b : β}
    {s' : ParseState} :
    r.either f = parsed b s' ↔
      (∃ a s, r = parsed a s ∧ f (some a) s = parsed b s') ∨
        ∃ s, r = failed s ∧ f none s = parsed b s' := by
  cases r <;> simp [and_assoc]

end Reply

/-- Moves on if the next token is of the wanted kind, and replies with that token; otherwise records
an error and fails. -/
def ParseState.expect (s : ParseState) (wanted : TokenKind) : Reply Token :=
  if s.peek.kind = wanted then .parsed s.peek s.advance
  else .failed (s.record (.expected wanted s.peek.kind))

end MonkeyLang
