import MonkeyLang.Eval
import MonkeyLang.Syntax.Parser

/-!
# Evaluating texts

A text is parsed and, if it has no syntax errors, run. Several texts can be evaluated one after
another in one scope: what one of them binds, the next ones see, and a text that is rejected or
ends early changes nothing for the others but what it has bound before.
-/

namespace MonkeyLang

/-! ## Runs that are broken off -/

/-- Why a run is broken off. -/
inductive Abort
  | fault (fault : Fault)
  /-- The allowance of steps stands for the stack of the host. -/
  | stackExhausted
deriving DecidableEq, Repr

namespace Abort

def reason : Abort → String
  | fault e => "NotImplementedError: " ++ e.message
  | stackExhausted => "RecursionError: maximum recursion depth exceeded"

/-- The report of the host, with its lines on its own frames. -/
def traceback (frames : String) (a : Abort) : String :=
  "Traceback (most recent call last):\n" ++ frames ++ a.reason

end Abort

/-! ## Texts -/

/-- What becomes of a text. -/
inductive Evaluation
  /-- It has syntax errors and is not run. -/
  | rejected (errors : List SyntaxError)
  /-- It is a program, which is run. -/
  | ran (program : Program) (outcome : Outcome (Option Value))

/-- Parses a text and runs it in a scope. -/
def evaluate (source : String) (scope : ScopeId) (s : Store) : Evaluation :=
  let parsed := parse source
  if parsed.errors.isEmpty then .ran parsed.program (parsed.program.run scope s)
  else .rejected parsed.errors

/-- The store after an evaluation that started in a given one. -/
def Evaluation.store (s : Store) : Evaluation → Store
  | .ran _ outcome => outcome.store
  | .rejected _ => s

/-- Evaluates texts one after another in one scope: what becomes of each, and the store after
it. -/
def evaluateAll (scope : ScopeId) : List String → Store → List (Evaluation × Store)
  | [], _ => []
  | source :: sources, s =>
    let e := evaluate source scope s
    (e, e.store s) :: evaluateAll scope sources (e.store s)

end MonkeyLang
