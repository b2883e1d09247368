import MonkeyLang.Syntax.Basic

/-!
# Tests of code

A test asks something of all code of a program, wherever it stands: also of the bodies of
functions that are never called. Its subject is what values can come of the code, so it
looks at the integer literals, and at the returns.

A value is kept if a name is bound to it, if it is returned, passed to a function or put
into an array or a hash. Code whose value is kept contains its returns if none leads out
of it. Code whose value is looked at once need not: an operand, a condition, the function
of a call, both parts of an index expression and the keys of a hash.
-/

namespace MonkeyLang

/-- What is asked of code. -/
structure CodeTest where
  /-- The integers that may be written. -/
  literal : Int → Bool
  /-- Code whose value is kept has to contain its returns. -/
  contained : Bool

variable (T : CodeTest)

mutual

/-- The code of an expression passes a test. `exit` says that a `return` may lead out of
the expression. -/
def Expr.passes (exit : Bool) : Expr → Bool
  | .integer _ value => T.literal value
  | .identifier .. | .string .. | .boolean .. | .unknown .. => true
  | .prefixOp _ _ right => right.passes true
  | .infixOp _ left _ right => left.passes true && right.passes true
  | .conditional _ condition consequence alternative =>
    condition.passes true && consequence.passes exit && elsePasses exit alternative
  | .loop _ condition body => condition.passes true && body.passes exit
  | .function _ _ body => body.passes true
  | .call _ function arguments => function.passes true && allPass arguments
  | .array _ elements => allPass elements
  | .index _ left index => left.passes true && index.passes true
  | .hash _ pairs => pairsPass pairs
  | .statement s => s.passes exit

def elsePasses (exit : Bool) : Option Block → Bool
  | none => true
  | some block => block.passes exit

def allPass : List Expr → Bool
  | [] => true
  | e :: es => e.passes false && allPass es

def pairsPass : List (Expr × Expr) → Bool
  | [] => true
  | (key, value) :: pairs => key.passes true && value.passes false && pairsPass pairs

def Block.passes (exit : Bool) : Block → Bool
  | .mk _ statements | .program statements => stmtsPass exit statements

def Stmt.passes (exit : Bool) : Stmt → Bool
  | .binding _ _ value => value.passes false
  | .leave _ value => (exit || !T.contained) && value.passes false
  | .expression _ e | .bare e => e.passes exit
  -- a program among the statements of another has its own end
  | .block (.program statements) => stmtsPass true statements
  | .block (.mk _ statements) => stmtsPass exit statements
  | .unknown .. => true

def stmtsPass (exit : Bool) : List Stmt → Bool
  | [] => true
  | s :: ss => s.passes exit && stmtsPass exit ss

end

/-- All code of a program passes a test. -/
def Program.passes (p : Program) : Bool :=
  stmtsPass T true p.statements

theorem Block.passes_eq (exit : Bool) (b : Block) :
    b.passes T exit = stmtsPass T exit b.statements := by
  cases b <;> rfl

/-! ## The test that asks for nothing -/

/-- The test that all code passes. -/
def anyCode : CodeTest := ⟨fun _ => true, false⟩

open Bool (and_eq_true_iff) in
mutual

theorem Expr.passes_anyCode : ∀ (e : Expr) (exit : Bool), e.passes anyCode exit = true
  | .identifier .., _ | .integer .., _ | .string .., _ | .boolean .., _ | .unknown .., _ => rfl
  | .prefixOp _ _ right, _ => right.passes_anyCode true
  | .infixOp _ left _ right, _ | .index _ left right, _ =>
      and_eq_true_iff.mpr ⟨left.passes_anyCode true, right.passes_anyCode true⟩
  | .conditional _ condition consequence alternative, exit =>
      and_eq_true_iff.mpr ⟨and_eq_true_iff.mpr ⟨condition.passes_anyCode true,
        consequence.passes_anyCode exit⟩, elsePasses_anyCode alternative exit⟩
  | .loop _ condition body, exit =>
      and_eq_true_iff.mpr ⟨condition.passes_anyCode true, body.passes_anyCode exit⟩
  | .function _ _ body, _ => body.passes_anyCode true
  | .call _ function arguments, _ =>
      and_eq_true_iff.mpr ⟨function.passes_anyCode true, allPass_anyCode arguments⟩
  | .array _ elements, _ => allPass_anyCode elements
  | .hash _ pairs, _ => pairsPass_anyCode pairs
  | .statement s, exit => s.passes_anyCode exit

theorem elsePasses_anyCode : ∀ (b : Option Block) (exit : Bool),
    elsePasses anyCode exit b = true
  | none, _ => rfl
  | some b, exit => b.passes_anyCode exit

theorem allPass_anyCode : ∀ es : List Expr, allPass anyCode es = true
  | [] => rfl
  | e :: es => and_eq_true_iff.mpr ⟨e.passes_anyCode false, allPass_anyCode es⟩

theorem pairsPass_anyCode : ∀ ps : List (Expr × Expr), pairsPass anyCode ps = true
  | [] => rfl
  | (key, value) :: ps =>
      and_eq_true_iff.mpr ⟨and_eq_true_iff.mpr ⟨key.passes_anyCode true,
        value.passes_anyCode false⟩, pairsPass_anyCode ps⟩

theorem Block.passes_anyCode : ∀ (b : Block) (exit : Bool), b.passes anyCode exit = true
  | .mk _ ss, exit | .program ss, exit => stmtsPass_anyCode ss exit

theorem Stmt.passes_anyCode : ∀ (s : Stmt) (exit : Bool), s.passes anyCode exit = true
  | .binding _ _ value, _ => value.passes_anyCode false
  | .leave _ value, _ => and_eq_true_iff.mpr ⟨Bool.or_true _, value.passes_anyCode false⟩
  | .expression _ e, exit | .bare e, exit => e.passes_anyCode exit
  | .block (.program ss), _ => stmtsPass_anyCode ss true
  | .block (.mk _ ss), exit => stmtsPass_anyCode ss exit
  | .unknown .., _ => rfl

theorem stmtsPass_anyCode : ∀ (ss : List Stmt) (exit : Bool), stmtsPass anyCode exit ss = true
  | [], _ => rfl
  | s :: ss, exit => and_eq_true_iff.mpr ⟨s.passes_anyCode exit, stmtsPass_anyCode ss exit⟩

end

theorem Program.passes_anyCode (p : Program) : p.passes anyCode = true :=
  stmtsPass_anyCode p.statements true

end MonkeyLang
