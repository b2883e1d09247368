import MonkeyLang.Eval

/-!
# Evaluation with exceptions

What programs mean if errors are thrown, in place of being values that each rule has
to look for. A rule that goes wrong throws, nothing in a program catches an error, and
so no rule asks whether a part has gone wrong: of two parts the first one that throws
is the last one that is evaluated.

A `return` may be thrown as well. It then ends the innermost call that is going on, or
the program, with its operand. Or else its operand travels, wrapped, as the value of
the statement, up to the end of the function or the program.

Errors and wrapped operands are new objects. What is thrown takes an identity as they
do, so that objects that are made later have the same identities in all cases.
-/

namespace MonkeyLang

/-- How a `return` comes to the end of its function. -/
inductive Returning
  | wrapped
  | thrown
deriving DecidableEq, Repr

namespace Returning

/-- A value ends the block in which a statement has it. -/
def ends : Returning → Value → Bool
  | wrapped, .returned .. => true
  | _, _ => false

/-- What a function or a program whose statements have come to an end yields. -/
def received : Returning → Value → Value
  | wrapped, v => v.unwrapped
  | thrown, v => v

end Returning

/-! ## Verdicts -/

/-- What is thrown: an error, or the operand of a `return`. -/
inductive Exit
  | failure (id : ObjectId) (error : RuntimeError)
  | leaving (id : ObjectId) (value : Value)

/-- The value that stands for an exit where nothing is thrown. -/
def Exit.value : Exit → Value
  | failure id e => .error id e
  | leaving id v => .returned id v

/-- How an evaluation with exceptions ends: with an answer or an exit and the store after
it, at a node that cannot be evaluated, or out of steps. -/
inductive Verdict (α : Type)
  | value (answer : α) (store : Store)
  | thrown (exit : Exit) (store : Store)
  | fault (fault : Fault)
  | exhausted

namespace Verdict

variable {α β : Type}

/-- Goes on with an answer. -/
def andThen (r : Verdict α) (f : α → Store → Verdict β) : Verdict β :=
  match r with
  | value a s => f a s
  | thrown x s => thrown x s
  | fault e => fault e
  | exhausted => exhausted

/-- Catches a `return`: an answer is passed on, the operand of a `return` is received. -/
def caught (r : Verdict α) (pass : α → β) (receive : Value → β) : Verdict β :=
  match r with
  | value a s => value (pass a) s
  | thrown (.leaving _ v) s => value (receive v) s
  | thrown (.failure id e) s => thrown (.failure id e) s
  | fault e => fault e
  | exhausted => exhausted

end Verdict

/-- Ends with the value of a draft, or throws the error that it is. -/
def Store.conclude (s : Store) (d : Draft) : Verdict Value :=
  match d with
  | .error e => .thrown (.failure s.nextId e) (s.make d).2
  | d => .value (s.make d).1 (s.make d).2

/-- Ends a statement that returns a value. -/
def Store.leave (s : Store) (how : Returning) (v : Value) : Verdict (Option Value) :=
  match how with
  | .wrapped => .value (some (s.make (.returned v)).1) (s.make (.returned v)).2
  | .thrown => .thrown (.leaving s.nextId v) (s.make (.returned v)).2

/-! ## Rules -/

namespace Throwing

variable (how : Returning)

mutual

def expr : Nat → Expr → ScopeId → Store → Verdict Value
  | 0, _, _, _ => .exhausted
  | n + 1, e, scope, s =>
    match e with
    | .identifier _ name => s.conclude (s.valueOf scope name)
    | .integer _ value => s.conclude (.integer value)
    | .string _ value => s.conclude (.string value)
    | .boolean _ value => s.conclude (.boolean value)
    | .prefixOp _ operator right =>
      (expr n right scope s).andThen fun r s => s.conclude (r.prefixOp operator)
    | .infixOp _ left operator right =>
      (expr n left scope s).andThen fun l s =>
      (expr n right scope s).andThen fun r s =>
      s.conclude (l.infixOp operator r)
    | .conditional _ condition consequence alternative =>
      (expr n condition scope s).andThen fun c s =>
      if c.isTruthy then block n consequence scope s
      else
        match alternative with
        | some other => block n other scope s
        | none => .value .null s
    | .loop _ condition body => loop n condition body scope s
    | .function _ parameters body => s.conclude (.function parameters body scope)
    | .call _ function arguments =>
      (expr n function scope s).andThen fun f s =>
      (all n arguments scope s).andThen fun values s =>
      call n f values s
    | .array _ elements =>
      (all n elements scope s).andThen fun values s => s.conclude (.array values)
    | .index _ left index =>
      (expr n left scope s).andThen fun l s =>
      (expr n index scope s).andThen fun i s =>
      s.conclude (l.indexOp i)
    | .hash _ ps => pairs n ps [] scope s
    | .statement st => (stmt n st scope s).andThen fun v s => .value (v.getD .null) s
    | .unknown mark kind => .fault (.noRule kind mark)

/-- The values of some expressions, from left to right. -/
def all : Nat → List Expr → ScopeId → Store → Verdict (List Value)
  | 0, _, _, _ => .exhausted
  | n + 1, es, scope, s =>
    match es with
    | [] => .value [] s
    | e :: es =>
      (expr n e scope s).andThen fun v s =>
      (all n es scope s).andThen fun vs s =>
      .value (v :: vs) s

/-- The hash of some pairs. Of each pair the key comes first, and it must be usable as a
key before the value is computed. -/
def pairs : Nat → List (Expr × Expr) → Entries → ScopeId → Store → Verdict Value
  | 0, _, _, _, _ => .exhausted
  | n + 1, ps, entries, scope, s =>
    match ps with
    | [] => s.conclude (.hash entries)
    | (key, value) :: ps =>
      (expr n key scope s).andThen fun k s =>
      if k.hashKey?.isNone then s.conclude (.error (.unusableKey k.type))
      else
        (expr n value scope s).andThen fun v s =>
        pairs n ps (Entries.insert k v entries) scope s

/-- The value of a loop: null once the condition does not count as true. -/
def loop : Nat → (condition : Expr) → (body : Block) → ScopeId → Store → Verdict Value
  | 0, _, _, _, _ => .exhausted
  | n + 1, condition, body, scope, s =>
    (expr n condition scope s).andThen fun c s =>
    if c.isTruthy then
      (block n body scope s).andThen fun v s =>
      if how.ends v then .value v s else loop n condition body scope s
    else .value .null s

/-- The value of a block: that of its last statement, null if that has none. -/
def block : Nat → Block → ScopeId → Store → Verdict Value
  | 0, _, _, _ => .exhausted
  | n + 1, b, scope, s =>
    (stmts n b.statements none scope s).andThen fun last s => .value (last.getD .null) s

/-- The value of the last of some statements, `last` if there is none. -/
def stmts : Nat → List Stmt → (last : Option Value) → ScopeId → Store → Verdict (Option Value)
  | 0, _, _, _, _ => .exhausted
  | n + 1, ss, last, scope, s =>
    match ss with
    | [] => .value last s
    | st :: ss =>
      (stmt n st scope s).andThen fun v s =>
      if v.any how.ends then .value v s else stmts n ss v scope s

/-- The value of a statement. A binding has none. -/
def stmt : Nat → Stmt → ScopeId → Store → Verdict (Option Value)
  | 0, _, _, _ => .exhausted
  | n + 1, st, scope, s =>
    match st with
    | .binding _ name value =>
      (expr n value scope s).andThen fun v s => .value none (s.bind scope name.value v)
    | .leave _ value => (expr n value scope s).andThen fun v s => s.leave how v
    | .expression _ e => (expr n e scope s).andThen fun v s => .value (some v) s
    | .block (.program ss) => (stmts n ss none scope s).caught (Option.map how.received) some
    | .block b => (block n b scope s).andThen fun v s => .value (some v) s
    | .bare e => (expr n e scope s).andThen fun v s => .value (some v) s
    | .unknown mark kind => .fault (.noRule kind mark)

/-- A value called with arguments. -/
def call : Nat → (function : Value) → (arguments : List Value) → Store → Verdict Value
  | 0, _, _, _ => .exhausted
  | n + 1, f, arguments, s =>
    match f with
    | .function _ parameters body outer =>
      if arguments.length ≠ parameters.length then
        s.conclude (.error (.argumentCount parameters.length arguments.length))
      else
        let scope := s.openScope (some outer)
        (block n body scope.1
          (scope.2.bindAll scope.1 (parameters.map Name.value) arguments)).caught how.received id
    | .builtin b => s.conclude (b.apply arguments)
    | _ => s.conclude (.error (.notFunction f.type))

end

/-- The value of a program in a scope: that of its last statement, if it has one. -/
def program (n : Nat) (p : Program) (scope : ScopeId) (s : Store) : Verdict (Option Value) :=
  (stmts how n p.statements none scope s).caught (Option.map how.received) some

end Throwing

end MonkeyLang
