import MonkeyLang.Store
import MonkeyLang.Value.Builtin
import MonkeyLang.Value.Operator

/-!
# Evaluation

The value of a tree in a scope. Errors and returned values travel as values: each rule looks at
what its parts yield, passes an error on at once, and a block ends at the first statement whose
value is an error or a returned value. A call removes one level of `return`, and so does a program.

Programs need not end, so evaluation has an allowance of steps. More steps never change an answer;
running out of them is told apart from every answer.
-/

namespace MonkeyLang

/-! ## Outcomes -/

/-- Why a tree cannot be evaluated. The parser builds no such tree. -/
inductive Fault
  | noRule (kind : String) (mark : Mark)
deriving DecidableEq, Repr

def Fault.message : Fault → String
  | .noRule kind mark =>
    "No evaluation rule for node kind '" ++ kind ++ "' (line " ++ toString mark.place.line ++
      ", col " ++ toString mark.place.column ++ ")"

/-- How an evaluation ends: with an answer and the store after it, at a node that cannot be
evaluated, or out of steps. Where it is broken off like this, the store stays as it is by then;
that is an implicit argument, because no rule looks at it. -/
inductive Outcome (α : Type)
  | done (answer : α) (store : Store)
  | fault {t : Store} (fault : Fault)
  | exhausted {t : Store}

namespace Outcome

variable {α β : Type}

/-- Goes on with an answer. -/
@[inline] def andThen (o : Outcome α) (f : α → Store → Outcome β) : Outcome β :=
  match o with
  | done a s => f a s
  | @fault _ t e => fault (t := t) e
  | @exhausted _ t => exhausted (t := t)

/-- Goes on with a value that is not an error; an error is the answer. -/
@[inline] def unlessError (o : Outcome Value) (f : Value → Store → Outcome Value) :
    Outcome Value :=
  match o with
  | done v s => if v.isError then done v s else f v s
  | @fault _ t e => fault (t := t) e
  | @exhausted _ t => exhausted (t := t)

@[simp] theorem andThen_done (a : α) (s : Store) (f : α → Store → Outcome β) :
    (done a s).andThen f = f a s := rfl

@[simp] theorem andThen_fault (t : Store) (e : Fault) (f : α → Store → Outcome β) :
    (fault (t := t) e).andThen f = fault (t := t) e := rfl

@[simp] theorem andThen_exhausted (t : Store) (f : α → Store → Outcome β) :
    (exhausted (t := t) : Outcome α).andThen f = exhausted (t := t) := rfl

@[simp] theorem unlessError_done (v : Value) (s : Store) (f : Value → Store → Outcome Value) :
    (done v s).unlessError f = if v.isError then done v s else f v s := rfl

@[simp] theorem unlessError_fault (t : Store) (e : Fault) (f : Value → Store → Outcome Value) :
    (fault (t := t) e).unlessError f = fault (t := t) e := rfl

@[simp] theorem unlessError_exhausted (t : Store) (f : Value → Store → Outcome Value) :
    (exhausted (t := t) : Outcome Value).unlessError f = exhausted (t := t) := rfl

/-- The store that an evaluation has come to. -/
def store : Outcome α → Store
  | done _ s => s
  | @fault _ t _ => t
  | @exhausted _ t => t

/-- The steps have run out. -/
def RunsOut (o : Outcome α) : Prop := ∃ t, o = exhausted (t := t)

end Outcome

/-- Ends with the value of a draft. -/
def Store.yield (s : Store) (d : Draft) : Outcome Value :=
  .done (s.make d).1 (s.make d).2

/-- The value of a name: what the nearest scope binds it to, or else the built-in function of that
name. -/
def Store.valueOf (s : Store) (scope : ScopeId) (name : String) : Draft :=
  match s.find? scope name with
  | some v => .existing v
  | none =>
    match Builtin.ofName? name with
    | some b => .existing (.builtin b)
    | none => .error (.unboundName name)

/-! ## Rules -/

mutual

def evalExpr : Nat → Expr → ScopeId → Store → Outcome Value
  | 0, _, _, s => .exhausted (t := s)
  | n + 1, e, scope, s =>
    match e with
    | .identifier _ name => s.yield (s.valueOf scope name)
    | .integer _ value => s.yield (.integer value)
    | .string _ value => s.yield (.string value)
    | .boolean _ value => s.yield (.boolean value)
    | .prefixOp _ operator right =>
      (evalExpr n right scope s).unlessError fun r s => s.yield (r.prefixOp operator)
    | .infixOp _ left operator right =>
      (evalExpr n left scope s).unlessError fun l s =>
      (evalExpr n right scope s).unlessError fun r s =>
      s.yield (l.infixOp operator r)
    | .conditional _ condition consequence alternative =>
      (evalExpr n condition scope s).unlessError fun c s =>
      if c.isTruthy then evalBlock n consequence scope s
      else
        match alternative with
        | some other => evalBlock n other scope s
        | none => .done .null s
    | .loop _ condition body => evalLoop n condition body scope s
    | .function _ parameters body => s.yield (.function parameters body scope)
    | .call _ function arguments =>
      (evalExpr n function scope s).unlessError fun f s =>
      (evalAll n arguments scope s).andThen fun arguments s =>
      match arguments with
      | .ok values => apply n f values s
      | .error e => .done e s
    | .array _ elements =>
      (evalAll n elements scope s).andThen fun elements s =>
      match elements with
      | .ok values => s.yield (.array values)
      | .error e => .done e s
    | .index _ left index =>
      (evalExpr n left scope s).unlessError fun l s =>
      (evalExpr n index scope s).unlessError fun i s =>
      s.yield (l.indexOp i)
    | .hash _ pairs => evalPairs n pairs [] scope s
    | .statement stmt =>
      (evalStmt n stmt scope s).andThen fun v s => .done (v.getD .null) s
    | .unknown mark kind => .fault (t := s) (.noRule kind mark)

/-- The values of some expressions from left to right, or the first error among them. -/
def evalAll : Nat → List Expr → ScopeId → Store → Outcome (Except Value (List Value))
  | 0, _, _, s => .exhausted (t := s)
  | n + 1, es, scope, s =>
    match es with
    | [] => .done (.ok []) s
    | e :: es =>
      (evalExpr n e scope s).andThen fun v s =>
      if v.isError then .done (.error v) s
      else
        (evalAll n es scope s).andThen fun vs s =>
        .done (vs.map (v :: ·)) s

/-- The hash of some pairs, written one after another onto entries. Of each pair the key comes
first, and it must be usable as a key before the value is computed. -/
def evalPairs : Nat → List (Expr × Expr) → Entries → ScopeId → Store → Outcome Value
  | 0, _, _, _, s => .exhausted (t := s)
  | n + 1, pairs, entries, scope, s =>
    match pairs with
    | [] => s.yield (.hash entries)
    | (key, value) :: pairs =>
      (evalExpr n key scope s).unlessError fun k s =>
      if k.hashKey?.isNone then s.yield (.error (.unusableKey k.type))
      else
        (evalExpr n value scope s).unlessError fun v s =>
        evalPairs n pairs (Entries.insert k v entries) scope s

/-- The value of a loop: null once the condition does not count as true, or the value that ends
the body of an iteration early. -/
def evalLoop : Nat → (condition : Expr) → (body : Block) → ScopeId → Store → Outcome Value
  | 0, _, _, _, s => .exhausted (t := s)
  | n + 1, condition, body, scope, s =>
    (evalExpr n condition scope s).unlessError fun c s =>
    if c.isTruthy then
      (evalBlock n body scope s).andThen fun v s =>
      if v.endsBlock then .done v s else evalLoop n condition body scope s
    else .done .null s

/-- The value of a block: that of its last statement, null if that has none. -/
def evalBlock : Nat → Block → ScopeId → Store → Outcome Value
  | 0, _, _, s => .exhausted (t := s)
  | n + 1, b, scope, s =>
    (evalStmts n b.statements none scope s).andThen fun last s =>
    .done (last.getD .null) s

/-- The value of the last of some statements, `last` if there is none. The first statement whose
value is an error or a returned value ends them. -/
def evalStmts : Nat → List Stmt → (last : Option Value) → ScopeId → Store →
    Outcome (Option Value)
  | 0, _, _, _, s => .exhausted (t := s)
  | n + 1, stmts, last, scope, s =>
    match stmts with
    | [] => .done last s
    | stmt :: stmts =>
      (evalStmt n stmt scope s).andThen fun v s =>
      if v.any Value.endsBlock then .done v s else evalStmts n stmts v scope s

/-- The value of a statement. A binding has none, unless it fails. -/
def evalStmt : Nat → Stmt → ScopeId → Store → Outcome (Option Value)
  | 0, _, _, s => .exhausted (t := s)
  | n + 1, stmt, scope, s =>
    match stmt with
    | .binding _ name value =>
      (evalExpr n value scope s).andThen fun v s =>
      if v.isError then .done (some v) s else .done none (s.bind scope name.value v)
    | .leave _ value =>
      ((evalExpr n value scope s).unlessError fun v s => s.yield (.returned v)).andThen
        fun v s => .done (some v) s
    | .expression _ e => (evalExpr n e scope s).andThen fun v s => .done (some v) s
    | .block (.program stmts) =>
      (evalStmts n stmts none scope s).andThen fun last s =>
      .done (last.map Value.unwrapped) s
    | .block b => (evalBlock n b scope s).andThen fun v s => .done (some v) s
    | .bare e => (evalExpr n e scope s).andThen fun v s => .done (some v) s
    | .unknown mark kind => .fault (t := s) (.noRule kind mark)

/-- A value called with arguments. The body of a function is evaluated in a new scope inside the
one that the function was made in. -/
def apply : Nat → (function : Value) → (arguments : List Value) → Store → Outcome Value
  | 0, _, _, s => .exhausted (t := s)
  | n + 1, f, arguments, s =>
    match f with
    | .function _ parameters body outer =>
      if arguments.length ≠ parameters.length then
        s.yield (.error (.argumentCount parameters.length arguments.length))
      else
        let scope := s.openScope (some outer)
        (evalBlock n body scope.1
            (scope.2.bindAll scope.1 (parameters.map Name.value) arguments)).andThen
          fun v s => .done v.unwrapped s
    | .builtin b => s.yield (b.apply arguments)
    | _ => s.yield (.error (.notFunction f.type))

end

/-! ## Programs and nodes -/

/-- The value of a program in a scope: that of its last statement, if it has one. -/
def evalProgram (n : Nat) (p : Program) (scope : ScopeId) (s : Store) : Outcome (Option Value) :=
  (evalStmts n p.statements none scope s).andThen fun last s =>
  .done (last.map Value.unwrapped) s

/-- The value of any node in a scope, if it has one. -/
def evalNode (n : Nat) (node : Node) (scope : ScopeId) (s : Store) : Outcome (Option Value) :=
  match node with
  | .program p => evalProgram n p scope s
  | .statement stmt => evalStmt n stmt scope s
  | .expression e => (evalExpr n e scope s).andThen fun v s => .done (some v) s

/-- The allowance of steps of a run, 2^62: more than any machine can take. -/
def stepLimit : Nat := 0x4000000000000000

def Program.run (p : Program) (scope : ScopeId) (s : Store) : Outcome (Option Value) :=
  evalProgram stepLimit p scope s

/-- Runs a program in a scope of its own. -/
def Program.runFresh (p : Program) (s : Store) : Outcome (Option Value) :=
  let scope := s.openScope none
  p.run scope.1 scope.2

end MonkeyLang
