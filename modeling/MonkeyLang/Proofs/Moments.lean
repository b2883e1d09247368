import MonkeyLang.Proofs.MoreSteps

/-!
# Moments of a run

A run takes up one task after another: an expression, some statements, a call. A
moment of a run is a task with the store in which it is taken up. A rule of the
evaluation enters the moments of the tasks that it depends on (`Enters`), and it
leaves none out: a task that runs out of steps does so because one that it enters
does (`Moment.enters_of_runsOut`).

What is true of the first moment of a run, and of a moment whenever it is true of
the one that enters it, is true of all moments of the run.
-/

namespace MonkeyLang

/-! ## Tasks -/

/-- What a run takes up. -/
inductive Task
  | expr (e : Expr) (scope : ScopeId)
  | all (es : List Expr) (scope : ScopeId)
  | pairs (pairs : List (Expr × Expr)) (entries : Entries) (scope : ScopeId)
  | loop (condition : Expr) (body : Block) (scope : ScopeId)
  | block (b : Block) (scope : ScopeId)
  | stmts (stmts : List Stmt) (last : Option Value) (scope : ScopeId)
  | stmt (stmt : Stmt) (scope : ScopeId)
  | call (function : Value) (arguments : List Value)

/-- The values that a task is given. -/
def Task.values : Task → List Value
  | .pairs _ entries _ => entries.flatMap fun e => [e.1, e.2]
  | .stmts _ last _ => last.toList
  | .call f arguments => f :: arguments
  | _ => []

theorem forall_mem_entries {P : Value → Prop} {entries : Entries}
    (h : ∀ v ∈ entries.flatMap fun e => [e.1, e.2], P v) : ∀ e ∈ entries, P e.1 ∧ P e.2 :=
  fun e he => ⟨h _ (List.mem_flatMap.mpr ⟨e, he, List.mem_cons_self⟩),
    h _ (List.mem_flatMap.mpr ⟨e, he, List.mem_cons_of_mem _ List.mem_cons_self⟩)⟩

theorem forall_mem_flatMap {P : Value → Prop} {entries : Entries}
    (h : ∀ e ∈ entries, P e.1 ∧ P e.2) : ∀ v ∈ entries.flatMap fun e => [e.1, e.2], P v := by
  intro v hv
  obtain ⟨e, he, hv⟩ := List.mem_flatMap.mp hv
  rcases List.mem_cons.mp hv with rfl | hv
  · exact (h e he).1
  · exact List.mem_singleton.mp hv ▸ (h e he).2

/-- A task and the store in which it is taken up. -/
structure Moment where
  task : Task
  store : Store

/-- The values of a list of expressions, or the error among them alone. -/
def valuesOrError : Except Value (List Value) → List Value
  | .ok vs => vs
  | .error e => [e]

/-- The values that come of the task of a moment. -/
def Moment.run (n : Nat) (m : Moment) : Outcome (List Value) :=
  match m.task with
  | .expr e scope => (evalExpr n e scope m.store).andThen fun v s => .done [v] s
  | .all es scope =>
    (evalAll n es scope m.store).andThen fun vs s => .done (valuesOrError vs) s
  | .pairs pairs entries scope =>
    (evalPairs n pairs entries scope m.store).andThen fun v s => .done [v] s
  | .loop condition body scope =>
    (evalLoop n condition body scope m.store).andThen fun v s => .done [v] s
  | .block b scope => (evalBlock n b scope m.store).andThen fun v s => .done [v] s
  | .stmts stmts last scope =>
    (evalStmts n stmts last scope m.store).andThen fun v s => .done v.toList s
  | .stmt stmt scope => (evalStmt n stmt scope m.store).andThen fun v s => .done v.toList s
  | .call f arguments => (apply n f arguments m.store).andThen fun v s => .done [v] s

/-! ## Entering -/

/-- What the values of a task are for the task that enters it. -/
inductive Role
  /-- They are used: as operands, as a condition, as elements or arguments, or they are what is
  bound or returned. -/
  | part
  /-- They are the values of the task that enters it, or stand among them. -/
  | rest
  /-- They come of the body of a function or of a program, where a `return` ends. -/
  | body
deriving DecidableEq, Repr

open Outcome in
/-- A moment enters another. -/
inductive Enters : Role → Moment → Moment → Prop
  | operand {mark operator right scope s} :
    Enters .part ⟨.expr (.prefixOp mark operator right) scope, s⟩ ⟨.expr right scope, s⟩
  | left {mark left operator right scope s} :
    Enters .part ⟨.expr (.infixOp mark left operator right) scope, s⟩ ⟨.expr left scope, s⟩
  | right {mark left operator right scope s n l s₁} :
    evalExpr n left scope s = done l s₁ → l.isError = false →
    Enters .part ⟨.expr (.infixOp mark left operator right) scope, s⟩ ⟨.expr right scope, s₁⟩
  | condition {mark condition consequence alternative scope s} :
    Enters .part ⟨.expr (.conditional mark condition consequence alternative) scope, s⟩
      ⟨.expr condition scope, s⟩
  | consequence {mark condition consequence alternative scope s n c s₁} :
    evalExpr n condition scope s = done c s₁ → c.isError = false → c.isTruthy = true →
    Enters .rest ⟨.expr (.conditional mark condition consequence alternative) scope, s⟩
      ⟨.block consequence scope, s₁⟩
  | alternative {mark condition consequence other scope s n c s₁} :
    evalExpr n condition scope s = done c s₁ → c.isError = false → c.isTruthy = false →
    Enters .rest ⟨.expr (.conditional mark condition consequence (some other)) scope, s⟩
      ⟨.block other scope, s₁⟩
  | loop {mark condition body scope s} :
    Enters .rest ⟨.expr (.loop mark condition body) scope, s⟩ ⟨.loop condition body scope, s⟩
  | function {mark function arguments scope s} :
    Enters .part ⟨.expr (.call mark function arguments) scope, s⟩ ⟨.expr function scope, s⟩
  | arguments {mark function arguments scope s n f s₁} :
    evalExpr n function scope s = done f s₁ → f.isError = false →
    Enters .part ⟨.expr (.call mark function arguments) scope, s⟩ ⟨.all arguments scope, s₁⟩
  | call {mark function arguments scope s n f s₁ k values s₂} :
    evalExpr n function scope s = done f s₁ → f.isError = false →
    evalAll k arguments scope s₁ = done (.ok values) s₂ →
    Enters .rest ⟨.expr (.call mark function arguments) scope, s⟩ ⟨.call f values, s₂⟩
  | elements {mark elements scope s} :
    Enters .part ⟨.expr (.array mark elements) scope, s⟩ ⟨.all elements scope, s⟩
  | indexed {mark left index scope s} :
    Enters .part ⟨.expr (.index mark left index) scope, s⟩ ⟨.expr left scope, s⟩
  | index {mark left index scope s n l s₁} :
    evalExpr n left scope s = done l s₁ → l.isError = false →
    Enters .part ⟨.expr (.index mark left index) scope, s⟩ ⟨.expr index scope, s₁⟩
  | hash {mark pairs scope s} :
    Enters .rest ⟨.expr (.hash mark pairs) scope, s⟩ ⟨.pairs pairs [] scope, s⟩
  | statement {stmt scope s} :
    Enters .rest ⟨.expr (.statement stmt) scope, s⟩ ⟨.stmt stmt scope, s⟩
  | first {e es scope s} : Enters .part ⟨.all (e :: es) scope, s⟩ ⟨.expr e scope, s⟩
  | others {e es scope s n v s₁} :
    evalExpr n e scope s = done v s₁ → v.isError = false →
    Enters .rest ⟨.all (e :: es) scope, s⟩ ⟨.all es scope, s₁⟩
  | key {key value pairs entries scope s} :
    Enters .part ⟨.pairs ((key, value) :: pairs) entries scope, s⟩ ⟨.expr key scope, s⟩
  | value {key value pairs entries scope s n k s₁} :
    evalExpr n key scope s = done k s₁ → k.isError = false → k.hashKey?.isNone = false →
    Enters .part ⟨.pairs ((key, value) :: pairs) entries scope, s⟩ ⟨.expr value scope, s₁⟩
  | entry {key value pairs entries scope s n k s₁ i v s₂} :
    evalExpr n key scope s = done k s₁ → k.isError = false → k.hashKey?.isNone = false →
    evalExpr i value scope s₁ = done v s₂ → v.isError = false →
    Enters .rest ⟨.pairs ((key, value) :: pairs) entries scope, s⟩
      ⟨.pairs pairs (Entries.insert k v entries) scope, s₂⟩
  | test {condition body scope s} :
    Enters .part ⟨.loop condition body scope, s⟩ ⟨.expr condition scope, s⟩
  | iteration {condition body scope s n c s₁} :
    evalExpr n condition scope s = done c s₁ → c.isError = false → c.isTruthy = true →
    Enters .rest ⟨.loop condition body scope, s⟩ ⟨.block body scope, s₁⟩
  | again {condition body scope s n c s₁ k v s₂} :
    evalExpr n condition scope s = done c s₁ → c.isError = false → c.isTruthy = true →
    evalBlock k body scope s₁ = done v s₂ → v.endsBlock = false →
    Enters .rest ⟨.loop condition body scope, s⟩ ⟨.loop condition body scope, s₂⟩
  | statements {b scope s} :
    Enters .rest ⟨.block b scope, s⟩ ⟨.stmts b.statements none scope, s⟩
  | head {stmt stmts last scope s} :
    Enters .rest ⟨.stmts (stmt :: stmts) last scope, s⟩ ⟨.stmt stmt scope, s⟩
  | next {stmt stmts last scope s n v s₁} :
    evalStmt n stmt scope s = done v s₁ → v.any Value.endsBlock = false →
    Enters .rest ⟨.stmts (stmt :: stmts) last scope, s⟩ ⟨.stmts stmts v scope, s₁⟩
  | bound {mark name value scope s} :
    Enters .part ⟨.stmt (.binding mark name value) scope, s⟩ ⟨.expr value scope, s⟩
  | returned {mark value scope s} :
    Enters .part ⟨.stmt (.leave mark value) scope, s⟩ ⟨.expr value scope, s⟩
  | expression {mark e scope s} :
    Enters .rest ⟨.stmt (.expression mark e) scope, s⟩ ⟨.expr e scope, s⟩
  | program {stmts scope s} :
    Enters .body ⟨.stmt (.block (.program stmts)) scope, s⟩ ⟨.stmts stmts none scope, s⟩
  | block {mark stmts scope s} :
    Enters .rest ⟨.stmt (.block (.mk mark stmts)) scope, s⟩ ⟨.block (.mk mark stmts) scope, s⟩
  | bare {e scope s} : Enters .rest ⟨.stmt (.bare e) scope, s⟩ ⟨.expr e scope, s⟩
  | body {id parameters body outer arguments s} : arguments.length = parameters.length →
    Enters .body ⟨.call (.function id parameters body outer) arguments, s⟩
      ⟨.block body (s.openScope (some outer)).1,
        (s.openScope (some outer)).2.bindAll (s.openScope (some outer)).1
          (parameters.map Name.value) arguments⟩

/-- A program that is run on its own reaches a moment, which was entered in a role. -/
inductive Program.Reaches (p : Program) : Role → Moment → Prop
  | start : p.Reaches .body ⟨.stmts p.statements none Store.fresh.1, Store.fresh.2⟩
  | enter {role role' m m'} : p.Reaches role m → Enters role' m m' → p.Reaches role' m'

/-! ## No task is left out -/

namespace Outcome

variable {α β : Type}

theorem andThen_eq_done {o : Outcome α} {f : α → Store → Outcome β} {b : β} {s : Store}
    (h : o.andThen f = .done b s) : ∃ a s', o = .done a s' ∧ f a s' = .done b s := by
  cases o with
  | done a s' => exact ⟨a, s', rfl, h⟩
  | fault e => exact nomatch h
  | exhausted => exact nomatch h

theorem unlessError_eq_done {o : Outcome Value} {f : Value → Store → Outcome Value} {v : Value}
    {s : Store} (h : o.unlessError f = .done v s) :
    v.isError = true ∨ ∃ w s', o = .done w s' ∧ w.isError = false ∧ f w s' = .done v s := by
  cases o with
  | done w s' =>
      rw [unlessError_done] at h
      split at h
      · rename_i herror
        obtain ⟨rfl, -⟩ := done.inj h
        exact .inl herror
      · rename_i hok
        exact .inr ⟨w, s', rfl, Bool.eq_false_iff.mpr hok, h⟩
  | fault e => exact nomatch h
  | exhausted => exact nomatch h

theorem RunsOut.of_andThen {o : Outcome α} {f : α → Store → Outcome β}
    (h : (o.andThen f).RunsOut) : o.RunsOut ∨ ∃ a s, o = .done a s ∧ (f a s).RunsOut := by
  cases o with
  | done a s => exact .inr ⟨a, s, rfl, h⟩
  | fault e => exact nomatch h
  | @exhausted t => exact .inl ⟨t, rfl⟩

theorem RunsOut.of_unlessError {o : Outcome Value} {f : Value → Store → Outcome Value}
    (h : (o.unlessError f).RunsOut) :
    o.RunsOut ∨ ∃ v s, o = .done v s ∧ v.isError = false ∧ (f v s).RunsOut := by
  cases o with
  | done v s =>
      rw [unlessError_done] at h
      split at h
      · exact nomatch h
      · rename_i hv
        exact .inr ⟨v, s, rfl, Bool.eq_false_iff.mpr hv, h⟩
  | fault e => exact nomatch h
  | @exhausted t => exact .inl ⟨t, rfl⟩

theorem andThen_done_runsOut {o : Outcome α} {f : α → Store → β} :
    (o.andThen fun a s => .done (f a s) s).RunsOut ↔ o.RunsOut := by
  constructor
  · intro h
    rcases h.of_andThen with h | ⟨a, s, -, h⟩
    · exact h
    · exact nomatch h
  · rintro ⟨t, rfl⟩
    exact ⟨t, rfl⟩

end Outcome

/-- The task of a moment runs out of steps. -/
def Moment.Exhausts (n : Nat) (m : Moment) : Prop :=
  match m.task with
  | .expr e scope => (evalExpr n e scope m.store).RunsOut
  | .all es scope => (evalAll n es scope m.store).RunsOut
  | .pairs pairs entries scope => (evalPairs n pairs entries scope m.store).RunsOut
  | .loop condition body scope => (evalLoop n condition body scope m.store).RunsOut
  | .block b scope => (evalBlock n b scope m.store).RunsOut
  | .stmts stmts last scope => (evalStmts n stmts last scope m.store).RunsOut
  | .stmt stmt scope => (evalStmt n stmt scope m.store).RunsOut
  | .call f arguments => (apply n f arguments m.store).RunsOut

theorem Moment.run_runsOut {n : Nat} {m : Moment} : (m.run n).RunsOut ↔ m.Exhausts n := by
  obtain ⟨task, s⟩ := m
  cases task <;> exact Outcome.andThen_done_runsOut

section Entered

open Outcome

variable {n : Nat} {s : Store} {scope : ScopeId}

theorem enters_of_evalExpr {e : Expr} (h : (evalExpr (n + 1) e scope s).RunsOut) :
    ∃ role m, Enters role ⟨.expr e scope, s⟩ m ∧ m.Exhausts n := by
  unfold evalExpr at h
  cases e with
  | identifier _ _ | integer _ _ | string _ _ | boolean _ _ | function _ _ _ | unknown _ _ =>
      exact nomatch h
  | prefixOp _ _ right =>
      rcases h.of_unlessError with h | ⟨_, _, -, -, h⟩
      · exact ⟨_, _, .operand, h⟩
      · exact nomatch h
  | infixOp _ left _ right =>
      rcases h.of_unlessError with h | ⟨l, s₁, hl, hok, h⟩
      · exact ⟨_, _, .left, h⟩
      rcases h.of_unlessError with h | ⟨_, _, -, -, h⟩
      · exact ⟨_, _, .right hl hok, h⟩
      · exact nomatch h
  | conditional _ condition consequence alternative =>
      rcases h.of_unlessError with h | ⟨c, s₁, hc, hok, h⟩
      · exact ⟨_, _, .condition, h⟩
      split at h
      · rename_i htrue
        exact ⟨_, _, .consequence hc hok htrue, h⟩
      · rename_i hfalse
        cases alternative with
        | none => exact nomatch h
        | some other => exact ⟨_, _, .alternative hc hok (Bool.eq_false_iff.mpr hfalse), h⟩
  | loop _ _ _ => exact ⟨_, _, .loop, h⟩
  | call _ function arguments =>
      rcases h.of_unlessError with h | ⟨f, s₁, hf, hok, h⟩
      · exact ⟨_, _, .function, h⟩
      rcases h.of_andThen with h | ⟨vs, s₂, hvs, h⟩
      · exact ⟨_, _, .arguments hf hok, h⟩
      cases vs with
      | error e => exact nomatch h
      | ok values => exact ⟨_, _, .call hf hok hvs, h⟩
  | array _ elements =>
      rcases h.of_andThen with h | ⟨vs, _, -, h⟩
      · exact ⟨_, _, .elements, h⟩
      cases vs <;> exact nomatch h
  | index _ left index =>
      rcases h.of_unlessError with h | ⟨l, s₁, hl, hok, h⟩
      · exact ⟨_, _, .indexed, h⟩
      rcases h.of_unlessError with h | ⟨_, _, -, -, h⟩
      · exact ⟨_, _, .index hl hok, h⟩
      · exact nomatch h
  | hash _ _ => exact ⟨_, _, .hash, h⟩
  | statement _ => exact ⟨_, _, .statement, andThen_done_runsOut.mp h⟩

theorem enters_of_evalAll {es : List Expr} (h : (evalAll (n + 1) es scope s).RunsOut) :
    ∃ role m, Enters role ⟨.all es scope, s⟩ m ∧ m.Exhausts n := by
  unfold evalAll at h
  cases es with
  | nil => exact nomatch h
  | cons e es =>
      rcases h.of_andThen with h | ⟨v, s₁, hv, h⟩
      · exact ⟨_, _, .first, h⟩
      split at h
      · exact nomatch h
      · rename_i hok
        exact ⟨_, _, .others hv (Bool.eq_false_iff.mpr hok), andThen_done_runsOut.mp h⟩

theorem enters_of_evalPairs {pairs : List (Expr × Expr)} {entries : Entries}
    (h : (evalPairs (n + 1) pairs entries scope s).RunsOut) :
    ∃ role m, Enters role ⟨.pairs pairs entries scope, s⟩ m ∧ m.Exhausts n := by
  unfold evalPairs at h
  cases pairs with
  | nil => exact nomatch h
  | cons pair pairs =>
      rcases h.of_unlessError with h | ⟨k, s₁, hk, hok, h⟩
      · exact ⟨_, _, .key, h⟩
      split at h
      · exact nomatch h
      · rename_i hkey
        rcases h.of_unlessError with h | ⟨v, s₂, hv, hok', h⟩
        · exact ⟨_, _, .value hk hok (Bool.eq_false_iff.mpr hkey), h⟩
        · exact ⟨_, _, .entry hk hok (Bool.eq_false_iff.mpr hkey) hv hok', h⟩

theorem enters_of_evalLoop {condition : Expr} {body : Block}
    (h : (evalLoop (n + 1) condition body scope s).RunsOut) :
    ∃ role m, Enters role ⟨.loop condition body scope, s⟩ m ∧ m.Exhausts n := by
  unfold evalLoop at h
  rcases h.of_unlessError with h | ⟨c, s₁, hc, hok, h⟩
  · exact ⟨_, _, .test, h⟩
  split at h
  · rename_i htrue
    rcases h.of_andThen with h | ⟨v, s₂, hv, h⟩
    · exact ⟨_, _, .iteration hc hok htrue, h⟩
    split at h
    · exact nomatch h
    · rename_i hends
      exact ⟨_, _, .again hc hok htrue hv (Bool.eq_false_iff.mpr hends), h⟩
  · exact nomatch h

theorem enters_of_evalBlock {b : Block} (h : (evalBlock (n + 1) b scope s).RunsOut) :
    ∃ role m, Enters role ⟨.block b scope, s⟩ m ∧ m.Exhausts n := by
  unfold evalBlock at h
  exact ⟨_, _, .statements, andThen_done_runsOut.mp h⟩

theorem enters_of_evalStmts {stmts : List Stmt} {last : Option Value}
    (h : (evalStmts (n + 1) stmts last scope s).RunsOut) :
    ∃ role m, Enters role ⟨.stmts stmts last scope, s⟩ m ∧ m.Exhausts n := by
  unfold evalStmts at h
  cases stmts with
  | nil => exact nomatch h
  | cons stmt stmts =>
      rcases h.of_andThen with h | ⟨v, s₁, hv, h⟩
      · exact ⟨_, _, .head, h⟩
      split at h
      · exact nomatch h
      · rename_i hends
        exact ⟨_, _, .next hv (Bool.eq_false_iff.mpr hends), h⟩

theorem enters_of_evalStmt {stmt : Stmt} (h : (evalStmt (n + 1) stmt scope s).RunsOut) :
    ∃ role m, Enters role ⟨.stmt stmt scope, s⟩ m ∧ m.Exhausts n := by
  unfold evalStmt at h
  match stmt with
  | .binding _ _ value =>
      rcases h.of_andThen with h | ⟨_, _, -, h⟩
      · exact ⟨_, _, .bound, h⟩
      split at h <;> exact nomatch h
  | .leave _ value =>
      rcases (andThen_done_runsOut.mp h).of_unlessError with h | ⟨_, _, -, -, h⟩
      · exact ⟨_, _, .returned, h⟩
      · exact nomatch h
  | .expression _ _ => exact ⟨_, _, .expression, andThen_done_runsOut.mp h⟩
  | .block (.program _) => exact ⟨_, _, .program, andThen_done_runsOut.mp h⟩
  | .block (.mk _ _) => exact ⟨_, _, .block, andThen_done_runsOut.mp h⟩
  | .bare _ => exact ⟨_, _, .bare, andThen_done_runsOut.mp h⟩
  | .unknown _ _ => exact nomatch h

theorem enters_of_apply {f : Value} {arguments : List Value}
    (h : (apply (n + 1) f arguments s).RunsOut) :
    ∃ role m, Enters role ⟨.call f arguments, s⟩ m ∧ m.Exhausts n := by
  unfold apply at h
  cases f with
  | function _ parameters _ _ =>
      dsimp only at h
      split at h
      · exact nomatch h
      · rename_i hlength
        exact ⟨_, _, .body (Decidable.of_not_not hlength), andThen_done_runsOut.mp h⟩
  | _ => exact nomatch h

/-- **No task is left out.** A task that runs out of steps enters one that does. -/
theorem Moment.enters_of_runsOut {m : Moment} (h : (m.run (n + 1)).RunsOut) :
    ∃ role m', Enters role m m' ∧ (m'.run n).RunsOut := by
  simp only [run_runsOut] at h ⊢
  obtain ⟨task, s⟩ := m
  cases task with
  | expr e scope => exact enters_of_evalExpr h
  | all es scope => exact enters_of_evalAll h
  | pairs pairs entries scope => exact enters_of_evalPairs h
  | loop condition body scope => exact enters_of_evalLoop h
  | block b scope => exact enters_of_evalBlock h
  | stmts stmts last scope => exact enters_of_evalStmts h
  | stmt stmt scope => exact enters_of_evalStmt h
  | call f arguments => exact enters_of_apply h

end Entered

end MonkeyLang
