import MonkeyLang.Proofs.ClosedMoments
import MonkeyLang.Proofs.HostOperations
import MonkeyLang.Proofs.ParsedNodes

/-!
# Programs that can be evaluated

A program that has been parsed is well formed and can be evaluated, whether or not its text has
syntax errors: in any scope that runs of such programs have opened, no moment of a run asks the
host for anything that it refuses (`parsed_programs_are_evaluable`).

`Moment.Asks` says what a moment asks of the host and with which answer the evaluation goes on. The
operators, the index operator and the built-in functions make their own tests. The rest depends on
what is known of the whole run: its code is in place, which only the parser can have seen to, and
its scopes have all been opened inside earlier ones.
-/

namespace MonkeyLang

/-! ## Rules and scopes of the host -/

namespace Host

mutual

theorem kind_ruled_expr : ∀ e : Expr, e.isKnown = true → ruledKinds.contains e.kind = true
  | .identifier .., _ | .integer .., _ | .string .., _ | .boolean .., _ | .prefixOp .., _
  | .infixOp .., _ | .conditional .., _ | .loop .., _ | .function .., _ | .call .., _
  | .array .., _ | .index .., _ | .hash .., _ => by rw [Expr.kind]; decide
  | .statement s, h => kind_ruled_stmt s h

theorem kind_ruled_stmt : ∀ s : Stmt, s.isKnown = true → ruledKinds.contains s.kind = true
  | .binding .., _ | .leave .., _ | .expression .., _ | .block (.mk ..), _
  | .block (.program _), _ => by rw [Stmt.kind]; decide
  | .bare e, h => kind_ruled_expr e h

end

/-- There is a rule for every known node. -/
theorem rule_eq {n : Node} (h : n.isKnown = true) : rule n = .ok () := by
  refine if_pos ?_
  cases n with
  | program p => rw [Node.kind]; decide
  | statement s => exact kind_ruled_stmt s h
  | expression e => exact kind_ruled_expr e h

variable {s : Store}

theorem lookUpWithin_eq (h : s.Closed) (name : String) : ∀ {n k : Nat} {scope : ScopeId},
    scope < n → scope < k → scope < s.scopes.size →
    lookUpWithin s n scope name = .ok (s.findWithin k scope name)
  | n + 1, k + 1, scope, hn, hk, hscope => by
      have hget := Array.getElem?_eq_getElem hscope
      rw [lookUpWithin, Store.findWithin, hget]
      cases hown : s.scopes[scope].own? name with
      | some v => simp only [hown]
      | none =>
          cases houter : s.scopes[scope].outer with
          | none => simp only [hown, houter]
          | some outer =>
              have hlt := h.outer_lt scope _ hget outer houter
              simp only [hown, houter]
              exact lookUpWithin_eq h name (Nat.lt_of_lt_of_le hlt (Nat.le_of_lt_succ hn))
                (Nat.lt_of_lt_of_le hlt (Nat.le_of_lt_succ hk)) (Nat.lt_trans hlt hscope)

/-- In a closed store every way outward comes to an end. -/
theorem lookUp_eq (h : s.Closed) {scope : ScopeId} (hscope : scope < s.scopes.size)
    (name : String) : lookUp s scope name = .ok (s.find? scope name) :=
  lookUpWithin_eq h name hscope (Nat.lt_succ_self _) hscope

theorem bind_eq {scope : ScopeId} (h : scope < s.scopes.size) (name : String) (v : Value) :
    bind s scope name v = .ok (s.bind scope name v) := if_pos h

theorem bindAll_eq : ∀ {names : List String} {vs : List Value} {s : Store} {scope : ScopeId},
    scope < s.scopes.size → bindAll s scope names vs = .ok (s.bindAll scope names vs)
  | [], _, _, _, _ | _ :: _, [], _, _, _ => rfl
  | name :: names, v :: vs, s, scope, h => by
      rw [bindAll, bind_eq h]
      exact bindAll_eq ((s.grows_bind scope name v).scope_lt h)

theorem openScope_eq {outer : ScopeId} (h : outer < s.scopes.size) :
    openScope s outer = .ok (s.openScope (some outer)) := if_pos h

end Host

/-! ## What a moment asks of the host -/

open Outcome in
/-- A moment asks the host for an operation, and the evaluation goes on with the given answer. -/
inductive Moment.Asks : Moment → {α : Type} → Except Refusal α → α → Prop
  /-- Each expression and each statement asks for its rule. -/
  | expr {e scope s} : Asks ⟨.expr e scope, s⟩ (Host.rule (.expression e)) ()
  | stmt {st scope s} : Asks ⟨.stmt st scope, s⟩ (Host.rule (.statement st)) ()
  | name {mark name scope s} :
    Asks ⟨.expr (.identifier mark name) scope, s⟩ (Host.lookUp s scope name) (s.find? scope name)
  | operation {mark left operator right scope s n l s₁ k r s₂} :
    evalExpr n left scope s = done l s₁ → l.isError = false →
    evalExpr k right scope s₁ = done r s₂ → r.isError = false →
    Asks ⟨.expr (.infixOp mark left operator right) scope, s⟩ (Host.infixOp operator l r)
      (l.infixOp operator r)
  | index {mark left index scope s n l s₁ k i s₂} :
    evalExpr n left scope s = done l s₁ → l.isError = false →
    evalExpr k index scope s₁ = done i s₂ → i.isError = false →
    Asks ⟨.expr (.index mark left index) scope, s⟩ (Host.indexOp l i) (l.indexOp i)
  | entry {key value pairs entries scope s n k s₁ i v s₂} :
    evalExpr n key scope s = done k s₁ → k.isError = false → k.hashKey?.isNone = false →
    evalExpr i value scope s₁ = done v s₂ → v.isError = false →
    Asks ⟨.pairs ((key, value) :: pairs) entries scope, s⟩ (Host.insert k v entries)
      (Entries.insert k v entries)
  | binding {mark name value scope s n v s₁} :
    evalExpr n value scope s = done v s₁ → v.isError = false →
    Asks ⟨.stmt (.binding mark name value) scope, s⟩ (Host.bind s₁ scope name.value v)
      (s₁.bind scope name.value v)
  | scope {id parameters body outer arguments s} : arguments.length = parameters.length →
    Asks ⟨.call (.function id parameters body outer) arguments, s⟩ (Host.openScope s outer)
      (s.openScope (some outer))
  | parameters {id parameters body outer arguments s} : arguments.length = parameters.length →
    Asks ⟨.call (.function id parameters body outer) arguments, s⟩
      (Host.bindAll (s.openScope (some outer)).2 (s.openScope (some outer)).1
        (parameters.map Name.value) arguments)
      ((s.openScope (some outer)).2.bindAll (s.openScope (some outer)).1
        (parameters.map Name.value) arguments)
  | builtin {b arguments s} :
    Asks ⟨.call (.builtin b) arguments, s⟩ (Host.builtin b arguments) (b.apply arguments)

/-- In a closed store, and where all code is known, nothing is refused. -/
theorem Moment.Asks.answered {m : Moment} {α : Type} {o : Except Refusal α} {a : α}
    (h : m.Asks o a) (hclosed : m.Closed) (hknown : m.Known) : o = .ok a := by
  obtain ⟨hs, hscope, hvalues⟩ := hclosed
  cases h with
  | expr | stmt => exact Host.rule_eq hknown.code
  | name => exact Host.lookUp_eq hs hscope _
  | operation => exact Host.infixOp_eq _ _ _
  | index => exact Host.indexOp_eq _ _
  | entry _ _ hkey => exact Host.insert_eq hkey _ _
  | binding hvalue => exact Host.bind_eq (hs.expr hscope hvalue).2.1 _ _
  | scope =>
      -- a function knows the scope that it was made in, which is an earlier one
      have hf := (List.forall_mem_cons.mp hvalues).1
      exact Host.openScope_eq hf.self.2
  | @parameters _ _ _ outer _ s =>
      refine Host.bindAll_eq ?_
      rw [Store.openScope, Array.size_push]
      exact Nat.lt_succ_self _
  | builtin => exact Host.builtin_eq _ _

/-! ## Runs of parsed programs -/

theorem Moment.LeadsTo.closed {m m' : Moment} (h : m.LeadsTo m') (hm : m.Closed) : m'.Closed := by
  induction h with
  | refl => exact hm
  | tail _ henters ih =>
      obtain ⟨_, henters⟩ := henters
      exact henters.closed ih

/-- The moment in which the run of a program starts. -/
def Program.start (p : Program) (scope : ScopeId) (s : Store) : Moment :=
  ⟨.stmts p.statements none scope, s⟩

/-- A store to which runs of parsed programs lead from the empty one, with scopes opened for them
in between. The programs may be what is left of texts with syntax errors, and the runs may take
place in any scope, also in one that a function has opened. -/
inductive Store.Reachable : Store → Prop
  | empty : Store.Reachable .empty
  | opened {s : Store} : s.Reachable → (s.openScope none).2.Reachable
  | running {s : Store} {source : String} {scope : ScopeId} {m : Moment} : s.Reachable →
    scope < s.scopes.size → ((parse source).program.start scope s).LeadsTo m → m.store.Reachable
  | left {s t : Store} {source : String} {scope : ScopeId} {n : Nat} {v : Option Value} :
    s.Reachable → scope < s.scopes.size →
    evalProgram n (parse source).program scope s = .done v t → t.Reachable

/-- What the parser leaves of a text is known. -/
theorem program_isKnown (source : String) : stmtsKnown (parse source).program.statements = true :=
  stmtsKnown_of_inPlace _ (program_isInPlace source)

section Start

variable {s : Store} {scope : ScopeId}

theorem closed_start (p : Program) (h : s.Closed) (hscope : scope < s.scopes.size) :
    (p.start scope s).Closed := ⟨h, hscope, nofun⟩

theorem known_start (source : String) (h : s.All Value.Known) :
    ((parse source).program.start scope s).Known := ⟨h, program_isKnown source, nofun⟩

end Start

theorem Store.Reachable.known {s : Store} (h : s.Reachable) : s.All Value.Known := by
  induction h with
  | empty => exact Store.all_empty
  | opened _ ih => exact ih.openScope none
  | running _ _ hleads ih => exact (hleads.known (known_start _ ih)).store
  | left _ _ hrun ih => exact ((evalProgram_known _ _ _ _ (program_isKnown _) ih).of_eq hrun).2

theorem Store.Reachable.closed {s : Store} (h : s.Reachable) : s.Closed := by
  induction h with
  | empty => exact Store.closed_empty
  | opened _ ih => exact ih.openScope nofun
  | running _ hscope hleads ih => exact (hleads.closed (closed_start _ ih hscope)).store
  | left _ hscope hrun ih =>
      obtain ⟨last, t, hstmts, hdone⟩ := Outcome.andThen_eq_done hrun
      obtain ⟨-, rfl⟩ := Outcome.done.inj hdone
      exact ((evalStmts_copies _ _ (.refl ih) hscope fun _ _ => rfl).of_eq hstmts).2.2

theorem Outcome.Knows.ne_fault {α : Type} {ok : α → Prop} {o : Outcome α} (h : o.Knows ok)
    (t : Store) (f : Fault) : o ≠ .fault (t := t) f := by
  rintro rfl
  exact h

/-- **Parsed programs can be evaluated.** All nodes that the parser builds of a text fit. And in
any scope of any store to which runs of parsed programs have led, a run of the program does not end
at a node that cannot be evaluated, and whatever a moment of the run asks of the host, the host
gives it the answer with which the evaluation goes on. -/
theorem parsed_programs_are_evaluable (source : String) :
    (∀ node ∈ (parse source).program.nodes, node.fits = true) ∧
    Host.rule (.program (parse source).program) = .ok () ∧
    ∀ (s : Store) (scope : ScopeId), s.Reachable → scope < s.scopes.size →
      (∀ n t f, evalProgram n (parse source).program scope s ≠ .fault (t := t) f) ∧
      ∀ m, ((parse source).program.start scope s).LeadsTo m →
        ∀ {α : Type} (o : Except Refusal α) (a : α), m.Asks o a → o = .ok a := by
  refine ⟨allFit_parse source, Host.rule_eq (program_isKnown source), fun s scope hs hscope =>
    ⟨fun n t f => ?_, fun m hleads α o a hasks => ?_⟩⟩
  · exact (evalProgram_known n _ scope s (program_isKnown source) hs.known).ne_fault t f
  · exact hasks.answered (hleads.closed (closed_start _ hs.closed hscope))
      (hleads.known (known_start source hs.known))

/-- What is left of a `let` without a name is a division by zero. -/
theorem parsed_programs_are_evaluable_broken :
    let source := "let 5 / 0"
    (parse source).errors = [.expected .ident .int] ∧
      (∀ node ∈ (parse source).program.nodes, node.fits = true) ∧
      Host.infixOp "/" (.integer 0 5) (.integer 1 0) = .ok (.error .divisionByZero) := by
  intro source
  let five : Expr := .integer ⟨"5", ⟨1, 5⟩⟩ 5
  let zero : Expr := .integer ⟨"0", ⟨1, 9⟩⟩ 0
  let quotient : Expr := .infixOp ⟨"/", ⟨1, 7⟩⟩ five "/" zero
  have hstatements : (parse source).program.statements = [.expression ⟨"5", ⟨1, 5⟩⟩ quotient] := by
    cbv
  obtain ⟨hfits, -, hruns⟩ := parsed_programs_are_evaluable source
  obtain ⟨-, hasks⟩ := hruns Store.fresh.2 0 (.opened .empty) (by decide)
  refine ⟨by cbv, hfits, hasks ⟨.expr quotient 0, Store.fresh.2⟩ ?_ _ _ ?_⟩
  · rw [Program.start, hstatements]
    exact .tail (.tail .refl ⟨_, .head⟩) ⟨_, .expression⟩
  · have hleft : evalExpr 1 five 0 Store.fresh.2 = .done (.integer 0 5) ⟨#[⟨[], none⟩], 1⟩ := by
      cbv
    have hright : evalExpr 1 zero 0 ⟨#[⟨[], none⟩], 1⟩ =
        .done (.integer 1 0) ⟨#[⟨[], none⟩], 2⟩ := by
      cbv
    exact .operation hleft rfl hright rfl

end MonkeyLang
