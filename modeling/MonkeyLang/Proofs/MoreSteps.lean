import MonkeyLang.Eval

/-!
# More steps

More steps never change an answer: an evaluation either runs out of steps or has the same
outcome with every larger allowance. So two runs of one task that both come to an answer
come to the same one, with the same store, whatever they were allowed. A program that is run
on its own, in a store that holds nothing else, comes to an end with some allowance, or it never
does.
-/

namespace MonkeyLang

/-- An outcome with more steps: the same one, unless the steps ran out. -/
def Outcome.Extends {α : Type} (o o' : Outcome α) : Prop :=
  o.RunsOut ∨ o = o'

namespace Outcome.Extends

variable {α β : Type} {o o' o'' : Outcome α}

theorem refl (o : Outcome α) : o.Extends o := .inr rfl

theorem trans (h : o.Extends o') (h' : o'.Extends o'') : o.Extends o'' := by
  rcases h with h | rfl
  · exact .inl h
  · exact h'

theorem andThen {f g : α → Store → Outcome β} (h : o.Extends o')
    (hf : ∀ a s, (f a s).Extends (g a s)) : (o.andThen f).Extends (o'.andThen g) := by
  rcases h with ⟨t, rfl⟩ | rfl
  · exact .inl ⟨t, rfl⟩
  · cases o with
    | done a s => exact hf a s
    | fault e => exact refl _
    | exhausted => exact refl _

theorem unlessError {o o' : Outcome Value} {f g : Value → Store → Outcome Value}
    (h : o.Extends o') (hf : ∀ v s, (f v s).Extends (g v s)) :
    (o.unlessError f).Extends (o'.unlessError g) := by
  rcases h with ⟨t, rfl⟩ | rfl
  · exact .inl ⟨t, rfl⟩
  · cases o with
    | done v s =>
        rw [unlessError_done, unlessError_done]
        split
        · exact refl _
        · exact hf v s
    | fault e => exact refl _
    | exhausted => exact refl _

theorem ite {p : Prop} [Decidable p] {r r' : Outcome α} (h : o.Extends o') (h' : r.Extends r') :
    (if p then o else r).Extends (if p then o' else r') := by
  split
  · exact h
  · exact h'

/-- With a larger allowance than one more step. -/
theorem of_le {r : Nat → Outcome α} (h : ∀ n, (r n).Extends (r (n + 1))) {n k : Nat}
    (hnk : n ≤ k) : (r n).Extends (r k) := by
  induction hnk with
  | refl => exact refl _
  | step _ ih => exact ih.trans (h _)

/-- An answer is the same with every larger allowance. -/
theorem done_of_le {r : Nat → Outcome α} (h : ∀ n, (r n).Extends (r (n + 1))) {n k : Nat}
    (hnk : n ≤ k) {a : α} {s : Store} (hn : r n = .done a s) : r k = .done a s := by
  have heq := (of_le h hnk).resolve_left (hn ▸ nofun)
  exact heq.symm.trans hn

/-- Two answers that are reached with any two allowances are one. -/
theorem unique {r : Nat → Outcome α} (h : ∀ n, (r n).Extends (r (n + 1))) {n k : Nat}
    {a b : α} {s s' : Store} (hn : r n = .done a s) (hk : r k = .done b s') :
    a = b ∧ s = s' := by
  have hleft := done_of_le h (Nat.le_max_left n k) hn
  have hright := done_of_le h (Nat.le_max_right n k) hk
  exact Outcome.done.inj (hleft.symm.trans hright)

end Outcome.Extends

/-! ## Rules -/

open Outcome.Extends (refl)

mutual

theorem evalExpr_extends : ∀ n e scope s,
    (evalExpr n e scope s).Extends (evalExpr (n + 1) e scope s)
  | 0, _, _, s => .inl ⟨s, by unfold evalExpr; rfl⟩
  | n + 1, e, scope, s => by
      unfold evalExpr
      cases e with
      | identifier _ _ | integer _ _ | string _ _ | boolean _ _ | function _ _ _ | unknown _ _ =>
          exact refl _
      | prefixOp _ operator right =>
          exact (evalExpr_extends n right scope s).unlessError fun _ _ => refl _
      | infixOp _ left operator right =>
          refine (evalExpr_extends n left scope s).unlessError fun l s₁ => ?_
          exact (evalExpr_extends n right scope s₁).unlessError fun _ _ => refl _
      | conditional _ condition consequence alternative =>
          refine (evalExpr_extends n condition scope s).unlessError fun c s₁ => ?_
          refine .ite (evalBlock_extends n consequence scope s₁) ?_
          cases alternative with
          | none => exact refl _
          | some other => exact evalBlock_extends n other scope s₁
      | loop _ condition body => exact evalLoop_extends n condition body scope s
      | call _ function arguments =>
          refine (evalExpr_extends n function scope s).unlessError fun f s₁ => ?_
          refine (evalAll_extends n arguments scope s₁).andThen fun vs s₂ => ?_
          cases vs with
          | error e => exact refl _
          | ok values => exact apply_extends n f values s₂
      | array _ elements => exact (evalAll_extends n elements scope s).andThen fun _ _ => refl _
      | index _ left index =>
          refine (evalExpr_extends n left scope s).unlessError fun l s₁ => ?_
          exact (evalExpr_extends n index scope s₁).unlessError fun _ _ => refl _
      | hash _ pairs => exact evalPairs_extends n pairs [] scope s
      | statement stmt => exact (evalStmt_extends n stmt scope s).andThen fun _ _ => refl _

theorem evalAll_extends : ∀ n es scope s,
    (evalAll n es scope s).Extends (evalAll (n + 1) es scope s)
  | 0, _, _, s => .inl ⟨s, by unfold evalAll; rfl⟩
  | n + 1, [], scope, s => by unfold evalAll; exact refl _
  | n + 1, e :: es, scope, s => by
      unfold evalAll
      refine (evalExpr_extends n e scope s).andThen fun v s₁ => .ite (refl _) ?_
      exact (evalAll_extends n es scope s₁).andThen fun _ _ => refl _

theorem evalPairs_extends : ∀ n pairs entries scope s,
    (evalPairs n pairs entries scope s).Extends (evalPairs (n + 1) pairs entries scope s)
  | 0, _, _, _, s => .inl ⟨s, by unfold evalPairs; rfl⟩
  | n + 1, [], entries, scope, s => by unfold evalPairs; exact refl _
  | n + 1, (key, value) :: pairs, entries, scope, s => by
      unfold evalPairs
      refine (evalExpr_extends n key scope s).unlessError fun k s₁ => .ite (refl _) ?_
      refine (evalExpr_extends n value scope s₁).unlessError fun v s₂ => ?_
      exact evalPairs_extends n pairs _ scope s₂

theorem evalLoop_extends : ∀ n condition body scope s,
    (evalLoop n condition body scope s).Extends (evalLoop (n + 1) condition body scope s)
  | 0, _, _, _, s => .inl ⟨s, by unfold evalLoop; rfl⟩
  | n + 1, condition, body, scope, s => by
      unfold evalLoop
      refine (evalExpr_extends n condition scope s).unlessError fun c s₁ => .ite ?_ (refl _)
      refine (evalBlock_extends n body scope s₁).andThen fun v s₂ => .ite (refl _) ?_
      exact evalLoop_extends n condition body scope s₂

theorem evalBlock_extends : ∀ n b scope s,
    (evalBlock n b scope s).Extends (evalBlock (n + 1) b scope s)
  | 0, _, _, s => .inl ⟨s, by unfold evalBlock; rfl⟩
  | n + 1, b, scope, s => by
      unfold evalBlock
      exact (evalStmts_extends n b.statements none scope s).andThen fun _ _ => refl _

theorem evalStmts_extends : ∀ n stmts last scope s,
    (evalStmts n stmts last scope s).Extends (evalStmts (n + 1) stmts last scope s)
  | 0, _, _, _, s => .inl ⟨s, by unfold evalStmts; rfl⟩
  | n + 1, [], last, scope, s => by unfold evalStmts; exact refl _
  | n + 1, stmt :: stmts, last, scope, s => by
      unfold evalStmts
      refine (evalStmt_extends n stmt scope s).andThen fun v s₁ => .ite (refl _) ?_
      exact evalStmts_extends n stmts v scope s₁

theorem evalStmt_extends : ∀ n stmt scope s,
    (evalStmt n stmt scope s).Extends (evalStmt (n + 1) stmt scope s)
  | 0, _, _, s => .inl ⟨s, by unfold evalStmt; rfl⟩
  | n + 1, stmt, scope, s => by
      unfold evalStmt
      match stmt with
      | .binding _ name value =>
          exact (evalExpr_extends n value scope s).andThen fun _ _ => refl _
      | .leave _ value =>
          have hvalue := (evalExpr_extends n value scope s).unlessError
            (f := fun v s => s.yield (.returned v)) fun _ _ => refl _
          exact hvalue.andThen fun _ _ => refl _
      | .expression _ e | .bare e =>
          exact (evalExpr_extends n e scope s).andThen fun _ _ => refl _
      | .block (.program stmts) =>
          exact (evalStmts_extends n stmts none scope s).andThen fun _ _ => refl _
      | .block (.mk mark stmts) =>
          exact (evalBlock_extends n (.mk mark stmts) scope s).andThen fun _ _ => refl _
      | .unknown _ _ => exact refl _

theorem apply_extends : ∀ n f arguments s,
    (apply n f arguments s).Extends (apply (n + 1) f arguments s)
  | 0, _, _, s => .inl ⟨s, by unfold apply; rfl⟩
  | n + 1, f, arguments, s => by
      unfold apply
      split
      · refine .ite (refl _) ?_
        exact (evalBlock_extends n _ _ _).andThen fun _ _ => refl _
      · exact refl _
      · exact refl _

end

/-! ## Expressions and blocks -/

/-- An expression comes to a value, with whatever allowance of steps. -/
def Expr.ComesTo (e : Expr) (scope : ScopeId) (s : Store) (v : Value) (s' : Store) : Prop :=
  ∃ n, evalExpr n e scope s = .done v s'

/-- A block comes to a value, with whatever allowance of steps. -/
def Block.ComesTo (b : Block) (scope : ScopeId) (s : Store) (v : Value) (s' : Store) : Prop :=
  ∃ n, evalBlock n b scope s = .done v s'

namespace Expr.ComesTo

variable {e : Expr} {scope : ScopeId} {s s₁ s₂ : Store} {v w : Value}

theorem unique (h : e.ComesTo scope s v s₁) (h' : e.ComesTo scope s w s₂) : v = w ∧ s₁ = s₂ := by
  obtain ⟨n, hn⟩ := h
  obtain ⟨k, hk⟩ := h'
  exact Outcome.Extends.unique (fun n => evalExpr_extends n e scope s) hn hk

/-- From some allowance on, the expression comes to its value. -/
theorem eventually (h : e.ComesTo scope s v s₁) :
    ∃ k, ∀ n, k ≤ n → evalExpr n e scope s = .done v s₁ := by
  obtain ⟨k, hk⟩ := h
  exact ⟨k, fun n hn => Outcome.Extends.done_of_le (fun n => evalExpr_extends n e scope s) hn hk⟩

/-- A prefix operator makes its value of the value of its operand. -/
theorem prefixOp (mark : Mark) (operator : String) (h : e.ComesTo scope s v s₁)
    (hv : v.isError = false) : (Expr.prefixOp mark operator e).ComesTo scope s
      (s₁.make (v.prefixOp operator)).1 (s₁.make (v.prefixOp operator)).2 := by
  obtain ⟨n, hn⟩ := h
  exact ⟨n + 1, by rw [evalExpr, hn, Outcome.unlessError_done, hv]; rfl⟩

/-- An infix operator makes its value of the values of its operands, the left one first. -/
theorem infixOp (mark : Mark) (operator : String) {right : Expr}
    (h : e.ComesTo scope s v s₁) (h' : right.ComesTo scope s₁ w s₂) (hv : v.isError = false)
    (hw : w.isError = false) :
    (Expr.infixOp mark e operator right).ComesTo scope s
      (s₂.make (v.infixOp operator w)).1 (s₂.make (v.infixOp operator w)).2 := by
  obtain ⟨i, hleft⟩ := h.eventually
  obtain ⟨j, hright⟩ := h'.eventually
  refine ⟨i + j + 1, ?_⟩
  rw [evalExpr, hleft _ (Nat.le_add_right i j), Outcome.unlessError_done, hv,
    hright _ (Nat.le_add_left j i), Outcome.unlessError_done, hw]
  rfl

end Expr.ComesTo

/-! ## Programs -/

/-- The scope of a program that is run on its own, and the store with this scope only. -/
def Store.fresh : ScopeId × Store := Store.empty.openScope none

namespace Program

/-- A program run on its own for so many steps at most. -/
def runFor (n : Nat) (p : Program) : Outcome (Option Value) :=
  evalProgram n p Store.fresh.1 Store.fresh.2

/-- The program never comes to an end. -/
def Diverges (p : Program) : Prop := ∀ n, (p.runFor n).RunsOut

/-- The program ends with a value or with none, and leaves a store. -/
def Ends (p : Program) (v : Option Value) (s : Store) : Prop := ∃ n, p.runFor n = .done v s

end Program

end MonkeyLang
