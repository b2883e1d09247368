import MonkeyLang.Proofs.StatementRuns

/-!
# Laws of conditionals and loops

Two expressions end alike in a store if both never end, or both end in the same way: with the
same value and the same store, or at the same node that cannot be evaluated. Then one can
stand for the other.

A loop ends like a conditional that runs its body once and then the loop
(`loop_unrolls`). A conditional ends like the one whose condition is negated and whose
branches are exchanged (`negation_swaps_branches`), because the operator `!` and the
conditional agree on what counts as true. Neither law asks anything of the parts: the
condition may bind names, return, or never end.
-/

namespace MonkeyLang

/-! ## Expressions that end alike -/

/-- An expression ends: with a value and the store after it, or at a node that cannot be
evaluated. -/
def Expr.EndsIn (e : Expr) (scope : ScopeId) (s : Store) (o : Outcome Value) : Prop :=
  ¬o.RunsOut ∧ ∃ n, evalExpr n e scope s = o

/-- Two expressions end alike: one of them ends if the other one does, and then with the same
outcome. -/
structure Expr.EndsAs (e e' : Expr) (scope : ScopeId) (s : Store) : Prop where
  ends_iff : (∃ o, e.EndsIn scope s o) ↔ ∃ o, e'.EndsIn scope s o
  outcome_eq : ∀ o o', e.EndsIn scope s o → e'.EndsIn scope s o' → o = o'

section EndsAs

variable {e e' : Expr} {scope : ScopeId} {s : Store} {o o' : Outcome Value}

/-- An expression ends in one way at most. -/
theorem Expr.EndsIn.unique (h : e.EndsIn scope s o) (h' : e.EndsIn scope s o') : o = o' := by
  obtain ⟨ho, n, rfl⟩ := h
  obtain ⟨ho', k, rfl⟩ := h'
  have hmore {i j : Nat} (hij : i ≤ j) :=
    Outcome.Extends.of_le (fun n => evalExpr_extends n e scope s) hij
  have hleft := (hmore (Nat.le_max_left n k)).resolve_left ho
  have hright := (hmore (Nat.le_max_right n k)).resolve_left ho'
  exact hleft.trans hright.symm

/-- What one expression answers with an allowance of two steps at least, another one answers with
enough steps. Two steps enter a node and the one that it tests first. -/
theorem Expr.EndsIn.of_extends
    (h : ∀ n, ∃ k, (evalExpr (n + 2) e scope s).Extends (evalExpr k e' scope s))
    (ho : e.EndsIn scope s o) : e'.EndsIn scope s o := by
  obtain ⟨ho, n, rfl⟩ := ho
  obtain ⟨k, hk⟩ := h n
  have hmore : (evalExpr n e scope s).Extends (evalExpr (n + 2) e scope s) :=
    .of_le (fun n => evalExpr_extends n e scope s) (Nat.le_add_right n 2)
  exact ⟨ho, k, ((hmore.trans hk).resolve_left ho).symm⟩

/-- Expressions end alike if each answers with enough steps what the other one answers. -/
theorem Expr.EndsAs.of_extends
    (h : ∀ n, ∃ k, (evalExpr (n + 2) e scope s).Extends (evalExpr k e' scope s))
    (h' : ∀ n, ∃ k, (evalExpr (n + 2) e' scope s).Extends (evalExpr k e scope s)) :
    e.EndsAs e' scope s where
  ends_iff := ⟨fun ⟨o, ho⟩ => ⟨o, ho.of_extends h⟩, fun ⟨o, ho⟩ => ⟨o, ho.of_extends h'⟩⟩
  outcome_eq _ _ ho ho' := (ho.of_extends h).unique ho'

end EndsAs

/-! ## Unrolling -/

section Unrolling

variable {mark : Mark} {condition : Expr} {body : Block} {scope : ScopeId} {s : Store}

/-- An iteration and the loop behind it. -/
theorem evalExpr_loop (n : Nat) :
    evalExpr (n + 2) (.loop mark condition body) scope s =
      (evalExpr n condition scope s).unlessError fun c s =>
        if c.isTruthy then
          (evalBlock n body scope s).andThen fun v s =>
            if v.endsBlock then .done v s else evalExpr (n + 1) (.loop mark condition body) scope s
        else .done .null s := by
  simp only [evalExpr, evalLoop]

/-- A conditional without an `else` branch. -/
theorem evalExpr_conditional_none (n : Nat) :
    evalExpr (n + 1) (.conditional mark condition body none) scope s =
      (evalExpr n condition scope s).unlessError fun c s =>
        if c.isTruthy then evalBlock n body scope s else .done .null s := by
  simp only [evalExpr]

end Unrolling

/-- **Unrolling.** A loop ends like a conditional with the same condition, whose block has the
statements of the body and then the loop. -/
theorem loop_unrolls (mark mark₁ mark₂ mark₃ : Mark) (condition : Expr) (body : Block)
    (scope : ScopeId) (s : Store) :
    let loop := Expr.loop mark condition body
    let unrolled : Block := .mk mark₂ (body.statements ++ [.expression mark₃ loop])
    loop.EndsAs (.conditional mark₁ condition unrolled none) scope s := by
  intro loop unrolled
  refine .of_extends (fun n => ?_) fun n => ?_
  · -- the body runs with `n` steps, the block that it is part of needs some more
    let k := n + 1 + 3 + body.statements.length
    have hcondition : (evalExpr n condition scope s).Extends (evalExpr k condition scope s) :=
      .of_le (fun n => evalExpr_extends n condition scope s) (by omega)
    refine ⟨k + 1, ?_⟩
    rw [evalExpr_loop, evalExpr_conditional_none]
    refine hcondition.unlessError fun c s₁ => .ite ?_ (.refl _)
    have hbody := (evalBlock_extends n body scope s₁).andThen
      (f := fun v s => if v.endsBlock then .done v s else evalExpr (n + 1) loop scope s)
      fun _ _ => .refl _
    exact hbody.trans (evalThen_extends (n + 1) body mark₂ mark₃ loop)
  · refine ⟨n + 3, ?_⟩
    rw [evalExpr_loop, evalExpr_conditional_none]
    refine (Outcome.Extends.refl _).unlessError fun c s₁ => .ite ?_ (.refl _)
    refine (evalBlock_append (n + 1) body mark₂ mark₃ loop).trans ?_
    refine (Outcome.Extends.refl _).andThen fun v s₂ => .ite (.refl _) ?_
    exact evalExpr_extends (n + 1) loop scope s₂

/-! ## Negated conditions -/

/-- The operator `!` answers whether a value does not count as true. -/
theorem Value.isFalsy_eq (v : Value) : v.isFalsy = !v.isTruthy := by
  cases v <;> rfl

section Negation

variable {mark : Mark} {condition : Expr} {scope : ScopeId} {s : Store}

theorem evalExpr_negation (n : Nat) :
    evalExpr (n + 1) (.prefixOp mark "!" condition) scope s =
      (evalExpr n condition scope s).unlessError fun c s => .done (.boolean !c.isTruthy) s := by
  simp only [evalExpr, Value.prefixOp, Value.isFalsy_eq]
  rfl

/-- A conditional with both branches. -/
theorem evalExpr_conditional_some {a b : Block} (n : Nat) :
    evalExpr (n + 1) (.conditional mark condition a (some b)) scope s =
      (evalExpr n condition scope s).unlessError fun c s =>
        if c.isTruthy then evalBlock n a scope s else evalBlock n b scope s := by
  simp only [evalExpr]

theorem evalExpr_conditional_negation {mark' : Mark} {a b : Block} (n : Nat) :
    evalExpr (n + 2) (.conditional mark (.prefixOp mark' "!" condition) a (some b)) scope s =
      (evalExpr n condition scope s).unlessError fun c s =>
        if c.isTruthy then evalBlock (n + 1) b scope s else evalBlock (n + 1) a scope s := by
  rw [evalExpr_conditional_some, evalExpr_negation]
  cases evalExpr n condition scope s with
  | exhausted => rfl
  | fault e => rfl
  | done c s₁ =>
      by_cases herror : c.isError = true
      · -- the error passes the operator and then the conditional
        simp only [Outcome.unlessError_done, herror, if_true]
      · rw [Outcome.unlessError_done, Outcome.unlessError_done, if_neg herror, if_neg herror]
        show (if (!c.isTruthy) = true then _ else _) = _
        cases c.isTruthy <;> rfl

end Negation

/-- **Negated conditions.** A conditional whose condition is negated ends like the conditional with
the condition itself and the branches exchanged. -/
theorem negation_swaps_branches (mark mark₁ mark₂ : Mark) (condition : Expr) (a b : Block)
    (scope : ScopeId) (s : Store) :
    (Expr.conditional mark (.prefixOp mark₁ "!" condition) a (some b)).EndsAs
      (.conditional mark₂ condition b (some a)) scope s := by
  refine .of_extends (fun n => ?_) fun n => ?_
  · refine ⟨n + 2, ?_⟩
    rw [evalExpr_conditional_negation, evalExpr_conditional_some]
    exact (evalExpr_extends n condition scope s).unlessError fun _ _ => .refl _
  · refine ⟨n + 3, ?_⟩
    rw [evalExpr_conditional_negation, evalExpr_conditional_some]
    refine (Outcome.Extends.refl _).unlessError fun c s₁ => .ite ?_ ?_
    · exact evalBlock_extends (n + 1) b scope s₁
    · exact evalBlock_extends (n + 1) a scope s₁

end MonkeyLang
