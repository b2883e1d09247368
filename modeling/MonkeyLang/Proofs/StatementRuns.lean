import MonkeyLang.Proofs.MoreSteps

/-!
# Statements one after another

Statements with more of them behind are run like the first ones and then, unless these end
early, like the others (`evalStmts_append`, `evalBoth_extends`). So a block with an
expression added at its end comes to what the block comes to, if that ends it early, and
else to what the expression comes to.

The runs are compared as outcomes with allowances: what one of them answers, the other one
answers with enough steps.
-/

namespace MonkeyLang

/-! ## Two parts -/

theorem endsBlock_none : (none : Option Value).any Value.endsBlock = false := rfl

/-- Some statements and, unless they end early, more behind them. -/
def evalBoth (n : Nat) (xs ys : List Stmt) (last : Option Value) (scope : ScopeId) (s : Store) :
    Outcome (Option Value) :=
  (evalStmts n xs last scope s).andThen fun v s =>
    if v.any Value.endsBlock then .done v s else evalStmts n ys v scope s

theorem evalBoth_cons (n : Nat) (x : Stmt) (xs ys : List Stmt) (last : Option Value)
    (scope : ScopeId) (s : Store) :
    evalBoth (n + 1) (x :: xs) ys last scope s =
      (evalStmt n x scope s).andThen fun v s =>
        if v.any Value.endsBlock then .done v s
        else
          (evalStmts n xs v scope s).andThen fun w s =>
            if w.any Value.endsBlock then .done w s else evalStmts (n + 1) ys w scope s := by
  rw [evalBoth, evalStmts]
  cases evalStmt n x scope s with
  | exhausted => rfl
  | fault e => rfl
  | done v s₁ =>
      simp only [Outcome.andThen_done]
      split
      · rename_i hv
        rw [Outcome.andThen_done, if_pos hv]
      · rfl

theorem evalStmts_append (n : Nat) (xs ys : List Stmt) {last : Option Value}
    (hlast : last.any Value.endsBlock = false) (scope : ScopeId) (s : Store) :
    (evalStmts n (xs ++ ys) last scope s).Extends (evalBoth n xs ys last scope s) := by
  induction xs generalizing n last s with
  | nil =>
      cases n with
      | zero => exact .inl ⟨s, by unfold evalStmts; rfl⟩
      | succ n =>
          simp only [List.nil_append, evalBoth, evalStmts, Outcome.andThen_done, hlast]
          exact .refl _
  | cons x xs ih =>
      cases n with
      | zero => exact .inl ⟨s, by unfold evalStmts; rfl⟩
      | succ n =>
          rw [evalBoth_cons, List.cons_append, evalStmts]
          refine (Outcome.Extends.refl _).andThen fun v s₁ => ?_
          by_cases hv : v.any Value.endsBlock = true
          · rw [if_pos hv, if_pos hv]
            exact .refl _
          · rw [if_neg hv, if_neg hv]
            refine (ih n (Bool.eq_false_iff.mpr hv) s₁).trans ?_
            refine (Outcome.Extends.refl _).andThen fun w s₂ => .ite (.refl _) ?_
            exact evalStmts_extends n ys w scope s₂

theorem evalBoth_extends (n : Nat) (xs ys : List Stmt) {last : Option Value}
    (hlast : last.any Value.endsBlock = false) (scope : ScopeId) (s : Store) :
    (evalBoth n xs ys last scope s).Extends
      (evalStmts (n + xs.length) (xs ++ ys) last scope s) := by
  induction xs generalizing n last s with
  | nil =>
      cases n with
      | zero => exact .inl ⟨s, by simp only [evalBoth, evalStmts, Outcome.andThen_exhausted]⟩
      | succ n =>
          simp only [List.nil_append, evalBoth, evalStmts, Outcome.andThen_done, hlast]
          exact .refl _
  | cons x xs ih =>
      cases n with
      | zero => exact .inl ⟨s, by simp only [evalBoth, evalStmts, Outcome.andThen_exhausted]⟩
      | succ n =>
          have hx : (evalStmt n x scope s).Extends (evalStmt (n + 1 + xs.length) x scope s) :=
            .of_le (fun n => evalStmt_extends n x scope s) (by omega)
          rw [evalBoth_cons, List.length_cons, ← Nat.add_assoc, List.cons_append, evalStmts]
          refine hx.andThen fun v s₁ => ?_
          by_cases hv : v.any Value.endsBlock = true
          · rw [if_pos hv, if_pos hv]
            exact .refl _
          · rw [if_neg hv, if_neg hv]
            refine Outcome.Extends.trans ?_ (ih (n + 1) (Bool.eq_false_iff.mpr hv) s₁)
            exact (evalStmts_extends n xs v scope s₁).andThen fun _ _ => .refl _

/-! ## An expression at the end -/

theorem Outcome.andThen_assoc {α β γ : Type} (o : Outcome α) (f : α → Store → Outcome β)
    (g : β → Store → Outcome γ) :
    (o.andThen f).andThen g = o.andThen fun a s => (f a s).andThen g := by
  cases o <;> rfl

theorem endsBlock_getD (last : Option Value) :
    (last.getD .null).endsBlock = last.any Value.endsBlock := by
  cases last <;> rfl

section LastExpression

variable {scope : ScopeId} {s : Store}

/-- An expression that is the only statement. -/
theorem evalStmts_singleton (n : Nat) (mark : Mark) (e : Expr) (last : Option Value) :
    evalStmts (n + 2) [.expression mark e] last scope s =
      (evalExpr n e scope s).andThen fun v s => .done (some v) s := by
  rw [evalStmts, evalStmt, Outcome.andThen_assoc]
  cases evalExpr n e scope s with
  | exhausted => rfl
  | fault e => rfl
  | done v s₁ => simp only [Outcome.andThen_done, evalStmts, ite_self]

/-- An expression that is the only statement gives a block its value. -/
theorem evalStmts_singleton_getD (n : Nat) (mark : Mark) (e : Expr) (last : Option Value) :
    ((evalStmts (n + 2) [.expression mark e] last scope s).andThen
      fun last s => .done (last.getD .null) s) = evalExpr n e scope s := by
  rw [evalStmts_singleton, Outcome.andThen_assoc]
  cases evalExpr n e scope s <;> rfl

theorem evalStmts_singleton_extends (n : Nat) (mark : Mark) (e : Expr) (last : Option Value) :
    ((evalStmts n [.expression mark e] last scope s).andThen
      fun last s => .done (last.getD .null) s).Extends (evalExpr n e scope s) := by
  have hmore : (evalStmts n [.expression mark e] last scope s).Extends
      (evalStmts (n + 2) [.expression mark e] last scope s) :=
    .of_le (fun n => evalStmts_extends n _ last scope s) (Nat.le_add_right n 2)
  have hvalue := hmore.andThen (f := fun last s => .done (last.getD .null) s) fun _ _ => .refl _
  rw [evalStmts_singleton_getD] at hvalue
  exact hvalue

/-- A block and, unless it ends early, an expression behind it. -/
def evalThen (n : Nat) (b : Block) (e : Expr) (scope : ScopeId) (s : Store) : Outcome Value :=
  (evalBlock n b scope s).andThen fun v s =>
    if v.endsBlock then .done v s else evalExpr n e scope s

theorem evalThen_eq (n : Nat) (b : Block) (e : Expr) :
    evalThen (n + 1) b e scope s =
      (evalStmts n b.statements none scope s).andThen fun last s =>
        if last.any Value.endsBlock then .done (last.getD .null) s
        else evalExpr (n + 1) e scope s := by
  rw [evalThen, evalBlock, Outcome.andThen_assoc]
  simp only [Outcome.andThen_done, endsBlock_getD]

/-- A block with an expression added at its end does what the block and the expression behind it
do. -/
theorem evalBlock_append (n : Nat) (b : Block) (mark mark' : Mark) (e : Expr) :
    (evalBlock n (.mk mark (b.statements ++ [.expression mark' e])) scope s).Extends
      (evalThen n b e scope s) := by
  cases n with
  | zero => exact .inl ⟨s, by unfold evalBlock; rfl⟩
  | succ n =>
      have hboth := (evalStmts_append n b.statements [.expression mark' e] endsBlock_none scope
        s).andThen (f := fun last s => .done (last.getD .null) s) fun _ _ => .refl _
      rw [evalBlock, evalThen_eq]
      refine hboth.trans ?_
      rw [evalBoth, Outcome.andThen_assoc]
      refine (Outcome.Extends.refl _).andThen fun last s₁ => ?_
      split
      · exact .refl _
      · exact (evalStmts_singleton_extends n mark' e last).trans (evalExpr_extends n e scope s₁)

theorem evalThen_extends (n : Nat) (b : Block) (mark mark' : Mark) (e : Expr) :
    (evalThen n b e scope s).Extends
      (evalBlock (n + 3 + b.statements.length)
        (.mk mark (b.statements ++ [.expression mark' e])) scope s) := by
  cases n with
  | zero => exact .inl ⟨s, by simp only [evalThen, evalBlock, Outcome.andThen_exhausted]⟩
  | succ n =>
      have hboth := (evalBoth_extends (n + 3) b.statements [.expression mark' e] endsBlock_none
        scope s).andThen (f := fun last s => .done (last.getD .null) s) fun _ _ => .refl _
      have hsteps : n + 1 + 3 + b.statements.length = n + 3 + b.statements.length + 1 := by omega
      rw [hsteps, evalBlock, evalThen_eq]
      refine Outcome.Extends.trans ?_ hboth
      rw [evalBoth, Outcome.andThen_assoc]
      have hstmts : (evalStmts n b.statements none scope s).Extends
          (evalStmts (n + 3) b.statements none scope s) :=
        .of_le (fun n => evalStmts_extends n b.statements none scope s) (Nat.le_add_right n 3)
      refine hstmts.andThen fun last s₁ => ?_
      split
      · exact .refl _
      · rw [evalStmts_singleton_getD (n + 1)]
        exact .refl _

end LastExpression

end MonkeyLang
