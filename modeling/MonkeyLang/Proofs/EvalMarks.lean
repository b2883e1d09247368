import MonkeyLang.Proofs.ValueMarks

/-!
# Marks play no role in evaluation

Evaluation looks at no mark. So it commutes with changing the marks, those of the
tree and those in the store alike: step by step the same scopes are opened, the
same objects are made and the same names are bound, and what comes out differs in
its marks only.
-/

namespace MonkeyLang

/-! ## Outcomes -/

section Outcomes

variable {α β : Type} {f : Mark → Mark} {g : α → α} {h : β → β}

theorem Outcome.mapMarks_andThen {o o' : Outcome α} {k k' : α → Store → Outcome β}
    (ho : o' = o.mapMarks f g) (hk : ∀ a s, k' (g a) (s.mapMarks f) = (k a s).mapMarks f h) :
    o'.andThen k' = (o.andThen k).mapMarks f h := by
  subst ho
  cases o with
  | done a s => exact hk a s
  | fault e => rfl
  | exhausted => rfl

theorem Outcome.mapMarks_unlessError {o o' : Outcome Value} {k k' : Value → Store → Outcome Value}
    (ho : o' = o.mapMarks f (·.mapMarks f))
    (hk : ∀ v s, k' (v.mapMarks f) (s.mapMarks f) = (k v s).mapMarks f (·.mapMarks f)) :
    o'.unlessError k' = (o.unlessError k).mapMarks f (·.mapMarks f) := by
  subst ho
  cases o with
  | done v s =>
      show (if (v.mapMarks f).isError then _ else _) = _
      rw [Value.isError_mapMarks, unlessError_done]
      split
      · rfl
      · exact hk v s
  | fault e => rfl
  | exhausted => rfl

theorem Outcome.mapMarks_ite {c c' : Prop} [Decidable c] [Decidable c'] {o o' p p' : Outcome α}
    (hc : c' ↔ c) (ho : o' = o.mapMarks f g) (hp : p' = p.mapMarks f g) :
    (if c' then o' else p') = (if c then o else p).mapMarks f g := by
  by_cases hcond : c
  · rw [if_pos hcond, if_pos (hc.mpr hcond), ho]
  · rw [if_neg hcond, if_neg (mt hc.mp hcond), hp]

theorem yield_mapMarks (s : Store) {d d' : Draft} (hd : d' = d.mapMarks f) :
    (s.mapMarks f).yield d' = (s.yield d).mapMarks f (·.mapMarks f) := by
  subst hd
  unfold Store.yield
  rw [Store.make_mapMarks]
  rfl

end Outcomes

/-- The values of a list of expressions, or the error among them, with other
marks. -/
def mapMarksResult (f : Mark → Mark) : Except Value (List Value) → Except Value (List Value)
  | .ok vs => .ok (mapMarksAll f vs)
  | .error v => .error (v.mapMarks f)

/-! ## Rules -/

section Rules

variable (f : Mark → Mark)

open Outcome in
mutual

theorem evalExpr_mapMarks : ∀ n (e : Expr) scope s,
    evalExpr n (e.map f id) scope (s.mapMarks f) =
      (evalExpr n e scope s).mapMarks f (·.mapMarks f)
  | 0, _, _, _ => by unfold evalExpr; rfl
  | n + 1, e, scope, s => by
      unfold evalExpr
      cases e with
      | identifier _ name => exact yield_mapMarks s (s.valueOf_mapMarks f scope name)
      | integer _ _ => exact yield_mapMarks s rfl
      | string _ _ => exact yield_mapMarks s rfl
      | boolean _ _ => exact yield_mapMarks s rfl
      | function _ _ _ => exact yield_mapMarks s rfl
      | unknown _ _ => rfl
      | prefixOp _ operator right =>
          refine mapMarks_unlessError (evalExpr_mapMarks n right scope s) ?_
          intro r s₁
          exact yield_mapMarks s₁ (r.prefixOp_mapMarks f operator)
      | infixOp _ left operator right =>
          refine mapMarks_unlessError (evalExpr_mapMarks n left scope s) ?_
          intro l s₁
          refine mapMarks_unlessError (evalExpr_mapMarks n right scope s₁) ?_
          intro r s₂
          exact yield_mapMarks s₂ (l.infixOp_mapMarks f operator r)
      | conditional _ condition consequence alternative =>
          refine mapMarks_unlessError (evalExpr_mapMarks n condition scope s) ?_
          intro c s₁
          refine mapMarks_ite (by rw [c.isTruthy_mapMarks f])
            (evalBlock_mapMarks n consequence scope s₁) ?_
          cases alternative with
          | none => rfl
          | some other => exact evalBlock_mapMarks n other scope s₁
      | loop _ condition body => exact evalLoop_mapMarks n condition body scope s
      | call _ function arguments =>
          refine mapMarks_unlessError (evalExpr_mapMarks n function scope s) ?_
          intro callee s₁
          refine mapMarks_andThen (evalAll_mapMarks n arguments scope s₁) ?_
          intro vs s₂
          cases vs with
          | error e => rfl
          | ok vs => exact call_mapMarks n callee vs s₂
      | array _ elements =>
          refine mapMarks_andThen (evalAll_mapMarks n elements scope s) ?_
          intro vs s₁
          cases vs with
          | error e => rfl
          | ok vs => exact yield_mapMarks s₁ rfl
      | index _ left index =>
          refine mapMarks_unlessError (evalExpr_mapMarks n left scope s) ?_
          intro l s₁
          refine mapMarks_unlessError (evalExpr_mapMarks n index scope s₁) ?_
          intro i s₂
          exact yield_mapMarks s₂ (l.indexOp_mapMarks f i)
      | hash _ pairs => exact evalPairs_mapMarks n pairs [] scope s
      | statement stmt =>
          refine mapMarks_andThen (evalStmt_mapMarks n stmt scope s) ?_
          intro v s₁
          exact congrArg (Outcome.done · (s₁.mapMarks f)) (Value.getD_mapMarks f v)

theorem evalAll_mapMarks : ∀ n es scope s,
    evalAll n (mapAll f id es) scope (s.mapMarks f) =
      (evalAll n es scope s).mapMarks f (mapMarksResult f)
  | 0, _, _, _ => by unfold evalAll; rfl
  | n + 1, [], scope, s => by unfold evalAll; rfl
  | n + 1, e :: es, scope, s => by
      unfold evalAll
      refine mapMarks_andThen (evalExpr_mapMarks n e scope s) ?_
      intro v s₁
      refine mapMarks_ite (by rw [v.isError_mapMarks f]) rfl ?_
      refine mapMarks_andThen (evalAll_mapMarks n es scope s₁) ?_
      intro vs s₂
      cases vs <;> rfl

theorem evalPairs_mapMarks : ∀ n pairs entries scope s,
    evalPairs n (mapPairs f id pairs) (mapMarksEntries f entries) scope (s.mapMarks f) =
      (evalPairs n pairs entries scope s).mapMarks f (·.mapMarks f)
  | 0, _, _, _, _ => by unfold evalPairs; rfl
  | n + 1, [], entries, scope, s => by unfold evalPairs; exact yield_mapMarks s rfl
  | n + 1, (key, value) :: pairs, entries, scope, s => by
      unfold evalPairs
      refine mapMarks_unlessError (evalExpr_mapMarks n key scope s) ?_
      intro k s₁
      refine mapMarks_ite (by rw [k.hashKey?_mapMarks f]) ?_ ?_
      · rw [k.type_mapMarks f]
        exact yield_mapMarks s₁ rfl
      · refine mapMarks_unlessError (evalExpr_mapMarks n value scope s₁) ?_
        intro v s₂
        rw [Value.insert_mapMarks]
        exact evalPairs_mapMarks n pairs _ scope s₂

theorem evalLoop_mapMarks : ∀ n (condition : Expr) (body : Block) scope s,
    evalLoop n (condition.map f id) (body.map f id) scope (s.mapMarks f) =
      (evalLoop n condition body scope s).mapMarks f (·.mapMarks f)
  | 0, _, _, _, _ => by unfold evalLoop; rfl
  | n + 1, condition, body, scope, s => by
      unfold evalLoop
      refine mapMarks_unlessError (evalExpr_mapMarks n condition scope s) ?_
      intro c s₁
      refine mapMarks_ite (by rw [c.isTruthy_mapMarks f]) ?_ rfl
      refine mapMarks_andThen (evalBlock_mapMarks n body scope s₁) ?_
      intro v s₂
      exact mapMarks_ite (by rw [v.endsBlock_mapMarks f]) rfl
        (evalLoop_mapMarks n condition body scope s₂)

theorem evalBlock_mapMarks : ∀ n (b : Block) scope s,
    evalBlock n (b.map f id) scope (s.mapMarks f) =
      (evalBlock n b scope s).mapMarks f (·.mapMarks f)
  | 0, _, _, _ => by unfold evalBlock; rfl
  | n + 1, b, scope, s => by
      have hstmts : (b.map f id).statements = mapStmts f id b.statements := by
        cases b <;> rfl
      unfold evalBlock
      rw [hstmts]
      refine mapMarks_andThen (evalStmts_mapMarks n b.statements none scope s) ?_
      intro last s₁
      exact congrArg (Outcome.done · (s₁.mapMarks f)) (Value.getD_mapMarks f last)

theorem evalStmts_mapMarks : ∀ n stmts (last : Option Value) scope s,
    evalStmts n (mapStmts f id stmts) (last.map (·.mapMarks f)) scope (s.mapMarks f) =
      (evalStmts n stmts last scope s).mapMarks f (Option.map (·.mapMarks f))
  | 0, _, _, _, _ => by unfold evalStmts; rfl
  | n + 1, [], last, scope, s => by unfold evalStmts; rfl
  | n + 1, stmt :: stmts, last, scope, s => by
      unfold evalStmts
      refine mapMarks_andThen (evalStmt_mapMarks n stmt scope s) ?_
      intro v s₁
      refine mapMarks_ite ?_ rfl (evalStmts_mapMarks n stmts v scope s₁)
      cases v with
      | none => rfl
      | some v =>
          rw [Option.map_some, Option.any_some, Option.any_some, v.endsBlock_mapMarks f]

theorem evalStmt_mapMarks : ∀ n (stmt : Stmt) scope s,
    evalStmt n (stmt.map f id) scope (s.mapMarks f) =
      (evalStmt n stmt scope s).mapMarks f (Option.map (·.mapMarks f))
  | 0, _, _, _ => by unfold evalStmt; rfl
  | n + 1, stmt, scope, s => by
      unfold evalStmt
      match stmt with
      | .binding _ name value =>
          refine mapMarks_andThen (evalExpr_mapMarks n value scope s) ?_
          intro v s₁
          refine mapMarks_ite (by rw [v.isError_mapMarks f]) rfl ?_
          exact congrArg (Outcome.done none) (s₁.bind_mapMarks f scope name.value v)
      | .leave _ value =>
          refine mapMarks_andThen (g := (·.mapMarks f)) ?_ fun v s₁ => rfl
          refine mapMarks_unlessError (evalExpr_mapMarks n value scope s) ?_
          intro v s₁
          exact yield_mapMarks s₁ rfl
      | .expression _ e | .bare e =>
          exact mapMarks_andThen (evalExpr_mapMarks n e scope s) fun v s₁ => rfl
      | .block (.program stmts) =>
          refine mapMarks_andThen (evalStmts_mapMarks n stmts none scope s) ?_
          intro last s₁
          cases last with
          | none => rfl
          | some v => exact congrArg (Outcome.done · _) (congrArg some (v.unwrapped_mapMarks f))
      | .block (.mk mark stmts) =>
          exact mapMarks_andThen (evalBlock_mapMarks n (.mk mark stmts) scope s) fun v s₁ => rfl
      | .unknown _ _ => rfl

theorem call_mapMarks : ∀ n (callee : Value) arguments s,
    apply n (callee.mapMarks f) (mapMarksAll f arguments) (s.mapMarks f) =
      (apply n callee arguments s).mapMarks f (·.mapMarks f)
  | 0, _, _, _ => by unfold apply; rfl
  | n + 1, callee, arguments, s => by
      unfold apply
      cases callee with
      | function _ parameters body outer =>
          have hnames : (parameters.map (Name.map f)).map Name.value =
              parameters.map Name.value := by
            rw [List.map_map]
            rfl
          simp only [Value.mapMarks, length_mapMarksAll, List.length_map]
          refine mapMarks_ite .rfl (yield_mapMarks s rfl) ?_
          rw [Store.openScope_mapMarks, hnames, Store.bindAll_mapMarks]
          refine mapMarks_andThen (evalBlock_mapMarks n body _ _) ?_
          intro v s₁
          exact congrArg (Outcome.done · (s₁.mapMarks f)) (v.unwrapped_mapMarks f)
      | builtin b => exact yield_mapMarks s (apply_mapMarks f b arguments)
      | _ => exact yield_mapMarks s rfl

end

end Rules

end MonkeyLang
