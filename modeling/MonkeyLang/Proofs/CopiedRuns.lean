import MonkeyLang.Proofs.ClosedStores

/-!
# Runs on a copy

A run on a copy of a store does what the run on the store does. It uses as many steps and
ends in the same way: with the same fault, or with an answer that has the higher numbers of
the copy, in a store that is a copy again. On the way the closed store stays closed, it only
grows, and what it comes to fits it.
-/

namespace MonkeyLang

/-! ## Answers under other labels -/

def relabelLast (r : Relabeling) (last : Option Value) : Option Value :=
  last.map (·.relabel r)

def relabelResult (r : Relabeling) : Except Value (List Value) → Except Value (List Value)
  | .ok vs => .ok (relabelAll r vs)
  | .error e => .error (e.relabel r)

theorem any_endsBlock_relabelLast (r : Relabeling) (last : Option Value) :
    (relabelLast r last).any Value.endsBlock = last.any Value.endsBlock := by
  cases last with
  | none => rfl
  | some v => exact v.endsBlock_relabel r

theorem map_unwrapped_relabelLast (r : Relabeling) (last : Option Value) :
    (relabelLast r last).map Value.unwrapped = relabelLast r (last.map Value.unwrapped) := by
  cases last with
  | none => rfl
  | some v => exact congrArg some (v.unwrapped_relabel r)

theorem map_cons_relabelResult (r : Relabeling) (v : Value) (vs : Except Value (List Value)) :
    (relabelResult r vs).map (v.relabel r :: ·) = relabelResult r (vs.map (v :: ·)) := by
  cases vs <;> rfl

/-! ## Outcomes -/

/-- Two runs that start on a store and on a copy of it come to the same. -/
inductive Outcome.Copies {α : Type} (act : Relabeling → α → α) (g : Gap) (s : Store) :
    Outcome α → Outcome α → Prop
  | done {a : α} {t t' : Store} : t.Covers act a → s.Grows t → t.Copies g t' →
    Copies act g s (.done a t) (.done (act g a) t')
  | fault {t t' : Store} (e : Fault) : Copies act g s (.fault (t := t) e) (.fault (t := t') e)
  | exhausted {t t' : Store} : Copies act g s (.exhausted (t := t)) (.exhausted (t := t'))

namespace Outcome.Copies

variable {α β γ : Type} {act : Relabeling → α → α} {act' : Relabeling → β → β}
  {act'' : Relabeling → γ → γ} {g : Gap} {s s' : Store}

theorem of_grows {t : Store} {o o' : Outcome α} (hst : s.Grows t) (h : o.Copies act g t o') :
    o.Copies act g s o' := by
  cases h with
  | done ha hgrows ht => exact .done ha (hst.trans hgrows) ht
  | fault e => exact .fault e
  | exhausted => exact .exhausted

theorem andThen {o o' : Outcome α} {f f' : α → Store → Outcome β} (h : o.Copies act g s o')
    (hf : ∀ {a t t'}, t.Covers act a → s.Grows t → t.Copies g t' →
      (f a t).Copies act' g t (f' (act g a) t')) :
    (o.andThen f).Copies act' g s (o'.andThen f') := by
  cases h with
  | done ha hgrows ht => exact of_grows hgrows (hf ha hgrows ht)
  | fault e => exact .fault e
  | exhausted => exact .exhausted

theorem unlessError {o o' : Outcome Value} {f f' : Value → Store → Outcome Value}
    (h : o.Copies Value.relabel g s o')
    (hf : ∀ {v t t'}, t.Covers Value.relabel v → s.Grows t → t.Copies g t' →
      (f v t).Copies Value.relabel g t (f' (v.relabel g) t')) :
    (o.unlessError f).Copies Value.relabel g s (o'.unlessError f') := by
  cases h with
  | done hv hgrows ht =>
      rw [unlessError_done, unlessError_done, Value.isError_relabel]
      split
      · exact .done hv hgrows ht
      · exact of_grows hgrows (hf hv hgrows ht)
  | fault e => exact .fault e
  | exhausted => exact .exhausted

theorem ite {p : Prop} [Decidable p] {o o' r r' : Outcome α} (h : o.Copies act g s o')
    (h' : r.Copies act g s r') :
    (if p then o else r).Copies act g s (if p then o' else r') := by
  split
  · exact h
  · exact h'

/-- What is there already is the answer. -/
theorem answer (hs : s.Copies g s') {a : α} (ha : s.Covers act a) :
    (Outcome.done a s).Copies act g s (.done (act g a) s') :=
  .done ha (.refl s) hs

theorem answer_map (hs : s.Copies g s') (f : α → β) (hf : ∀ r a, f (act r a) = act' r (f a))
    {a : α} (ha : s.Covers act a) :
    (Outcome.done (f a) s).Copies act' g s (.done (f (act g a)) s') := by
  rw [hf]
  exact answer hs (ha.map hf)

theorem answer_map₂ (hs : s.Copies g s') (f : α → β → γ)
    (hf : ∀ r a b, f (act r a) (act' r b) = act'' r (f a b)) {a : α} {b : β}
    (ha : s.Covers act a) (hb : s.Covers act' b) :
    (Outcome.done (f a b) s).Copies act'' g s (.done (f (act g a) (act' g b)) s') := by
  rw [hf]
  exact answer hs (ha.map₂ hf hb)

theorem yield (hs : s.Copies g s') {d : Draft} (hd : s.Covers Draft.relabel d) :
    (s.yield d).Copies Value.relabel g s (s'.yield (d.relabel g)) := by
  rw [Store.yield, Store.yield, hs.make_fst d]
  exact .done hd.make (s.grows_make d) (hs.make d)

/-- An operation that commutes with other labels. -/
theorem yield_map (hs : s.Copies g s') {f : α → Draft}
    (hf : ∀ r a, f (act r a) = (f a).relabel r) {a : α} (ha : s.Covers act a) :
    (s.yield (f a)).Copies Value.relabel g s (s'.yield (f (act g a))) := by
  rw [hf]
  exact .yield hs (ha.map hf)

theorem yield_map₂ (hs : s.Copies g s') {f : α → β → Draft}
    (hf : ∀ r a b, f (act r a) (act' r b) = (f a b).relabel r) {a : α} {b : β}
    (ha : s.Covers act a) (hb : s.Covers act' b) :
    (s.yield (f a b)).Copies Value.relabel g s (s'.yield (f (act g a) (act' g b))) := by
  rw [hf]
  exact .yield hs (ha.map₂ hf hb)

end Outcome.Copies

/-! ## Rules -/

theorem Store.Copies.valueOf {g : Gap} {s s' : Store} (hs : s.Copies g s') (scope : ScopeId)
    (name : String) :
    s'.valueOf (g.relabeling.scope scope) name = (s.valueOf scope name).relabel g := by
  unfold Store.valueOf
  rw [hs.find?]
  cases s.find? scope name with
  | some v => rfl
  | none => cases Builtin.ofName? name <;> rfl

theorem Store.Closed.covers_valueOf {s : Store} (hs : s.Closed) (scope : ScopeId)
    (name : String) : s.Covers Draft.relabel (s.valueOf scope name) := fun g hg => by
  unfold Store.valueOf
  cases hv : s.find? scope name with
  | some v => exact congrArg Draft.existing (Value.fits_iff.mp (hs.find? hv) g hg)
  | none => cases Builtin.ofName? name <;> rfl

open Outcome.Copies (answer yield)

variable {g : Gap} {scope : ScopeId} {s s' : Store}

mutual

theorem evalExpr_copies : ∀ n (e : Expr) {scope s s'}, s.Copies g s' → scope < s.scopes.size →
    (evalExpr n e scope s).Copies Value.relabel g s (evalExpr n e (g.relabeling.scope scope) s')
  | 0, _, _, _, _, _, _ => by unfold evalExpr; exact .exhausted
  | n + 1, e, scope, s, s', hs, hscope => by
      unfold evalExpr
      cases e with
      | identifier _ name =>
          simp only [hs.valueOf scope name]
          exact yield hs (hs.closed.covers_valueOf scope name)
      | integer _ _ | string _ _ | boolean _ _ => exact yield hs fun _ _ => rfl
      | function _ parameters body =>
          exact yield hs fun g hg => congrArg (Draft.function parameters body)
            (Store.covers_scope hscope g hg)
      | unknown _ _ => exact .fault _
      | prefixOp _ operator right =>
          refine (evalExpr_copies n right hs hscope).unlessError fun hr _ hs₁ => ?_
          exact .yield_map hs₁ (fun r => Value.prefixOp_relabel r operator) hr
      | infixOp _ left operator right =>
          refine (evalExpr_copies n left hs hscope).unlessError fun hl hgrows hs₁ => ?_
          have hscope₁ := hgrows.scope_lt hscope
          refine (evalExpr_copies n right hs₁ hscope₁).unlessError fun hr hgrows₁ hs₂ => ?_
          exact .yield_map₂ hs₂ (fun r => Value.infixOp_relabel r operator) (hl.mono hgrows₁) hr
      | conditional _ condition consequence alternative =>
          refine (evalExpr_copies n condition hs hscope).unlessError fun _ hgrows hs₁ => ?_
          have hscope₁ := hgrows.scope_lt hscope
          rw [Value.isTruthy_relabel]
          refine .ite (evalBlock_copies n consequence hs₁ hscope₁) ?_
          cases alternative with
          | none => exact answer hs₁ fun _ _ => rfl
          | some other => exact evalBlock_copies n other hs₁ hscope₁
      | loop _ condition body => exact evalLoop_copies n condition body hs hscope
      | call _ function arguments =>
          refine (evalExpr_copies n function hs hscope).unlessError fun hf hgrows hs₁ => ?_
          have hscope₁ := hgrows.scope_lt hscope
          refine (evalAll_copies n arguments hs₁ hscope₁).andThen fun {vs _ _} hvs hgrows₁ hs₂ => ?_
          cases vs with
          | error e => exact answer hs₂ fun g hg => Except.error.inj (hvs g hg)
          | ok values =>
              exact apply_copies n hs₂ (hf.mono hgrows₁) fun g hg => Except.ok.inj (hvs g hg)
      | array _ elements =>
          refine (evalAll_copies n elements hs hscope).andThen fun {vs _ _} hvs _ hs₁ => ?_
          cases vs with
          | error e => exact answer hs₁ fun g hg => Except.error.inj (hvs g hg)
          | ok values =>
              exact yield hs₁ fun g hg => congrArg Draft.array (Except.ok.inj (hvs g hg))
      | index _ left index =>
          refine (evalExpr_copies n left hs hscope).unlessError fun hl hgrows hs₁ => ?_
          have hscope₁ := hgrows.scope_lt hscope
          refine (evalExpr_copies n index hs₁ hscope₁).unlessError fun hi hgrows₁ hs₂ => ?_
          exact .yield_map₂ hs₂ Value.indexOp_relabel (hl.mono hgrows₁) hi
      | hash _ pairs => exact evalPairs_copies n pairs hs hscope fun _ _ => rfl
      | statement stmt =>
          refine (evalStmt_copies n stmt hs hscope).andThen fun {v _ _} hv _ hs₁ => ?_
          exact .answer_map hs₁ (·.getD .null) Value.getD_relabel hv

theorem evalAll_copies : ∀ n (es : List Expr) {scope s s'}, s.Copies g s' →
    scope < s.scopes.size →
    (evalAll n es scope s).Copies relabelResult g s (evalAll n es (g.relabeling.scope scope) s')
  | 0, _, _, _, _, _, _ => by unfold evalAll; exact .exhausted
  | n + 1, [], scope, s, s', hs, _ => by unfold evalAll; exact answer hs fun _ _ => rfl
  | n + 1, e :: es, scope, s, s', hs, hscope => by
      unfold evalAll
      refine (evalExpr_copies n e hs hscope).andThen fun {v _ _} hv hgrows hs₁ => ?_
      have hscope₁ := hgrows.scope_lt hscope
      rw [Value.isError_relabel]
      refine .ite (.answer_map hs₁ Except.error (fun _ _ => rfl) hv) ?_
      refine (evalAll_copies n es hs₁ hscope₁).andThen fun hvs hgrows₁ hs₂ => ?_
      exact .answer_map₂ hs₂ (fun v vs => vs.map (v :: ·)) map_cons_relabelResult
        (hv.mono hgrows₁) hvs

theorem evalPairs_copies : ∀ n (pairs : List (Expr × Expr)) {entries scope s s'},
    s.Copies g s' → scope < s.scopes.size → s.Covers relabelEntries entries →
    (evalPairs n pairs entries scope s).Copies Value.relabel g s
      (evalPairs n pairs (relabelEntries g entries) (g.relabeling.scope scope) s')
  | 0, _, _, _, _, _, _, _, _ => by unfold evalPairs; exact .exhausted
  | n + 1, [], entries, scope, s, s', hs, _, hes => by
      unfold evalPairs
      exact .yield_map hs (fun _ _ => rfl) hes
  | n + 1, (key, value) :: pairs, entries, scope, s, s', hs, hscope, hes => by
      unfold evalPairs
      refine (evalExpr_copies n key hs hscope).unlessError fun hk hgrows hs₁ => ?_
      have hscope₁ := hgrows.scope_lt hscope
      rw [Value.hashKey?_relabel, Value.type_relabel]
      refine .ite (yield hs₁ fun _ _ => rfl) ?_
      refine (evalExpr_copies n value hs₁ hscope₁).unlessError fun hv hgrows₁ hs₂ => ?_
      have hscope₂ := hgrows₁.scope_lt hscope₁
      rw [Value.insert_relabel]
      refine evalPairs_copies n pairs hs₂ hscope₂ fun g hg => ?_
      rw [← Value.insert_relabel, hk.mono hgrows₁ g hg, hv g hg,
        hes.mono (hgrows.trans hgrows₁) g hg]

theorem evalLoop_copies : ∀ n (condition : Expr) (body : Block) {scope s s'}, s.Copies g s' →
    scope < s.scopes.size → (evalLoop n condition body scope s).Copies Value.relabel g s
      (evalLoop n condition body (g.relabeling.scope scope) s')
  | 0, _, _, _, _, _, _, _ => by unfold evalLoop; exact .exhausted
  | n + 1, condition, body, scope, s, s', hs, hscope => by
      unfold evalLoop
      refine (evalExpr_copies n condition hs hscope).unlessError fun _ hgrows hs₁ => ?_
      have hscope₁ := hgrows.scope_lt hscope
      rw [Value.isTruthy_relabel]
      refine .ite ?_ (answer hs₁ fun _ _ => rfl)
      refine (evalBlock_copies n body hs₁ hscope₁).andThen fun hv hgrows₁ hs₂ => ?_
      rw [Value.endsBlock_relabel]
      refine .ite (answer hs₂ hv) ?_
      exact evalLoop_copies n condition body hs₂ (hgrows₁.scope_lt hscope₁)

theorem evalBlock_copies : ∀ n (b : Block) {scope s s'}, s.Copies g s' →
    scope < s.scopes.size →
    (evalBlock n b scope s).Copies Value.relabel g s (evalBlock n b (g.relabeling.scope scope) s')
  | 0, _, _, _, _, _, _ => by unfold evalBlock; exact .exhausted
  | n + 1, b, scope, s, s', hs, hscope => by
      unfold evalBlock
      refine (evalStmts_copies n b.statements hs hscope fun _ _ => rfl).andThen ?_
      exact fun hlast _ hs₁ => .answer_map hs₁ (·.getD .null) Value.getD_relabel hlast

theorem evalStmts_copies : ∀ n (stmts : List Stmt) {last scope s s'}, s.Copies g s' →
    scope < s.scopes.size → s.Covers relabelLast last →
    (evalStmts n stmts last scope s).Copies relabelLast g s
      (evalStmts n stmts (relabelLast g last) (g.relabeling.scope scope) s')
  | 0, _, _, _, _, _, _, _, _ => by unfold evalStmts; exact .exhausted
  | n + 1, [], last, scope, s, s', hs, _, hlast => by unfold evalStmts; exact answer hs hlast
  | n + 1, stmt :: stmts, last, scope, s, s', hs, hscope, _ => by
      unfold evalStmts
      refine (evalStmt_copies n stmt hs hscope).andThen fun hv hgrows hs₁ => ?_
      rw [any_endsBlock_relabelLast]
      refine .ite (answer hs₁ hv) ?_
      exact evalStmts_copies n stmts hs₁ (hgrows.scope_lt hscope) hv

theorem evalStmt_copies : ∀ n (stmt : Stmt) {scope s s'}, s.Copies g s' →
    scope < s.scopes.size →
    (evalStmt n stmt scope s).Copies relabelLast g s
      (evalStmt n stmt (g.relabeling.scope scope) s')
  | 0, _, _, _, _, _, _ => by unfold evalStmt; exact .exhausted
  | n + 1, stmt, scope, s, s', hs, hscope => by
      unfold evalStmt
      match stmt with
      | .binding _ name value =>
          refine (evalExpr_copies n value hs hscope).andThen fun {v t t'} hv hgrows hs₁ => ?_
          rw [Value.isError_relabel]
          refine .ite (.answer_map hs₁ some (fun _ _ => rfl) hv) ?_
          exact .done (fun _ _ => rfl) (t.grows_bind scope name.value v)
            (hs₁.bind scope name.value (Value.fits_iff.mpr hv))
      | .leave _ value =>
          refine .andThen ?_ fun hv _ hs₁ => .answer_map hs₁ some (fun _ _ => rfl) hv
          refine (evalExpr_copies n value hs hscope).unlessError fun hv _ hs₁ => ?_
          exact .yield_map hs₁ (fun _ _ => rfl) hv
      | .expression _ e | .bare e =>
          refine (evalExpr_copies n e hs hscope).andThen fun hv _ hs₁ => ?_
          exact .answer_map hs₁ some (fun _ _ => rfl) hv
      | .block (.program stmts) =>
          refine (evalStmts_copies n stmts hs hscope fun _ _ => rfl).andThen fun hlast _ hs₁ => ?_
          exact .answer_map hs₁ (·.map Value.unwrapped) map_unwrapped_relabelLast hlast
      | .block (.mk mark stmts) =>
          refine (evalBlock_copies n (.mk mark stmts) hs hscope).andThen fun hv _ hs₁ => ?_
          exact .answer_map hs₁ some (fun _ _ => rfl) hv
      | .unknown _ _ => exact .fault _

theorem apply_copies : ∀ n {f : Value} {arguments : List Value} {s s'}, s.Copies g s' →
    s.Covers Value.relabel f → s.Covers relabelAll arguments →
    (apply n f arguments s).Copies Value.relabel g s
      (apply n (f.relabel g) (relabelAll g arguments) s')
  | 0, _, _, _, _, _, _, _ => by unfold apply; exact .exhausted
  | n + 1, f, arguments, s, s', hs, hf, harguments => by
      unfold apply
      cases f with
      | function id parameters body outer =>
          simp only [Value.relabel]
          rw [length_relabelAll]
          refine .ite (yield hs fun _ _ => rfl) ?_
          obtain ⟨hgrows, hnew, hinner⟩ := hs.enter (Value.fits_iff.mpr hf).self.2
            (parameters.map Name.value) (Store.covers_all_iff.mp harguments)
          have hbody := evalBlock_copies n body hinner hnew
          rw [hs.raise_size] at hbody
          refine (hbody.of_grows hgrows).andThen fun hv _ hs₁ => ?_
          exact .answer_map hs₁ Value.unwrapped Value.unwrapped_relabel hv
      | builtin b => exact .yield_map hs (fun r => builtin_relabel r b) harguments
      | _ => exact yield hs fun _ _ => rfl

end

end MonkeyLang
