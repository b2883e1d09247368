import MonkeyLang.Proofs.Pervasive
import MonkeyLang.Value.Inspect

/-!
# Runs of known trees

A run stops at a node that cannot be evaluated only if there is one: a known tree
in a store of known values yields known values, and never a fault. Functions keep
their bodies in the store, so what is known of the tree has to be known of all
values that the store binds as well.
-/

namespace MonkeyLang

/-! ## Known values -/

/-- The value has a text: all code in it is known. -/
def Value.Known (v : Value) : Prop := v.isKnown = true

theorem Value.elementsKnown_iff {vs : List Value} :
    elementsKnown vs = true ↔ ∀ v ∈ vs, v.Known := by
  induction vs with
  | nil => exact iff_of_true rfl nofun
  | cons v vs ih => rw [elementsKnown, Bool.and_eq_true, ih, List.forall_mem_cons, Known]

theorem Value.entriesKnown_iff {es : List (Value × Value)} :
    entriesKnown es = true ↔ ∀ e ∈ es, e.1.Known ∧ e.2.Known := by
  induction es with
  | nil => exact iff_of_true rfl nofun
  | cons e es ih =>
      rw [entriesKnown, Bool.and_eq_true, Bool.and_eq_true, ih, List.forall_mem_cons, Known, Known]

theorem pervasive_known : Pervasive Value.Known where
  integer _ _ := rfl
  boolean _ := rfl
  string _ _ := rfl
  null := rfl
  builtin _ := rfl
  array_iff _ _ := Value.elementsKnown_iff
  hash_iff _ _ := Value.entriesKnown_iff

/-- What a rule has computed without a fault, and the store after it, are known. -/
def Outcome.Knows {α : Type} (ok : α → Prop) : Outcome α → Prop
  | .done a s => ok a ∧ s.All Value.Known
  | .fault _ => False
  | .exhausted => True

namespace Outcome.Knows

variable {α β : Type} {ok : α → Prop} {ok' : β → Prop} {s : Store}

theorem andThen {o : Outcome α} {f : α → Store → Outcome β} (h : o.Knows ok)
    (hf : ∀ a s', ok a → s'.All Value.Known → (f a s').Knows ok') : (o.andThen f).Knows ok' := by
  cases o with
  | done a s' => exact hf a s' h.1 h.2
  | fault e => exact h.elim
  | exhausted => trivial

theorem unlessError {o : Outcome Value} {f : Value → Store → Outcome Value}
    (h : o.Knows Value.Known)
    (hf : ∀ v s', v.Known → s'.All Value.Known → (f v s').Knows Value.Known) :
    (o.unlessError f).Knows Value.Known := by
  cases o with
  | done v s' =>
      rw [unlessError_done]
      split
      · exact h
      · exact hf v s' h.1 h.2
  | fault e => exact h.elim
  | exhausted => trivial

theorem ite {p : Prop} [Decidable p] {o o' : Outcome α} (h : o.Knows ok) (h' : o'.Knows ok) :
    (if p then o else o').Knows ok := by
  split
  · exact h
  · exact h'

theorem yield (hs : s.All Value.Known) {d : Draft} (hd : d.Has Value.Known) :
    (s.yield d).Knows Value.Known := by
  refine ⟨?_, hs.make d⟩
  rcases hd with ⟨e, rfl⟩ | hd
  · exact rfl
  · exact hd s.nextId

end Outcome.Knows

/-! ## Rules -/

/-- The values of a list of expressions, or the error among them, are known. -/
def KnownAll : Except Value (List Value) → Prop
  | .ok vs => ∀ v ∈ vs, v.Known
  | .error v => v.Known

theorem knownOption_none : ∀ v ∈ (none : Option Value), v.Known := nofun

theorem knownOption_some {v : Value} (hv : v.Known) : ∀ w ∈ some v, w.Known := by
  rintro w ⟨⟩
  exact hv

theorem known_getD {last : Option Value} (h : ∀ v ∈ last, v.Known) : (last.getD .null).Known :=
  pervasive_known.getD_null fun v hv => h v hv

theorem known_unwrapped {v : Value} (h : v.Known) : v.unwrapped.Known := by
  cases v <;> exact h

theorem known_map_unwrapped {last : Option Value} (h : ∀ v ∈ last, v.Known) :
    ∀ v ∈ last.map Value.unwrapped, v.Known :=
  Option.forall_mem_map.mpr fun v hv => known_unwrapped (h v hv)

open Outcome in
mutual

theorem evalExpr_known : ∀ n (e : Expr) scope s, e.isKnown = true → s.All Value.Known →
    (evalExpr n e scope s).Knows Value.Known
  | 0, _, _, _, _, _ => by unfold evalExpr; trivial
  | n + 1, e, scope, s, h, hs => by
      unfold evalExpr
      cases e with
      | identifier _ name => exact .yield hs (hs.valueOf pervasive_known.builtin scope name)
      | integer _ value => exact .yield hs (pervasive_known.has_integer value)
      | string _ value => exact .yield hs (pervasive_known.has_string value)
      | boolean _ value => exact .yield hs (pervasive_known.has_boolean value)
      | function _ parameters body => exact .yield hs (.inr fun _ => h)
      | unknown _ _ => exact nomatch h
      | prefixOp _ operator right =>
          refine (evalExpr_known n right scope s h hs).unlessError ?_
          intro r s₁ _ hs₁
          exact .yield hs₁ (pervasive_known.has_prefixOp operator r)
      | infixOp _ left operator right =>
          obtain ⟨hl, hr⟩ := Bool.and_eq_true_iff.mp h
          refine (evalExpr_known n left scope s hl hs).unlessError ?_
          intro l s₁ _ hs₁
          refine (evalExpr_known n right scope s₁ hr hs₁).unlessError ?_
          intro r s₂ _ hs₂
          exact .yield hs₂ (pervasive_known.has_infixOp l operator r)
      | conditional _ condition consequence alternative =>
          obtain ⟨h, he⟩ := Bool.and_eq_true_iff.mp h
          obtain ⟨hc, ht⟩ := Bool.and_eq_true_iff.mp h
          refine (evalExpr_known n condition scope s hc hs).unlessError ?_
          intro _ s₁ _ hs₁
          refine .ite (evalBlock_known n consequence scope s₁ ht hs₁) ?_
          cases alternative with
          | none => exact ⟨rfl, hs₁⟩
          | some other => exact evalBlock_known n other scope s₁ he hs₁
      | loop _ condition body =>
          obtain ⟨hc, hb⟩ := Bool.and_eq_true_iff.mp h
          exact evalLoop_known n condition body scope s hc hb hs
      | call _ function arguments =>
          obtain ⟨hf, ha⟩ := Bool.and_eq_true_iff.mp h
          refine (evalExpr_known n function scope s hf hs).unlessError ?_
          intro f s₁ hf hs₁
          refine (evalAll_known n arguments scope s₁ ha hs₁).andThen ?_
          intro vs s₂ hvs hs₂
          cases vs with
          | error e => exact ⟨hvs, hs₂⟩
          | ok vs => exact apply_known n f vs s₂ hf hvs hs₂
      | array _ elements =>
          refine (evalAll_known n elements scope s h hs).andThen ?_
          intro vs s₁ hvs hs₁
          cases vs with
          | error e => exact ⟨hvs, hs₁⟩
          | ok vs => exact .yield hs₁ (.inr fun id => (pervasive_known.array_iff id vs).mpr hvs)
      | index _ left index =>
          obtain ⟨hl, hi⟩ := Bool.and_eq_true_iff.mp h
          refine (evalExpr_known n left scope s hl hs).unlessError ?_
          intro l s₁ hl hs₁
          refine (evalExpr_known n index scope s₁ hi hs₁).unlessError ?_
          intro i s₂ _ hs₂
          exact .yield hs₂ (pervasive_known.has_indexOp hl i)
      | hash _ pairs => exact evalPairs_known n pairs [] scope s h nofun hs
      | statement stmt =>
          refine (evalStmt_known n stmt scope s h hs).andThen ?_
          intro v s₁ hv hs₁
          exact ⟨known_getD hv, hs₁⟩

theorem evalAll_known : ∀ n es scope s, allKnown es = true → s.All Value.Known →
    (evalAll n es scope s).Knows KnownAll
  | 0, _, _, _, _, _ => by unfold evalAll; trivial
  | n + 1, [], scope, s, _, hs => by unfold evalAll; exact ⟨List.forall_mem_nil _, hs⟩
  | n + 1, e :: es, scope, s, h, hs => by
      obtain ⟨he, hes⟩ := Bool.and_eq_true_iff.mp h
      unfold evalAll
      refine (evalExpr_known n e scope s he hs).andThen ?_
      intro v s₁ hv hs₁
      refine .ite ⟨hv, hs₁⟩ ?_
      refine (evalAll_known n es scope s₁ hes hs₁).andThen ?_
      intro vs s₂ hvs hs₂
      cases vs with
      | error e => exact ⟨hvs, hs₂⟩
      | ok vs => exact ⟨List.forall_mem_cons.mpr ⟨hv, hvs⟩, hs₂⟩

theorem evalPairs_known : ∀ n pairs entries scope s, pairsKnown pairs = true →
    (∀ e ∈ entries, e.1.Known ∧ e.2.Known) → s.All Value.Known →
    (evalPairs n pairs entries scope s).Knows Value.Known
  | 0, _, _, _, _, _, _, _ => by unfold evalPairs; trivial
  | n + 1, [], entries, scope, s, _, hes, hs => by
      unfold evalPairs
      exact .yield hs (.inr fun id => (pervasive_known.hash_iff id entries).mpr hes)
  | n + 1, (key, value) :: pairs, entries, scope, s, h, hes, hs => by
      obtain ⟨h, hps⟩ := Bool.and_eq_true_iff.mp h
      obtain ⟨hk, hv⟩ := Bool.and_eq_true_iff.mp h
      unfold evalPairs
      refine (evalExpr_known n key scope s hk hs).unlessError ?_
      intro k s₁ hk hs₁
      refine .ite (.yield hs₁ (.error _)) ?_
      refine (evalExpr_known n value scope s₁ hv hs₁).unlessError ?_
      intro v s₂ hv hs₂
      exact evalPairs_known n pairs _ scope s₂ hps (Pervasive.insert hk hv hes) hs₂

theorem evalLoop_known : ∀ n (condition : Expr) (body : Block) scope s,
    condition.isKnown = true → body.isKnown = true → s.All Value.Known →
    (evalLoop n condition body scope s).Knows Value.Known
  | 0, _, _, _, _, _, _, _ => by unfold evalLoop; trivial
  | n + 1, condition, body, scope, s, hc, hb, hs => by
      unfold evalLoop
      refine (evalExpr_known n condition scope s hc hs).unlessError ?_
      intro _ s₁ _ hs₁
      refine .ite ?_ ⟨rfl, hs₁⟩
      refine (evalBlock_known n body scope s₁ hb hs₁).andThen ?_
      intro v s₂ hv hs₂
      exact .ite ⟨hv, hs₂⟩ (evalLoop_known n condition body scope s₂ hc hb hs₂)

theorem evalBlock_known : ∀ n (b : Block) scope s, b.isKnown = true → s.All Value.Known →
    (evalBlock n b scope s).Knows Value.Known
  | 0, _, _, _, _, _ => by unfold evalBlock; trivial
  | n + 1, b, scope, s, h, hs => by
      have hstmts : stmtsKnown b.statements = true := by
        cases b <;> exact h
      unfold evalBlock
      refine (evalStmts_known n b.statements none scope s hstmts knownOption_none hs).andThen ?_
      intro last s₁ hlast hs₁
      exact ⟨known_getD hlast, hs₁⟩

theorem evalStmts_known : ∀ n stmts last scope s, stmtsKnown stmts = true →
    (∀ v ∈ last, v.Known) → s.All Value.Known →
    (evalStmts n stmts last scope s).Knows fun last => ∀ v ∈ last, v.Known
  | 0, _, _, _, _, _, _, _ => by unfold evalStmts; trivial
  | n + 1, [], last, scope, s, _, hlast, hs => by unfold evalStmts; exact ⟨hlast, hs⟩
  | n + 1, stmt :: stmts, last, scope, s, h, _, hs => by
      obtain ⟨hstmt, hstmts⟩ := Bool.and_eq_true_iff.mp h
      unfold evalStmts
      refine (evalStmt_known n stmt scope s hstmt hs).andThen ?_
      intro v s₁ hv hs₁
      exact .ite ⟨hv, hs₁⟩ (evalStmts_known n stmts v scope s₁ hstmts hv hs₁)

theorem evalStmt_known : ∀ n (stmt : Stmt) scope s, stmt.isKnown = true → s.All Value.Known →
    (evalStmt n stmt scope s).Knows fun v => ∀ w ∈ v, w.Known
  | 0, _, _, _, _, _ => by unfold evalStmt; trivial
  | n + 1, stmt, scope, s, h, hs => by
      unfold evalStmt
      match stmt with
      | .binding _ name value =>
          refine (evalExpr_known n value scope s h hs).andThen ?_
          intro v s₁ hv hs₁
          exact .ite ⟨knownOption_some hv, hs₁⟩ ⟨knownOption_none, hs₁.bind scope name.value hv⟩
      | .leave _ value =>
          have hvalue := (evalExpr_known n value scope s h hs).unlessError
            (f := fun v s => s.yield (.returned v)) fun v s₁ hv hs₁ => .yield hs₁ (.inr fun _ => hv)
          exact hvalue.andThen fun _ _ hv hs₁ => ⟨knownOption_some hv, hs₁⟩
      | .expression _ e | .bare e =>
          exact (evalExpr_known n e scope s h hs).andThen fun _ _ hv hs₁ =>
            ⟨knownOption_some hv, hs₁⟩
      | .block (.program stmts) =>
          refine (evalStmts_known n stmts none scope s h knownOption_none hs).andThen ?_
          intro last s₁ hlast hs₁
          exact ⟨known_map_unwrapped hlast, hs₁⟩
      | .block (.mk mark stmts) =>
          exact (evalBlock_known n (.mk mark stmts) scope s h hs).andThen fun _ _ hv hs₁ =>
            ⟨knownOption_some hv, hs₁⟩
      | .unknown _ _ => exact nomatch h

theorem apply_known : ∀ n (f : Value) arguments s, f.Known → (∀ v ∈ arguments, v.Known) →
    s.All Value.Known → (apply n f arguments s).Knows Value.Known
  | 0, _, _, _, _, _, _ => by unfold apply; trivial
  | n + 1, f, arguments, s, hf, ha, hs => by
      unfold apply
      split
      · split
        · exact .yield hs (.error _)
        · refine (evalBlock_known n _ _ _ hf ((hs.openScope _).bindAll _ _ ha)).andThen ?_
          intro v s₁ hv hs₁
          exact ⟨known_unwrapped hv, hs₁⟩
      · exact .yield hs (pervasive_known.has_apply _ ha)
      · exact .yield hs (.error _)

end

/-- A known program comes to a known value or to none, without a fault. -/
theorem evalProgram_known (n : Nat) (p : Program) (scope : ScopeId) (s : Store)
    (hp : stmtsKnown p.statements = true) (hs : s.All Value.Known) :
    (evalProgram n p scope s).Knows fun v => ∀ w ∈ v, w.Known :=
  (evalStmts_known n p.statements none scope s hp knownOption_none hs).andThen
    fun _ _ hlast hs₁ => ⟨known_map_unwrapped hlast, hs₁⟩

end MonkeyLang
