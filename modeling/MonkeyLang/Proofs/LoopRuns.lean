import Mathlib.Logic.Relation
import MonkeyLang.Proofs.AtRest
import MonkeyLang.Proofs.Moments
import MonkeyLang.Proofs.MoreSteps
import MonkeyLang.Syntax.Parser

/-!
# What loops come to

A loop goes through iterations, and each of them may be the last: its condition is an error or
does not count as true, or its body comes to an error or to a returned value. The value of the
loop is that value, and null if the condition did not count as true (`loop_comesTo_iff`).

A returned value that comes of the condition does not end the loop. It counts as true, and the
body is entered (`loop_enters_body_after_return`). Whether it should end the loop, as an error
does, makes no difference to loops whose conditions come to no returned value.
-/

namespace MonkeyLang

/-! ## Iterations -/

/-- The parts of a loop and the scope that it runs in. -/
structure Loop where
  condition : Expr
  body : Block
  scope : ScopeId

namespace Loop

/-- An iteration takes one store to another, and the loop goes on. `breaks` says of which values
the condition must not be. -/
inductive Continues (L : Loop) (breaks : Value → Bool) : Store → Store → Prop
  | next {s c s₁ v s₂} : L.condition.ComesTo L.scope s c s₁ → breaks c = false →
    c.isTruthy = true → L.body.ComesTo L.scope s₁ v s₂ → v.endsBlock = false →
    L.Continues breaks s s₂

/-- An iteration ends the loop with a value. -/
inductive Stops (L : Loop) (breaks : Value → Bool) : Store → Value → Store → Prop
  /-- The condition comes to a value that ends the loop itself. -/
  | broken {s c s₁} : L.condition.ComesTo L.scope s c s₁ → breaks c = true → L.Stops breaks s c s₁
  /-- The condition does not count as true. -/
  | finished {s c s₁} : L.condition.ComesTo L.scope s c s₁ → breaks c = false →
    c.isTruthy = false → L.Stops breaks s .null s₁
  /-- The body comes to an error or to a returned value. -/
  | left {s c s₁ v s₂} : L.condition.ComesTo L.scope s c s₁ → breaks c = false →
    c.isTruthy = true → L.body.ComesTo L.scope s₁ v s₂ → v.endsBlock = true →
    L.Stops breaks s v s₂

/-- After some iterations one ends the loop with a value. -/
def Ends (L : Loop) (breaks : Value → Bool) (s : Store) (v : Value) (t : Store) : Prop :=
  ∃ s', Relation.ReflTransGen (L.Continues breaks) s s' ∧ L.Stops breaks s' v t

/-- In no iteration the condition comes to a returned value. -/
def TestsPlainly (L : Loop) (s : Store) : Prop :=
  ∀ s' c s₁, Relation.ReflTransGen (L.Continues Value.isError) s s' →
    L.condition.ComesTo L.scope s' c s₁ → c.type ≠ .returned

variable {L : Loop} {breaks : Value → Bool} {s s' t : Store} {v : Value}

theorem Ends.of_continues (h : L.Continues breaks s s') (h' : L.Ends breaks s' v t) :
    L.Ends breaks s v t := by
  obtain ⟨s₁, hs₁, hstops⟩ := h'
  exact ⟨s₁, .head h hs₁, hstops⟩

/-! ## Iterations of the evaluation -/

/-- After an iteration the loop is what it is from the next one on, with one step less. -/
theorem Continues.evalLoop_eq (h : L.Continues Value.isError s s') :
    ∃ k, ∀ n, k ≤ n →
      evalLoop (n + 1) L.condition L.body L.scope s = evalLoop n L.condition L.body L.scope s' := by
  obtain ⟨⟨i, hc⟩, hok, htrue, ⟨j, hv⟩, hgoes⟩ := h
  refine ⟨max i j, fun n hn => ?_⟩
  have hc := Outcome.Extends.done_of_le (fun n => evalExpr_extends n _ _ _)
    (Nat.le_trans (Nat.le_max_left i j) hn) hc
  have hv := Outcome.Extends.done_of_le (fun n => evalBlock_extends n _ _ _)
    (Nat.le_trans (Nat.le_max_right i j) hn) hv
  rw [evalLoop, hc, Outcome.unlessError_done, hok, htrue, hv, Outcome.andThen_done, hgoes]
  rfl

theorem Stops.exists_evalLoop (h : L.Stops Value.isError s v t) :
    ∃ n, evalLoop n L.condition L.body L.scope s = .done v t := by
  cases h with
  | broken hc hbreaks =>
      obtain ⟨n, hc⟩ := hc
      refine ⟨n + 1, ?_⟩
      rw [evalLoop, hc, Outcome.unlessError_done, hbreaks]
      rfl
  | finished hc hok hfalse =>
      obtain ⟨n, hc⟩ := hc
      refine ⟨n + 1, ?_⟩
      rw [evalLoop, hc, Outcome.unlessError_done, hok, hfalse]
      rfl
  | left hc hok htrue hv hends =>
      obtain ⟨i, hc⟩ := hc
      obtain ⟨j, hv⟩ := hv
      refine ⟨max i j + 1, ?_⟩
      have hc := Outcome.Extends.done_of_le (fun n => evalExpr_extends n _ _ _)
        (Nat.le_max_left i j) hc
      have hv := Outcome.Extends.done_of_le (fun n => evalBlock_extends n _ _ _)
        (Nat.le_max_right i j) hv
      rw [evalLoop, hc, Outcome.unlessError_done, hok, htrue, hv, Outcome.andThen_done, hends]
      rfl

/-- The run of a loop, taken apart into its iterations. -/
theorem ends_of_evalLoop : ∀ n {s : Store}, evalLoop n L.condition L.body L.scope s = .done v t →
    L.Ends Value.isError s v t
  | 0, _, h => by
      unfold evalLoop at h
      exact nomatch h
  | n + 1, s, h => by
      unfold evalLoop at h
      cases hc : evalExpr n L.condition L.scope s with
      | exhausted => rw [hc] at h; exact nomatch h
      | fault e => rw [hc] at h; exact nomatch h
      | done c s₁ =>
          rw [hc, Outcome.unlessError_done] at h
          split at h
          · rename_i herror
            cases h
            exact ⟨s, .refl, .broken ⟨n, hc⟩ herror⟩
          rename_i hok
          have hok := Bool.eq_false_iff.mpr hok
          split at h
          · rename_i htrue
            obtain ⟨w, s₂, hw, h⟩ := Outcome.andThen_eq_done h
            split at h
            · rename_i hends
              cases h
              exact ⟨s, .refl, .left ⟨n, hc⟩ hok htrue ⟨n, hw⟩ hends⟩
            · rename_i hgoes
              have hnext := Continues.next ⟨n, hc⟩ hok htrue ⟨n, hw⟩ (Bool.eq_false_iff.mpr hgoes)
              exact (ends_of_evalLoop n h).of_continues hnext
          · rename_i hfalse
            cases h
            exact ⟨s, .refl, .finished ⟨n, hc⟩ hok (Bool.eq_false_iff.mpr hfalse)⟩

theorem Ends.exists_evalLoop (h : L.Ends Value.isError s v t) :
    ∃ n, evalLoop n L.condition L.body L.scope s = .done v t := by
  obtain ⟨s', hs', hstops⟩ := h
  induction hs' using Relation.ReflTransGen.head_induction_on with
  | refl => exact hstops.exists_evalLoop
  | head hcontinues _ ih =>
      obtain ⟨k, hk⟩ := hcontinues.evalLoop_eq
      obtain ⟨n, hn⟩ := ih
      refine ⟨max k n + 1, ?_⟩
      rw [hk _ (Nat.le_max_left k n)]
      exact Outcome.Extends.done_of_le (fun n => evalLoop_extends n _ _ _ _)
        (Nat.le_max_right k n) hn

/-! ## Returned values of conditions -/

theorem endsBlock_eq_isError (h : v.type ≠ .returned) : v.endsBlock = v.isError := by
  cases v with
  | returned _ _ => exact absurd rfl h
  | _ => rfl

theorem isError_eq_false (h : v.endsBlock = false) : v.isError = false := by
  cases v with
  | error _ _ => exact nomatch h
  | _ => rfl

section Congr

variable {breaks' : Value → Bool}

theorem Continues.congr
    (hbreaks : ∀ c s₁, L.condition.ComesTo L.scope s c s₁ → breaks c = breaks' c)
    (h : L.Continues breaks s s') : L.Continues breaks' s s' := by
  obtain ⟨hc, hok, htrue, hv, hgoes⟩ := h
  exact .next hc (hbreaks _ _ hc ▸ hok) htrue hv hgoes

theorem Stops.congr
    (hbreaks : ∀ c s₁, L.condition.ComesTo L.scope s c s₁ → breaks c = breaks' c)
    (h : L.Stops breaks s v t) : L.Stops breaks' s v t := by
  cases h with
  | broken hc hok => exact .broken hc (hbreaks _ _ hc ▸ hok)
  | finished hc hok hfalse => exact .finished hc (hbreaks _ _ hc ▸ hok) hfalse
  | left hc hok htrue hv hends => exact .left hc (hbreaks _ _ hc ▸ hok) htrue hv hends

/-- What ends a loop is asked of the values of its conditions only. -/
theorem Ends.congr
    (hbreaks : ∀ s' c s₁, Relation.ReflTransGen (L.Continues breaks) s s' →
      L.condition.ComesTo L.scope s' c s₁ → breaks c = breaks' c)
    (h : L.Ends breaks s v t) : L.Ends breaks' s v t := by
  obtain ⟨s', hs', hstops⟩ := h
  refine ⟨s', ?_, hstops.congr (hbreaks s' · · hs')⟩
  clear hstops
  induction hs' with
  | refl => exact .refl
  | tail hs hstep ih => exact ih.tail (hstep.congr (hbreaks _ · · hs))

end Congr

/-- A loop whose conditions come to no returned value is ended by the same values of the
condition, whether returned values are among those that end it or not. -/
theorem TestsPlainly.ends_iff (h : L.TestsPlainly s) :
    L.Ends Value.endsBlock s v t ↔ L.Ends Value.isError s v t := by
  have hmono : ∀ s s', L.Continues Value.endsBlock s s' → L.Continues Value.isError s s' := by
    rintro _ _ ⟨hc, hok, htrue, hv, hgoes⟩
    exact .next hc (isError_eq_false hok) htrue hv hgoes
  constructor
  · exact Ends.congr fun s' c s₁ hs' hc =>
      endsBlock_eq_isError (h s' c s₁ (Relation.ReflTransGen.mono hmono _ _ hs') hc)
  · exact Ends.congr fun s' c s₁ hs' hc => (endsBlock_eq_isError (h s' c s₁ hs' hc)).symm

end Loop

/-! ## Loops as expressions -/

section Expressions

variable {mark : Mark} {condition : Expr} {body : Block} {scope : ScopeId} {s t : Store}
  {v : Value}

theorem loop_comesTo_iff_exists : (Expr.loop mark condition body).ComesTo scope s v t ↔
    ∃ n, evalLoop n condition body scope s = .done v t := by
  constructor
  · rintro ⟨n, h⟩
    cases n with
    | zero =>
        unfold evalExpr at h
        cases h
    | succ n =>
        rw [evalExpr] at h
        exact ⟨n, h⟩
  · rintro ⟨n, h⟩
    exact ⟨n + 1, by rw [evalExpr]; exact h⟩

end Expressions

/-- **What a loop comes to.** A loop comes to a value exactly if after some iterations one ends it
with this value: with the error that the condition comes to, with null if the condition does not
count as true, or with the error or the returned value that the body comes to. If the condition
never comes to a returned value, this is to say that whatever is an error or a returned value,
in the condition or else in the body, ends the loop with that value. -/
theorem loop_comesTo_iff (mark : Mark) (condition : Expr) (body : Block) (scope : ScopeId)
    (s t : Store) (v : Value) :
    ((Expr.loop mark condition body).ComesTo scope s v t ↔
      Loop.Ends ⟨condition, body, scope⟩ Value.isError s v t) ∧
    (Loop.TestsPlainly ⟨condition, body, scope⟩ s →
      ((Expr.loop mark condition body).ComesTo scope s v t ↔
        Loop.Ends ⟨condition, body, scope⟩ Value.endsBlock s v t)) := by
  have hends : (Expr.loop mark condition body).ComesTo scope s v t ↔
      Loop.Ends ⟨condition, body, scope⟩ Value.isError s v t := by
    rw [loop_comesTo_iff_exists]
    exact ⟨fun ⟨n, h⟩ => Loop.ends_of_evalLoop (L := ⟨condition, body, scope⟩) n h,
      Loop.Ends.exists_evalLoop⟩
  exact ⟨hends, fun hplain => hends.trans hplain.ends_iff.symm⟩

/-- An operator between two operands comes to no returned value. -/
theorem infixOp_comesTo_plain {mark : Mark} {left right : Expr} {operator : String}
    {scope : ScopeId} {s s' : Store} {v : Value}
    (h : (Expr.infixOp mark left operator right).ComesTo scope s v s') : v.type ≠ .returned := by
  obtain ⟨n, h⟩ := h
  have hplain : v.isError = true → v.type ≠ .returned := by
    intro herror htype
    cases v with
    | error => cases htype
    | _ => cases herror
  cases n with
  | zero =>
      unfold evalExpr at h
      cases h
  | succ n =>
      unfold evalExpr at h
      rcases Outcome.unlessError_eq_done h with herror | ⟨l, s₁, -, -, h⟩
      · exact hplain herror
      rcases Outcome.unlessError_eq_done h with herror | ⟨r, s₂, -, -, h⟩
      · exact hplain herror
      obtain ⟨rfl, -⟩ := Outcome.done.inj h
      rcases (pervasive_atRest .thrown).has_infixOp l operator r with ⟨e, he⟩ | hrest
      · intro htype
        rw [Store.make, he] at htype
        cases htype
      · exact (hrest s₂.nextId).freeOf_returned.self

/-- A loop that counts up to nine and is left at two. -/
theorem loop_comesTo_iff_counting :
    let m : Mark := ⟨"", .start⟩
    let i : Expr := .identifier m "i"
    let condition : Expr := .infixOp m i "<" (.integer m 9)
    let body : Block := .mk m [.binding m ⟨m, "i"⟩ (.infixOp m i "+" (.integer m 1)),
      .expression m (.conditional m (.infixOp m i "==" (.integer m 2))
        (.mk m [.leave m i]) none)]
    let s : Store := ⟨#[⟨[("i", .integer 0 0)], none⟩], 1⟩
    let t : Store := ⟨#[⟨[("i", .integer 7 2)], none⟩], 10⟩
    Loop.TestsPlainly ⟨condition, body, 0⟩ s ∧
      Loop.Ends ⟨condition, body, 0⟩ Value.endsBlock s (.returned 9 (.integer 7 2)) t := by
  intro m i condition body s t
  have hplain : Loop.TestsPlainly ⟨condition, body, 0⟩ s :=
    fun _ _ _ _ hc => infixOp_comesTo_plain hc
  have hrun : (Expr.loop m condition body).ComesTo 0 s (.returned 9 (.integer 7 2)) t :=
    ⟨12, by cbv⟩
  exact ⟨hplain, ((loop_comesTo_iff m condition body 0 s t _).2 hplain).mp hrun⟩

/-- A condition that returns 1 and a body that returns 2: the loop does not end with what its
condition comes to, but goes on to its body. -/
theorem loop_enters_body_after_return :
    let m : Mark := ⟨"", .start⟩
    let condition : Expr := .conditional m (.boolean m true) (.mk m [.leave m (.integer m 1)]) none
    let body : Block := .mk m [.leave m (.integer m 2)]
    let s : Store := Store.fresh.2
    (Loop.Ends ⟨condition, body, 0⟩ Value.endsBlock s (.returned 1 (.integer 0 1))
        ⟨s.scopes, 2⟩ ∧
      ¬(Expr.loop m condition body).ComesTo 0 s (.returned 1 (.integer 0 1)) ⟨s.scopes, 2⟩) ∧
    (Expr.loop m condition body).ComesTo 0 s (.returned 3 (.integer 2 2)) ⟨s.scopes, 4⟩ ∧
    (parse "while (if (true) \x7b return 1 \x7d) \x7b return 2 \x7d").program.Ends
      (some (.integer 2 2)) ⟨s.scopes, 4⟩ := by
  intro m condition body s
  have hcondition : condition.ComesTo 0 s (.returned 1 (.integer 0 1)) ⟨s.scopes, 2⟩ :=
    ⟨9, by cbv⟩
  have hrun : (Expr.loop m condition body).ComesTo 0 s (.returned 3 (.integer 2 2))
      ⟨s.scopes, 4⟩ := ⟨9, by cbv⟩
  refine ⟨⟨⟨s, .refl, .broken hcondition rfl⟩, fun h => ?_⟩, hrun, ⟨12, by cbv⟩⟩
  obtain ⟨hid, -⟩ := Value.returned.inj (hrun.unique h).1
  cases hid

end MonkeyLang
