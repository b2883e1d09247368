import MonkeyLang.Proofs.CodeTest
import MonkeyLang.Proofs.Moments
import MonkeyLang.Proofs.Pervasive

/-!
# Values of a run

If the rules of the evaluation keep a property of values (`Kept`), then all values of a run
have it, provided that the code passes a test: the values in the store at every moment, the
values that a task is given and the values that come of it. Where the test asks that
returns are contained, a returned value may be on its way out of a task, if its operand has
the property.

What is asked of a `return`, and of the built-in function that measures strings and arrays,
may depend on the moments at which they are taken up. So the proof follows the run: each
rule is at a moment with a property (`R`) that is passed on to the moments that are entered.
-/

namespace MonkeyLang

/-- The rules of the evaluation keep a property `P` of values, where the code passes a test
and the moments have a property `R`. -/
structure Kept (T : CodeTest) (R : Moment → Prop) (P : Value → Prop) : Prop
    extends Composite P where
  enters : ∀ {role m m'}, R m → Enters role m m' → R m'
  literal : ∀ id n, T.literal n = true → P (.integer id n)
  function_iff : ∀ id parameters body scope,
    P (.function id parameters body scope) ↔ body.passes T true = true
  error : ∀ id e, P (.error id e)
  returned : ∀ {n mark value scope s v s'} id, R ⟨.stmt (.leave mark value) scope, s⟩ →
    evalExpr n value scope s = .done v s' → T.contained = false → P v → P (.returned id v)
  operand : ∀ id v, P (.returned id v) → P v
  length : ∀ arguments s, R ⟨.call (.builtin .len) arguments, s⟩ → (∀ v ∈ arguments, P v) →
    (Builtin.ofOne Builtin.lenOf arguments).Has P

/-- A value has a property; or it is a returned value whose operand has it, on its way out
of code from which a `return` may lead. -/
def Value.Carries (P : Value → Prop) (exit : Bool) (v : Value) : Prop :=
  P v ∨ exit = true ∧ ∃ id w, v = .returned id w ∧ P w

/-- The values of a list of expressions, or the error among them, have a property. -/
def CarriesAll (P : Value → Prop) : Except Value (List Value) → Prop
  | .ok vs => ∀ v ∈ vs, P v
  | .error v => P v

/-- What a rule has come to, and the store after it, are as they should be. -/
def Outcome.Keeps {α : Type} (P : Value → Prop) (ok : α → Prop) : Outcome α → Prop
  | .done a s => ok a ∧ s.All P
  | .fault _ | .exhausted => True

variable {T : CodeTest} {R : Moment → Prop} {P : Value → Prop} {exit : Bool}

namespace Value.Carries

variable {v : Value}

theorem of_false (h : v.Carries P false) : P v :=
  h.elim id fun h => absurd h.1 Bool.false_ne_true

theorem plain (h : v.Carries P exit) (hv : v.type ≠ .returned) : P v := by
  rcases h with h | ⟨-, id, w, rfl, -⟩
  · exact h
  · exact absurd rfl hv

theorem unwrapped (hP : Kept T R P) (h : v.Carries P exit) : P v.unwrapped := by
  rcases h with h | ⟨-, id, w, rfl, hw⟩
  · cases v with
    | returned id w => exact hP.operand id w h
    | _ => exact h
  · exact hw

theorem of_isError (hP : Kept T R P) (h : v.isError = true) : v.Carries P exit := by
  cases v with
  | error id e => exact .inl (hP.error id e)
  | _ => exact nomatch h

end Value.Carries

namespace Outcome.Keeps

variable {α β : Type} {ok : α → Prop} {ok' : β → Prop} {s : Store}

/-- What follows may use that the answer is the one that has been computed. -/
theorem andThen {o : Outcome α} {f : α → Store → Outcome β} (h : o.Keeps P ok)
    (hf : ∀ a s', o = .done a s' → ok a → s'.All P → (f a s').Keeps P ok') :
    (o.andThen f).Keeps P ok' := by
  cases o with
  | done a s' => exact hf a s' rfl h.1 h.2
  | fault e => trivial
  | exhausted => trivial

theorem unlessError {o : Outcome Value} {f : Value → Store → Outcome Value} {exit' : Bool}
    (hP : Kept T R P) (h : o.Keeps P (Value.Carries P exit))
    (hf : ∀ v s', o = .done v s' → v.isError = false → v.Carries P exit → s'.All P →
      (f v s').Keeps P (Value.Carries P exit')) :
    (o.unlessError f).Keeps P (Value.Carries P exit') := by
  cases o with
  | done v s' =>
      rw [unlessError_done]
      split
      · rename_i herror
        exact ⟨.of_isError hP herror, h.2⟩
      · rename_i hok
        exact hf v s' rfl (Bool.eq_false_iff.mpr hok) h.1 h.2
  | fault e => trivial
  | exhausted => trivial

theorem imp {ok' : α → Prop} {o : Outcome α} (himp : ∀ a, ok a → ok' a) (h : o.Keeps P ok) :
    o.Keeps P ok' := by
  cases o with
  | done a s' => exact ⟨himp a h.1, h.2⟩
  | fault e => trivial
  | exhausted => trivial

theorem of_eq {o : Outcome α} {a : α} (h : o.Keeps P ok) (heq : o = .done a s) :
    ok a ∧ s.All P := by
  subst heq
  exact h

theorem yield (hP : Kept T R P) (hs : s.All P) {d : Draft} (hd : d.Has P) :
    (s.yield d).Keeps P (Value.Carries P exit) := by
  refine ⟨.inl ?_, hs.make d⟩
  rcases hd with ⟨e, rfl⟩ | hd
  · exact hP.error s.nextId e
  · exact hd s.nextId

end Outcome.Keeps

/-! ## Rules -/

theorem carries_none : ∀ v ∈ (none : Option Value), v.Carries P exit := nofun

theorem carries_some {v : Value} (hv : v.Carries P exit) : ∀ w ∈ some v, w.Carries P exit := by
  rintro w ⟨⟩
  exact hv

theorem carries_getD (hnull : P .null) {last : Option Value}
    (h : ∀ v ∈ last, v.Carries P exit) : (last.getD .null).Carries P exit := by
  cases last with
  | none => exact .inl hnull
  | some v => exact h v rfl

/-- A returned value is not looked into. -/
theorem has_indexOp_of_carries (hP : Kept T R P) {left : Value} (h : left.Carries P exit)
    (index : Value) : (left.indexOp index).Has P := by
  rcases h with h | ⟨-, id, w, rfl, -⟩
  · exact hP.has_indexOp h index
  · exact .error _

theorem carries_key {k : Value} (h : k.Carries P exit) (hk : k.hashKey?.isNone = false) : P k :=
  h.plain fun htype => by
    obtain ⟨id, w, rfl⟩ := Value.exists_of_type_eq_returned htype
    exact nomatch hk

theorem carries_returned (hP : Kept T R P) {n : Nat} {mark : Mark} {value : Expr}
    {scope : ScopeId} {s s' : Store} {id : ObjectId} {v : Value}
    (hr : R ⟨.stmt (.leave mark value) scope, s⟩) (hvalue : evalExpr n value scope s = .done v s')
    (hexit : (exit || !T.contained) = true) (hv : P v) :
    (Value.returned id v).Carries P exit := by
  rcases Bool.or_eq_true_iff.mp hexit with hexit | hcontained
  · exact .inr ⟨hexit, id, v, rfl, hv⟩
  · exact .inl (hP.returned id hr hvalue (by simpa using hcontained) hv)

open Outcome in
mutual

theorem evalExpr_keeps (hP : Kept T R P) : ∀ n (e : Expr) exit scope s, R ⟨.expr e scope, s⟩ →
    e.passes T exit = true → s.All P → (evalExpr n e scope s).Keeps P (Value.Carries P exit)
  | 0, _, _, _, _, _, _, _ => by unfold evalExpr; trivial
  | n + 1, e, exit, scope, s, hr, h, hs => by
      unfold evalExpr
      cases e with
      | identifier _ name => exact .yield hP hs (hs.valueOf hP.builtin scope name)
      | integer _ value => exact .yield hP hs (.inr fun id => hP.literal id value h)
      | string _ value => exact .yield hP hs (hP.has_string value)
      | boolean _ value => exact .yield hP hs (hP.has_boolean value)
      | function _ parameters body =>
          exact .yield hP hs (.inr fun id => (hP.function_iff id parameters body scope).mpr h)
      | unknown _ _ => trivial
      | prefixOp _ operator right =>
          refine (evalExpr_keeps hP n right true scope s (hP.enters hr .operand) h hs).unlessError
            hP ?_
          intro r s₁ _ _ _ hs₁
          exact .yield hP hs₁ (hP.has_prefixOp operator r)
      | infixOp _ left operator right =>
          obtain ⟨hl, hright⟩ := Bool.and_eq_true_iff.mp h
          refine (evalExpr_keeps hP n left true scope s (hP.enters hr .left) hl hs).unlessError
            hP ?_
          intro l s₁ hleft hok _ hs₁
          have hr₁ := hP.enters hr (.right hleft hok)
          refine (evalExpr_keeps hP n right true scope s₁ hr₁ hright hs₁).unlessError hP ?_
          intro r s₂ _ _ _ hs₂
          exact .yield hP hs₂ (hP.has_infixOp l operator r)
      | conditional _ condition consequence alternative =>
          obtain ⟨h, he⟩ := Bool.and_eq_true_iff.mp h
          obtain ⟨hc, ht⟩ := Bool.and_eq_true_iff.mp h
          refine (evalExpr_keeps hP n condition true scope s (hP.enters hr .condition) hc
            hs).unlessError hP ?_
          intro c s₁ hcondition hok _ hs₁
          split
          · rename_i htrue
            have hr₁ := hP.enters hr (.consequence hcondition hok htrue)
            exact evalBlock_keeps hP n consequence exit scope s₁ hr₁ ht hs₁
          · rename_i hfalse
            cases alternative with
            | none => exact ⟨.inl hP.null, hs₁⟩
            | some other =>
                have hr₁ := hP.enters hr
                  (.alternative hcondition hok (Bool.eq_false_iff.mpr hfalse))
                exact evalBlock_keeps hP n other exit scope s₁ hr₁ he hs₁
      | loop _ condition body =>
          obtain ⟨hc, hb⟩ := Bool.and_eq_true_iff.mp h
          exact evalLoop_keeps hP n condition body exit scope s (hP.enters hr .loop) hc hb hs
      | call _ function arguments =>
          obtain ⟨hf, ha⟩ := Bool.and_eq_true_iff.mp h
          refine (evalExpr_keeps hP n function true scope s (hP.enters hr .function) hf
            hs).unlessError hP ?_
          intro f s₁ hfunction hok hf hs₁
          have hr₁ := hP.enters hr (.arguments hfunction hok)
          refine (evalAll_keeps hP n arguments scope s₁ hr₁ ha hs₁).andThen ?_
          intro vs s₂ harguments hvs hs₂
          cases vs with
          | error e => exact ⟨.inl hvs, hs₂⟩
          | ok values =>
              have hr₂ := hP.enters hr (.call hfunction hok harguments)
              exact (apply_keeps hP n f values s₂ hr₂ hf hvs hs₂).imp fun _ => .inl
      | array _ elements =>
          refine (evalAll_keeps hP n elements scope s (hP.enters hr .elements) h hs).andThen ?_
          intro vs s₁ _ hvs hs₁
          cases vs with
          | error e => exact ⟨.inl hvs, hs₁⟩
          | ok vs => exact .yield hP hs₁ (.inr fun id => (hP.array_iff id vs).mpr hvs)
      | index _ left index =>
          obtain ⟨hl, hi⟩ := Bool.and_eq_true_iff.mp h
          refine (evalExpr_keeps hP n left true scope s (hP.enters hr .indexed) hl hs).unlessError
            hP ?_
          intro l s₁ hleft hok hl hs₁
          have hr₁ := hP.enters hr (.index hleft hok)
          refine (evalExpr_keeps hP n index true scope s₁ hr₁ hi hs₁).unlessError hP ?_
          intro i s₂ _ _ _ hs₂
          exact .yield hP hs₂ (has_indexOp_of_carries hP hl i)
      | hash _ pairs =>
          have hpairs := evalPairs_keeps hP n pairs [] scope s (hP.enters hr .hash) h nofun hs
          exact hpairs.imp fun _ hv => .inl hv.of_false
      | statement stmt =>
          refine (evalStmt_keeps hP n stmt exit scope s (hP.enters hr .statement) h hs).andThen ?_
          intro v s₁ _ hv hs₁
          exact ⟨carries_getD hP.null hv, hs₁⟩

theorem evalAll_keeps (hP : Kept T R P) : ∀ n es scope s, R ⟨.all es scope, s⟩ →
    allPass T es = true → s.All P → (evalAll n es scope s).Keeps P (CarriesAll P)
  | 0, _, _, _, _, _, _ => by unfold evalAll; trivial
  | n + 1, [], scope, s, _, _, hs => by unfold evalAll; exact ⟨List.forall_mem_nil _, hs⟩
  | n + 1, e :: es, scope, s, hr, h, hs => by
      obtain ⟨he, hes⟩ := Bool.and_eq_true_iff.mp h
      unfold evalAll
      refine (evalExpr_keeps hP n e false scope s (hP.enters hr .first) he hs).andThen ?_
      intro v s₁ hvalue hv hs₁
      split
      · exact ⟨hv.of_false, hs₁⟩
      · rename_i hok
        have hr₁ := hP.enters hr (.others hvalue (Bool.eq_false_iff.mpr hok))
        refine (evalAll_keeps hP n es scope s₁ hr₁ hes hs₁).andThen ?_
        intro vs s₂ _ hvs hs₂
        cases vs with
        | error e => exact ⟨hvs, hs₂⟩
        | ok vs => exact ⟨List.forall_mem_cons.mpr ⟨hv.of_false, hvs⟩, hs₂⟩

theorem evalPairs_keeps (hP : Kept T R P) : ∀ n pairs entries scope s,
    R ⟨.pairs pairs entries scope, s⟩ → pairsPass T pairs = true →
    (∀ e ∈ entries, P e.1 ∧ P e.2) → s.All P →
    (evalPairs n pairs entries scope s).Keeps P (Value.Carries P false)
  | 0, _, _, _, _, _, _, _, _ => by unfold evalPairs; trivial
  | n + 1, [], entries, scope, s, _, _, hes, hs => by
      unfold evalPairs
      exact .yield hP hs (.inr fun id => (hP.hash_iff id entries).mpr hes)
  | n + 1, (key, value) :: pairs, entries, scope, s, hr, h, hes, hs => by
      obtain ⟨h, hps⟩ := Bool.and_eq_true_iff.mp h
      obtain ⟨hk, hv⟩ := Bool.and_eq_true_iff.mp h
      unfold evalPairs
      refine (evalExpr_keeps hP n key true scope s (hP.enters hr .key) hk hs).unlessError hP ?_
      intro k s₁ hkey hok hk hs₁
      split
      · exact .yield hP hs₁ (.error _)
      · rename_i husable
        have husable := Bool.eq_false_iff.mpr husable
        have hr₁ := hP.enters hr (.value hkey hok husable)
        refine (evalExpr_keeps hP n value false scope s₁ hr₁ hv hs₁).unlessError hP ?_
        intro v s₂ hvalue hok' hv hs₂
        have hr₂ := hP.enters hr (.entry hkey hok husable hvalue hok')
        have hentries := Pervasive.insert (carries_key hk husable) hv.of_false hes
        exact evalPairs_keeps hP n pairs _ scope s₂ hr₂ hps hentries hs₂

theorem evalLoop_keeps (hP : Kept T R P) : ∀ n (condition : Expr) (body : Block) exit scope s,
    R ⟨.loop condition body scope, s⟩ → condition.passes T true = true →
    body.passes T exit = true → s.All P →
    (evalLoop n condition body scope s).Keeps P (Value.Carries P exit)
  | 0, _, _, _, _, _, _, _, _, _ => by unfold evalLoop; trivial
  | n + 1, condition, body, exit, scope, s, hr, hc, hb, hs => by
      unfold evalLoop
      refine (evalExpr_keeps hP n condition true scope s (hP.enters hr .test) hc hs).unlessError
        hP ?_
      intro c s₁ hcondition hok _ hs₁
      split
      · rename_i htrue
        have hr₁ := hP.enters hr (.iteration hcondition hok htrue)
        refine (evalBlock_keeps hP n body exit scope s₁ hr₁ hb hs₁).andThen ?_
        intro v s₂ hbody hv hs₂
        split
        · exact ⟨hv, hs₂⟩
        · rename_i hends
          have hr₂ := hP.enters hr
            (.again hcondition hok htrue hbody (Bool.eq_false_iff.mpr hends))
          exact evalLoop_keeps hP n condition body exit scope s₂ hr₂ hc hb hs₂
      · exact ⟨.inl hP.null, hs₁⟩

theorem evalBlock_keeps (hP : Kept T R P) : ∀ n (b : Block) exit scope s, R ⟨.block b scope, s⟩ →
    b.passes T exit = true → s.All P → (evalBlock n b scope s).Keeps P (Value.Carries P exit)
  | 0, _, _, _, _, _, _, _ => by unfold evalBlock; trivial
  | n + 1, b, exit, scope, s, hr, h, hs => by
      rw [Block.passes_eq] at h
      unfold evalBlock
      refine (evalStmts_keeps hP n b.statements none exit scope s (hP.enters hr .statements) h
        carries_none hs).andThen ?_
      intro last s₁ _ hlast hs₁
      exact ⟨carries_getD hP.null hlast, hs₁⟩

theorem evalStmts_keeps (hP : Kept T R P) : ∀ n stmts last exit scope s,
    R ⟨.stmts stmts last scope, s⟩ → stmtsPass T exit stmts = true →
    (∀ v ∈ last, v.Carries P exit) → s.All P →
    (evalStmts n stmts last scope s).Keeps P fun last => ∀ v ∈ last, v.Carries P exit
  | 0, _, _, _, _, _, _, _, _, _ => by unfold evalStmts; trivial
  | n + 1, [], last, exit, scope, s, _, _, hlast, hs => by unfold evalStmts; exact ⟨hlast, hs⟩
  | n + 1, stmt :: stmts, last, exit, scope, s, hr, h, _, hs => by
      obtain ⟨hstmt, hstmts⟩ := Bool.and_eq_true_iff.mp h
      unfold evalStmts
      refine (evalStmt_keeps hP n stmt exit scope s (hP.enters hr .head) hstmt hs).andThen ?_
      intro v s₁ hvalue hv hs₁
      split
      · exact ⟨hv, hs₁⟩
      · rename_i hends
        have hr₁ := hP.enters hr (.next hvalue (Bool.eq_false_iff.mpr hends))
        exact evalStmts_keeps hP n stmts v exit scope s₁ hr₁ hstmts hv hs₁

theorem evalStmt_keeps (hP : Kept T R P) : ∀ n (stmt : Stmt) exit scope s,
    R ⟨.stmt stmt scope, s⟩ → stmt.passes T exit = true → s.All P →
    (evalStmt n stmt scope s).Keeps P fun v => ∀ w ∈ v, w.Carries P exit
  | 0, _, _, _, _, _, _, _ => by unfold evalStmt; trivial
  | n + 1, stmt, exit, scope, s, hr, h, hs => by
      unfold evalStmt
      match stmt with
      | .binding _ name value =>
          refine (evalExpr_keeps hP n value false scope s (hP.enters hr .bound) h hs).andThen ?_
          intro v s₁ _ hv hs₁
          split
          · exact ⟨carries_some (.inl hv.of_false), hs₁⟩
          · exact ⟨carries_none, hs₁.bind scope name.value hv.of_false⟩
      | .leave _ value =>
          obtain ⟨hexit, h⟩ := Bool.and_eq_true_iff.mp h
          have hvalue := evalExpr_keeps hP n value false scope s (hP.enters hr .returned) h hs
          have hreturned : ((evalExpr n value scope s).unlessError fun v s =>
              s.yield (.returned v)).Keeps P (Value.Carries P exit) :=
            hvalue.unlessError hP fun v s₁ hdone _ hv hs₁ =>
              ⟨carries_returned hP hr hdone hexit hv.of_false, hs₁.make _⟩
          exact hreturned.andThen fun _ _ _ hv hs₁ => ⟨carries_some hv, hs₁⟩
      | .expression _ e =>
          refine (evalExpr_keeps hP n e exit scope s (hP.enters hr .expression) h hs).andThen ?_
          exact fun _ _ _ hv hs₁ => ⟨carries_some hv, hs₁⟩
      | .bare e =>
          refine (evalExpr_keeps hP n e exit scope s (hP.enters hr .bare) h hs).andThen ?_
          exact fun _ _ _ hv hs₁ => ⟨carries_some hv, hs₁⟩
      | .block (.program stmts) =>
          refine (evalStmts_keeps hP n stmts none true scope s (hP.enters hr .program) h
            carries_none hs).andThen ?_
          intro last s₁ _ hlast hs₁
          refine ⟨fun v hv => .inl ?_, hs₁⟩
          obtain ⟨w, hw, rfl⟩ := Option.map_eq_some_iff.mp hv
          exact (hlast w hw).unwrapped hP
      | .block (.mk mark stmts) =>
          refine (evalBlock_keeps hP n (.mk mark stmts) exit scope s (hP.enters hr .block) h
            hs).andThen ?_
          exact fun _ _ _ hv hs₁ => ⟨carries_some hv, hs₁⟩
      | .unknown _ _ => trivial

theorem apply_keeps (hP : Kept T R P) : ∀ n (f : Value) arguments s, R ⟨.call f arguments, s⟩ →
    f.Carries P true → (∀ v ∈ arguments, P v) → s.All P → (apply n f arguments s).Keeps P P
  | 0, _, _, _, _, _, _, _ => by unfold apply; trivial
  | n + 1, f, arguments, s, hr, hf, ha, hs => by
      have of_draft {d : Draft} (hd : d.Has P) : (s.yield d).Keeps P P := by
        have hyield : (s.yield d).Keeps P (Value.Carries P false) := .yield hP hs hd
        exact hyield.imp fun _ => Value.Carries.of_false
      unfold apply
      split
      · rename_i id parameters body outer
        split
        · exact of_draft (.error _)
        · rename_i hcount
          have hbody := (hP.function_iff id parameters body outer).mp (hf.plain nofun)
          have hr₁ := hP.enters hr (.body (Decidable.not_not.mp hcount))
          refine (evalBlock_keeps hP n body true _ _ hr₁ hbody
            ((hs.openScope _).bindAll _ _ ha)).andThen ?_
          intro v s₁ _ hv hs₁
          exact ⟨hv.unwrapped hP, hs₁⟩
      · rename_i b
        refine of_draft (hP.has_apply b ?_ ha)
        rintro rfl
        exact hP.length arguments s hr ha
      · exact of_draft (.error _)

end

/-! ## Moments -/

/-- The code of a task passes a test. -/
def Task.passes (T : CodeTest) (exit : Bool) : Task → Bool
  | .expr e _ => e.passes T exit
  | .all es _ => allPass T es
  | .pairs ps _ _ => pairsPass T ps
  | .loop condition body _ => condition.passes T true && body.passes T exit
  | .block b _ => b.passes T exit
  | .stmts ss _ _ => stmtsPass T exit ss
  | .stmt st _ => st.passes T exit
  | .call _ _ => true

/-- The values that a task is given have a property. What is called may be a returned
value, which is no function. -/
def Task.Carries (P : Value → Prop) : Task → Prop
  | .pairs _ entries _ => ∀ e ∈ entries, P e.1 ∧ P e.2
  | .stmts _ last _ => ∀ v ∈ last, P v
  | .call f arguments => f.Carries P true ∧ ∀ v ∈ arguments, P v
  | _ => True

/-- The values of a moment have a property and its code passes a test. -/
structure Moment.Keeps (T : CodeTest) (P : Value → Prop) (exit : Bool) (m : Moment) : Prop where
  store : m.store.All P
  values : m.task.Carries P
  code : m.task.passes T exit = true

theorem carries_last {v : Option Value} (h : ∀ w ∈ v, w.Carries P exit)
    (hv : v.any Value.endsBlock = false) : ∀ w ∈ v, P w := by
  intro w hw
  rw [Option.mem_def.mp hw] at hv
  refine (h w hw).plain fun htype => ?_
  obtain ⟨id, u, rfl⟩ := Value.exists_of_type_eq_returned htype
  exact nomatch hv

/-- **Step.** A moment that is entered keeps the property, if the one that enters it
does. -/
theorem Enters.keeps (hP : Kept T R P) {role : Role} {m m' : Moment} (h : Enters role m m')
    (hr : R m) (hm : m.Keeps T P exit) : ∃ exit', m'.Keeps T P exit' := by
  obtain ⟨hs, hvalues, hcode⟩ := hm
  have part {n : Nat} {e : Expr} {exit' : Bool} {scope : ScopeId} {s s₁ : Store} {v : Value}
      (hr : R ⟨.expr e scope, s⟩) (hcode : e.passes T exit' = true) (hs : s.All P)
      (hv : evalExpr n e scope s = .done v s₁) : v.Carries P exit' ∧ s₁.All P :=
    (evalExpr_keeps hP n e exit' scope s hr hcode hs).of_eq hv
  cases h with
  | operand | elements => exact ⟨true, hs, trivial, hcode⟩
  | hash | program => exact ⟨true, hs, nofun, hcode⟩
  | loop | statement | expression | block | bare => exact ⟨exit, hs, trivial, hcode⟩
  | left | function | indexed | test =>
      exact ⟨true, hs, trivial, (Bool.and_eq_true_iff.mp hcode).1⟩
  | right hl _ =>
      obtain ⟨hcl, hcr⟩ := Bool.and_eq_true_iff.mp hcode
      exact ⟨true, (part (hP.enters hr .left) hcl hs hl).2, trivial, hcr⟩
  | condition | key =>
      obtain ⟨hcode, -⟩ := Bool.and_eq_true_iff.mp hcode
      exact ⟨true, hs, trivial, (Bool.and_eq_true_iff.mp hcode).1⟩
  | consequence hc _ _ =>
      obtain ⟨hcode, -⟩ := Bool.and_eq_true_iff.mp hcode
      obtain ⟨hcc, hct⟩ := Bool.and_eq_true_iff.mp hcode
      exact ⟨exit, (part (hP.enters hr .condition) hcc hs hc).2, trivial, hct⟩
  | alternative hc _ _ =>
      obtain ⟨hcode, hce⟩ := Bool.and_eq_true_iff.mp hcode
      obtain ⟨hcc, -⟩ := Bool.and_eq_true_iff.mp hcode
      exact ⟨exit, (part (hP.enters hr .condition) hcc hs hc).2, trivial, hce⟩
  | arguments hf _ =>
      obtain ⟨hcf, hca⟩ := Bool.and_eq_true_iff.mp hcode
      exact ⟨true, (part (hP.enters hr .function) hcf hs hf).2, trivial, hca⟩
  | call hf hok hvs =>
      obtain ⟨hcf, hca⟩ := Bool.and_eq_true_iff.mp hcode
      obtain ⟨hfunction, hs₁⟩ := part (hP.enters hr .function) hcf hs hf
      have hr₁ := hP.enters hr (.arguments hf hok)
      obtain ⟨harguments, hs₂⟩ := (evalAll_keeps hP _ _ _ _ hr₁ hca hs₁).of_eq hvs
      exact ⟨true, hs₂, ⟨hfunction, harguments⟩, rfl⟩
  | index hl _ =>
      obtain ⟨hcl, hci⟩ := Bool.and_eq_true_iff.mp hcode
      exact ⟨true, (part (hP.enters hr .indexed) hcl hs hl).2, trivial, hci⟩
  | first => exact ⟨false, hs, trivial, (Bool.and_eq_true_iff.mp hcode).1⟩
  | others hv _ =>
      obtain ⟨hce, hces⟩ := Bool.and_eq_true_iff.mp hcode
      exact ⟨true, (part (hP.enters hr .first) hce hs hv).2, trivial, hces⟩
  | value hk _ _ =>
      obtain ⟨hcode, -⟩ := Bool.and_eq_true_iff.mp hcode
      obtain ⟨hck, hcv⟩ := Bool.and_eq_true_iff.mp hcode
      exact ⟨false, (part (hP.enters hr .key) hck hs hk).2, trivial, hcv⟩
  | entry hk hok husable hv _ =>
      obtain ⟨hcode, hcps⟩ := Bool.and_eq_true_iff.mp hcode
      obtain ⟨hck, hcv⟩ := Bool.and_eq_true_iff.mp hcode
      obtain ⟨hkey, hs₁⟩ := part (hP.enters hr .key) hck hs hk
      obtain ⟨hvalue, hs₂⟩ := part (hP.enters hr (.value hk hok husable)) hcv hs₁ hv
      exact ⟨true, hs₂, Pervasive.insert (carries_key hkey husable) hvalue.of_false hvalues, hcps⟩
  | iteration hc _ _ =>
      obtain ⟨hcc, hcb⟩ := Bool.and_eq_true_iff.mp hcode
      exact ⟨exit, (part (hP.enters hr .test) hcc hs hc).2, trivial, hcb⟩
  | again hc hok htrue hv _ =>
      obtain ⟨hcc, hcb⟩ := Bool.and_eq_true_iff.mp hcode
      obtain ⟨-, hs₁⟩ := part (hP.enters hr .test) hcc hs hc
      have hr₁ := hP.enters hr (.iteration hc hok htrue)
      obtain ⟨-, hs₂⟩ := (evalBlock_keeps hP _ _ exit _ _ hr₁ hcb hs₁).of_eq hv
      exact ⟨exit, hs₂, trivial, hcode⟩
  | statements => exact ⟨exit, hs, nofun, (Block.passes_eq T exit _).symm.trans hcode⟩
  | head => exact ⟨exit, hs, trivial, (Bool.and_eq_true_iff.mp hcode).1⟩
  | next hv hplain =>
      obtain ⟨hcst, hcss⟩ := Bool.and_eq_true_iff.mp hcode
      obtain ⟨hvalue, hs₁⟩ :=
        (evalStmt_keeps hP _ _ exit _ _ (hP.enters hr .head) hcst hs).of_eq hv
      exact ⟨exit, hs₁, carries_last hvalue hplain, hcss⟩
  | bound => exact ⟨false, hs, trivial, hcode⟩
  | returned => exact ⟨false, hs, trivial, (Bool.and_eq_true_iff.mp hcode).2⟩
  | body _ =>
      obtain ⟨hf, harguments⟩ := hvalues
      have hbody := (hP.function_iff _ _ _ _).mp (hf.plain nofun)
      exact ⟨true, (hs.openScope _).bindAll _ _ harguments, trivial, hbody⟩

/-- **Run.** All moments of a run of a program that passes the test keep the property. -/
theorem Program.Reaches.keeps {p : Program} (hP : Kept T R P)
    (hr : ∀ role m, p.Reaches role m → R m) (hp : p.passes T = true) {role : Role} {m : Moment}
    (h : p.Reaches role m) : ∃ exit, m.Keeps T P exit := by
  induction h with
  | start => exact ⟨true, Store.all_empty.openScope none, nofun, hp⟩
  | enter hm henters ih =>
      obtain ⟨exit, ih⟩ := ih
      exact henters.keeps hP (hr _ _ hm) ih

theorem Outcome.Keeps.values {α : Type} {ok : α → Prop} {o : Outcome α} {list : α → List Value}
    {vs : List Value} {s : Store} (h : o.Keeps P ok)
    (hlist : ∀ a, ok a → ∀ v ∈ list a, v.Carries P exit)
    (hrun : (o.andThen fun a s => .done (list a) s) = .done vs s) :
    s.All P ∧ ∀ v ∈ vs, v.Carries P exit := by
  cases o with
  | done a s' =>
      obtain ⟨rfl, rfl⟩ := Outcome.done.inj hrun
      exact ⟨h.2, hlist a h.1⟩
  | fault e => exact nomatch hrun
  | exhausted => exact nomatch hrun

/-- What comes of a task, and the store after it, have the property too. -/
theorem Moment.Keeps.comes (hP : Kept T R P) {m : Moment} (hm : m.Keeps T P exit) (hr : R m)
    {n : Nat} {vs : List Value} {s : Store} (h : m.run n = .done vs s) :
    s.All P ∧ ∀ v ∈ vs, v.Carries P exit := by
  obtain ⟨task, store⟩ := m
  obtain ⟨hs, hvalues, hcode⟩ := hm
  have single (v : Value) (hv : v.Carries P exit) : ∀ w ∈ [v], w.Carries P exit :=
    List.forall_mem_singleton.mpr hv
  have last (v : Option Value) (hv : ∀ w ∈ v, w.Carries P exit) :
      ∀ w ∈ v.toList, w.Carries P exit := fun w hw => hv w (Option.mem_toList.mp hw)
  cases task with
  | expr e scope =>
      exact (evalExpr_keeps hP n e exit scope store hr hcode hs).values single h
  | all es scope =>
      refine (evalAll_keeps hP n es scope store hr hcode hs).values (fun vs hvs => ?_) h
      cases vs with
      | error e => exact single e (.inl hvs)
      | ok vs => exact fun v hv => .inl (hvs v hv)
  | pairs ps entries scope =>
      exact (evalPairs_keeps hP n ps entries scope store hr hcode hvalues hs).values
        (fun v hv => single v (.inl hv.of_false)) h
  | loop condition body scope =>
      obtain ⟨hc, hb⟩ := Bool.and_eq_true_iff.mp hcode
      exact (evalLoop_keeps hP n condition body exit scope store hr hc hb hs).values single h
  | block b scope => exact (evalBlock_keeps hP n b exit scope store hr hcode hs).values single h
  | stmts ss last' scope =>
      exact (evalStmts_keeps hP n ss last' exit scope store hr hcode
        (fun v hv => .inl (hvalues v hv)) hs).values last h
  | stmt st scope => exact (evalStmt_keeps hP n st exit scope store hr hcode hs).values last h
  | call f arguments =>
      exact (apply_keeps hP n f arguments store hr hvalues.1 hvalues.2 hs).values
        (fun v hv => single v (.inl hv)) h

end MonkeyLang
