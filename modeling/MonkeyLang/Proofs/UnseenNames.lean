import MonkeyLang.Proofs.ClosedMoments
import MonkeyLang.Proofs.OmittedNames

/-!
# Names that a run does not see

A run in a scope comes by the code of its program and by that of the functions in sight of the
scope. If a name occurs nowhere in this code, nothing depends on what the name is bound to: two
runs that start on stores that differ in this name only go side by side, step by step. They hand
out the same identities and come to the same value (`unmentioned_binding`).

What carries the induction is a range of scopes that is fixed at the start: those in sight, and
all that are still to be opened. Calls do not lead out of it, because the functions that are bound
in it were made in it (`Store.Clear`).
-/

namespace MonkeyLang

/-! ## Outcomes -/

/-- Two stores bind all names but one to the same values, which are clear in a range of scopes. -/
structure Store.SameBut (x : String) (R : ScopeId → Prop) (s t : Store) : Prop where
  same : s.Matches x t
  clear : s.Clear x R

namespace Store.SameBut

variable {x : String} {R : ScopeId → Prop} {s t : Store}

theorem bind (h : s.SameBut x R t) (scope : ScopeId) (name : String) {v : Value}
    (hv : v.Clear x R) : (s.bind scope name v).SameBut x R (t.bind scope name v) :=
  ⟨h.same.bind scope name v, h.clear.bind scope name hv⟩

/-- A function in the range opens a scope in both stores and binds its parameters there. -/
theorem enter (h : s.SameBut x R t) {outer : ScopeId} (houter : R outer) (names : List String)
    {vs : List Value} (hvs : ∀ v ∈ vs, v.Clear x R) :
    (t.openScope (some outer)).1 = (s.openScope (some outer)).1 ∧ R (s.openScope (some outer)).1 ∧
      ((s.openScope (some outer)).2.bindAll (s.openScope (some outer)).1 names vs).SameBut x R
        ((t.openScope (some outer)).2.bindAll (s.openScope (some outer)).1 names vs) :=
  ⟨h.same.size_eq, h.clear.unopened _ (Nat.le_refl _),
    (h.same.openScope _).bindAll _ names vs, (h.clear.openScope houter).bindAll _ names hvs⟩

end Store.SameBut

/-- Two runs come to the same, in stores that are the same but for a name. -/
inductive Outcome.SameBut {α : Type} (x : String) (R : ScopeId → Prop) (ok : α → Prop) :
    Outcome α → Outcome α → Prop
  | done {a : α} {s t : Store} : ok a → s.SameBut x R t → SameBut x R ok (.done a s) (.done a t)
  | fault {s t : Store} (e : Fault) : SameBut x R ok (.fault (t := s) e) (.fault (t := t) e)
  | exhausted {s t : Store} : SameBut x R ok (.exhausted (t := s)) (.exhausted (t := t))

namespace Outcome.SameBut

variable {α β : Type} {x : String} {R : ScopeId → Prop} {ok : α → Prop} {ok' : β → Prop}
  {s t : Store}

theorem andThen {o o' : Outcome α} {f f' : α → Store → Outcome β} (h : o.SameBut x R ok o')
    (hf : ∀ {a s t}, ok a → s.SameBut x R t → (f a s).SameBut x R ok' (f' a t)) :
    (o.andThen f).SameBut x R ok' (o'.andThen f') := by
  cases h with
  | done ha hs => exact hf ha hs
  | fault e => exact .fault e
  | exhausted => exact .exhausted

theorem unlessError {o o' : Outcome Value} {f f' : Value → Store → Outcome Value}
    (h : o.SameBut x R (Value.Clear x R) o')
    (hf : ∀ {v s t}, v.Clear x R → s.SameBut x R t →
      (f v s).SameBut x R (Value.Clear x R) (f' v t)) :
    (o.unlessError f).SameBut x R (Value.Clear x R) (o'.unlessError f') := by
  cases h with
  | done hv hs =>
      rw [unlessError_done, unlessError_done]
      split
      · exact .done hv hs
      · exact hf hv hs
  | fault e => exact .fault e
  | exhausted => exact .exhausted

theorem ite {p : Prop} [Decidable p] {o o' r r' : Outcome α} (h : o.SameBut x R ok o')
    (h' : r.SameBut x R ok r') :
    (if p then o else r).SameBut x R ok (if p then o' else r') := by
  split
  · exact h
  · exact h'

theorem yield (hs : s.SameBut x R t) {d : Draft} (hd : d.Has (Value.Clear x R)) :
    (s.yield d).SameBut x R (Value.Clear x R) (t.yield d) := by
  rw [Store.yield, Store.yield, hs.same.make_fst d]
  refine .done ?_ ⟨hs.same.make d, hs.clear.make d⟩
  rcases hd with ⟨e, rfl⟩ | hd
  · exact .error _ e
  · exact hd s.nextId

end Outcome.SameBut

/-! ## Rules -/

section Rules

variable {x : String} {R : ScopeId → Prop}

/-- The values of a list of expressions, or the error among them, are clear. -/
def ClearAll (x : String) (R : ScopeId → Prop) : Except Value (List Value) → Prop
  | .ok vs => ∀ v ∈ vs, v.Clear x R
  | .error v => v.Clear x R

theorem clear_none : ∀ v ∈ (none : Option Value), v.Clear x R := by
  rintro v ⟨⟩

theorem clear_some {v : Value} (hv : v.Clear x R) : ∀ w ∈ some v, w.Clear x R := by
  rintro w ⟨⟩
  exact hv

theorem clear_getD {last : Option Value} (h : ∀ v ∈ last, v.Clear x R) :
    (last.getD .null).Clear x R := (pervasive_clear x R).getD_null fun v hv => h v hv

theorem clear_map_unwrapped {last : Option Value} (h : ∀ v ∈ last, v.Clear x R) :
    ∀ v ∈ last.map Value.unwrapped, v.Clear x R :=
  Option.forall_mem_map.mpr fun v hv => (h v hv).unwrapped

open Outcome.SameBut (yield)

mutual

theorem evalExpr_sameBut : ∀ n (e : Expr) {scope s t}, e.omits x = true → R scope →
    s.SameBut x R t →
    (evalExpr n e scope s).SameBut x R (Value.Clear x R) (evalExpr n e scope t)
  | 0, _, _, _, _, _, _, _ => by unfold evalExpr; exact .exhausted
  | n + 1, e, scope, s, t, h, hscope, hs => by
      have hP := pervasive_clear x R
      unfold evalExpr
      cases e with
      | identifier _ name =>
          have hname : name ≠ x := bne_iff_ne.mp h
          simp only [hs.same.valueOf_eq hname scope]
          exact yield hs (hs.clear.valueOf hscope hname)
      | integer _ value => exact yield hs (hP.has_integer value)
      | string _ value => exact yield hs (hP.has_string value)
      | boolean _ value => exact yield hs (hP.has_boolean value)
      | function _ parameters body =>
          exact yield hs (.inr fun _ => .function ⟨Bool.and_eq_true_iff.mp h, hscope⟩)
      | unknown _ _ => exact .fault _
      | prefixOp _ operator right =>
          refine (evalExpr_sameBut n right h hscope hs).unlessError fun {r _ _} _ hs₁ => ?_
          exact yield hs₁ (hP.has_prefixOp operator r)
      | infixOp _ left operator right =>
          obtain ⟨hl, hr⟩ := Bool.and_eq_true_iff.mp h
          refine (evalExpr_sameBut n left hl hscope hs).unlessError fun {l _ _} _ hs₁ => ?_
          refine (evalExpr_sameBut n right hr hscope hs₁).unlessError fun {r _ _} _ hs₂ => ?_
          exact yield hs₂ (hP.has_infixOp l operator r)
      | conditional _ condition consequence alternative =>
          obtain ⟨h, he⟩ := Bool.and_eq_true_iff.mp h
          obtain ⟨hc, ht⟩ := Bool.and_eq_true_iff.mp h
          refine (evalExpr_sameBut n condition hc hscope hs).unlessError fun _ hs₁ => ?_
          refine .ite (evalBlock_sameBut n consequence ht hscope hs₁) ?_
          cases alternative with
          | none => exact .done hP.null hs₁
          | some other => exact evalBlock_sameBut n other he hscope hs₁
      | loop _ condition body =>
          obtain ⟨hc, hb⟩ := Bool.and_eq_true_iff.mp h
          exact evalLoop_sameBut n condition body hc hb hscope hs
      | call _ function arguments =>
          obtain ⟨hf, ha⟩ := Bool.and_eq_true_iff.mp h
          refine (evalExpr_sameBut n function hf hscope hs).unlessError fun {f _ _} hf hs₁ => ?_
          refine (evalAll_sameBut n arguments ha hscope hs₁).andThen fun {vs _ _} hvs hs₂ => ?_
          cases vs with
          | error e => exact .done hvs hs₂
          | ok vs => exact apply_sameBut n f vs hf hvs hs₂
      | array _ elements =>
          refine (evalAll_sameBut n elements h hscope hs).andThen fun {vs _ _} hvs hs₁ => ?_
          cases vs with
          | error e => exact .done hvs hs₁
          | ok vs => exact yield hs₁ (.inr fun id => (hP.array_iff id vs).mpr hvs)
      | index _ left index =>
          obtain ⟨hl, hi⟩ := Bool.and_eq_true_iff.mp h
          refine (evalExpr_sameBut n left hl hscope hs).unlessError fun hl hs₁ => ?_
          refine (evalExpr_sameBut n index hi hscope hs₁).unlessError fun {i _ _} _ hs₂ => ?_
          exact yield hs₂ (hP.has_indexOp hl i)
      | hash _ pairs => exact evalPairs_sameBut n pairs h nofun hscope hs
      | statement stmt =>
          refine (evalStmt_sameBut n stmt h hscope hs).andThen fun hv hs₁ => ?_
          exact .done (clear_getD hv) hs₁

theorem evalAll_sameBut : ∀ n es {scope s t}, allOmit x es = true → R scope →
    s.SameBut x R t → (evalAll n es scope s).SameBut x R (ClearAll x R) (evalAll n es scope t)
  | 0, _, _, _, _, _, _, _ => by unfold evalAll; exact .exhausted
  | n + 1, [], scope, s, t, _, _, hs => by
      unfold evalAll
      exact .done (List.forall_mem_nil _) hs
  | n + 1, e :: es, scope, s, t, h, hscope, hs => by
      obtain ⟨he, hes⟩ := Bool.and_eq_true_iff.mp h
      unfold evalAll
      refine (evalExpr_sameBut n e he hscope hs).andThen fun hv hs₁ => ?_
      refine .ite (.done hv hs₁) ?_
      refine (evalAll_sameBut n es hes hscope hs₁).andThen fun {vs _ _} hvs hs₂ => ?_
      cases vs with
      | error e => exact .done hvs hs₂
      | ok vs => exact .done (List.forall_mem_cons.mpr ⟨hv, hvs⟩) hs₂

theorem evalPairs_sameBut : ∀ n pairs {entries scope s t}, pairsOmit x pairs = true →
    (∀ e ∈ entries, e.1.Clear x R ∧ e.2.Clear x R) → R scope → s.SameBut x R t →
    (evalPairs n pairs entries scope s).SameBut x R (Value.Clear x R)
      (evalPairs n pairs entries scope t)
  | 0, _, _, _, _, _, _, _, _, _ => by unfold evalPairs; exact .exhausted
  | n + 1, [], entries, scope, s, t, _, hes, _, hs => by
      unfold evalPairs
      exact yield hs (.inr fun id => ((pervasive_clear x R).hash_iff id entries).mpr hes)
  | n + 1, (key, value) :: pairs, entries, scope, s, t, h, hes, hscope, hs => by
      obtain ⟨h, hps⟩ := Bool.and_eq_true_iff.mp h
      obtain ⟨hk, hv⟩ := Bool.and_eq_true_iff.mp h
      unfold evalPairs
      refine (evalExpr_sameBut n key hk hscope hs).unlessError fun hk hs₁ => ?_
      refine .ite (yield hs₁ (.error _)) ?_
      refine (evalExpr_sameBut n value hv hscope hs₁).unlessError fun hv hs₂ => ?_
      exact evalPairs_sameBut n pairs hps (Pervasive.insert hk hv hes) hscope hs₂

theorem evalLoop_sameBut : ∀ n (condition : Expr) (body : Block) {scope s t},
    condition.omits x = true → body.omits x = true → R scope → s.SameBut x R t →
    (evalLoop n condition body scope s).SameBut x R (Value.Clear x R)
      (evalLoop n condition body scope t)
  | 0, _, _, _, _, _, _, _, _, _ => by unfold evalLoop; exact .exhausted
  | n + 1, condition, body, scope, s, t, hc, hb, hscope, hs => by
      unfold evalLoop
      refine (evalExpr_sameBut n condition hc hscope hs).unlessError fun _ hs₁ => ?_
      refine .ite ?_ (.done (pervasive_clear x R).null hs₁)
      refine (evalBlock_sameBut n body hb hscope hs₁).andThen fun hv hs₂ => ?_
      exact .ite (.done hv hs₂) (evalLoop_sameBut n condition body hc hb hscope hs₂)

theorem evalBlock_sameBut : ∀ n (b : Block) {scope s t}, b.omits x = true → R scope →
    s.SameBut x R t →
    (evalBlock n b scope s).SameBut x R (Value.Clear x R) (evalBlock n b scope t)
  | 0, _, _, _, _, _, _, _ => by unfold evalBlock; exact .exhausted
  | n + 1, b, scope, s, t, h, hscope, hs => by
      unfold evalBlock
      refine (evalStmts_sameBut n b.statements (Block.omits_statements h) clear_none hscope
        hs).andThen ?_
      exact fun hlast hs₁ => .done (clear_getD hlast) hs₁

theorem evalStmts_sameBut : ∀ n stmts {last scope s t}, stmtsOmit x stmts = true →
    (∀ v ∈ last, v.Clear x R) → R scope → s.SameBut x R t →
    (evalStmts n stmts last scope s).SameBut x R (fun last => ∀ v ∈ last, v.Clear x R)
      (evalStmts n stmts last scope t)
  | 0, _, _, _, _, _, _, _, _, _ => by unfold evalStmts; exact .exhausted
  | n + 1, [], last, scope, s, t, _, hlast, _, hs => by unfold evalStmts; exact .done hlast hs
  | n + 1, stmt :: stmts, last, scope, s, t, h, _, hscope, hs => by
      obtain ⟨hstmt, hstmts⟩ := Bool.and_eq_true_iff.mp h
      unfold evalStmts
      refine (evalStmt_sameBut n stmt hstmt hscope hs).andThen fun hv hs₁ => ?_
      exact .ite (.done hv hs₁) (evalStmts_sameBut n stmts hstmts hv hscope hs₁)

theorem evalStmt_sameBut : ∀ n (stmt : Stmt) {scope s t}, stmt.omits x = true → R scope →
    s.SameBut x R t →
    (evalStmt n stmt scope s).SameBut x R (fun v => ∀ w ∈ v, w.Clear x R)
      (evalStmt n stmt scope t)
  | 0, _, _, _, _, _, _, _ => by unfold evalStmt; exact .exhausted
  | n + 1, stmt, scope, s, t, h, hscope, hs => by
      unfold evalStmt
      match stmt with
      | .binding _ name value =>
          have hvalue : value.omits x = true := (Bool.and_eq_true_iff.mp h).2
          refine (evalExpr_sameBut n value hvalue hscope hs).andThen fun hv hs₁ => ?_
          exact .ite (.done (clear_some hv) hs₁) (.done clear_none (hs₁.bind scope name.value hv))
      | .leave _ value =>
          refine .andThen ?_ fun hv hs₁ => .done (clear_some hv) hs₁
          refine (evalExpr_sameBut n value h hscope hs).unlessError fun hv hs₁ => ?_
          exact yield hs₁ (.inr fun _ => .returned trivial hv)
      | .expression _ e | .bare e =>
          refine (evalExpr_sameBut n e h hscope hs).andThen fun hv hs₁ => ?_
          exact .done (clear_some hv) hs₁
      | .block (.program stmts) =>
          refine (evalStmts_sameBut n stmts h clear_none hscope hs).andThen fun hlast hs₁ => ?_
          exact .done (clear_map_unwrapped hlast) hs₁
      | .block (.mk mark stmts) =>
          refine (evalBlock_sameBut n (.mk mark stmts) h hscope hs).andThen fun hv hs₁ => ?_
          exact .done (clear_some hv) hs₁
      | .unknown _ _ => exact .fault _

theorem apply_sameBut : ∀ n (f : Value) arguments {s t}, f.Clear x R →
    (∀ v ∈ arguments, v.Clear x R) → s.SameBut x R t →
    (apply n f arguments s).SameBut x R (Value.Clear x R) (apply n f arguments t)
  | 0, _, _, _, _, _, _, _ => by unfold apply; exact .exhausted
  | n + 1, f, arguments, s, t, hf, harguments, hs => by
      unfold apply
      cases f with
      | function _ parameters body outer =>
          obtain ⟨⟨-, hbody⟩, houter⟩ := hf.self
          obtain ⟨hsame, hnew, hs₁⟩ := hs.enter houter (parameters.map Name.value) harguments
          refine .ite (yield hs (.error _)) ?_
          simp only [hsame]
          refine (evalBlock_sameBut n body hbody hnew hs₁).andThen fun hv hs₂ => ?_
          exact .done hv.unwrapped hs₂
      | builtin b => exact yield hs ((pervasive_clear x R).has_apply b harguments)
      | _ => exact yield hs (.error _)

end

theorem evalProgram_sameBut (n : Nat) {p : Program} {scope : ScopeId} {s t : Store}
    (h : stmtsOmit x p.statements = true) (hscope : R scope) (hs : s.SameBut x R t) :
    (evalProgram n p scope s).SameBut x R (fun last => ∀ v ∈ last, v.Clear x R)
      (evalProgram n p scope t) :=
  (evalStmts_sameBut n p.statements h clear_none hscope hs).andThen
    fun hlast hs₁ => .done (clear_map_unwrapped hlast) hs₁

end Rules

/-! ## Bindings out of sight -/

/-- **A binding that is mentioned nowhere has no influence.** A program without syntax errors is
run in a scope of a store that is met in a session, once as it is and once with a name bound
anew there, to any value. If the name occurs neither in the program nor in a function that is
reachable from the scope, neither of the two runs ever ends, or both end with the very same value
or with none, so it has the same type and text, and then all other names are bound to the same
values in the scope, or are not bound there. -/
theorem unmentioned_binding {s : Store} (hs : s.Met) {source : String}
    (hsource : (parse source).errors = []) (scope : ScopeId) (x : String)
    (hprogram : stmtsOmit x (parse source).program.statements = true)
    (hsight : ∀ f, s.Reaches scope f → f.Omits x) (v : Value) :
    ((∀ n, (evalProgram n (parse source).program scope s).RunsOut) ∧
      ∀ n, (evalProgram n (parse source).program scope (s.bind scope x v)).RunsOut) ∨
    ∃ w s' t',
      (∃ n, evalProgram n (parse source).program scope s = .done w s') ∧
      (∃ n, evalProgram n (parse source).program scope (s.bind scope x v) = .done w t') ∧
      ∀ y, y ≠ x → s'.find? scope y = t'.find? scope y := by
  have hsame := fun n => evalProgram_sameBut n hprogram (.inl .here)
    ⟨Store.Matches.bind_name s scope v, Store.Clear.of_sight hsight⟩
  by_cases hdiverges : ∀ n, (evalProgram n (parse source).program scope s).RunsOut
  · refine .inl ⟨hdiverges, fun n => ?_⟩
    have h := hsame n
    obtain ⟨t, hrun⟩ := hdiverges n
    rw [hrun] at h
    generalize evalProgram n _ scope (s.bind scope x v) = o at h
    cases h
    exact ⟨_, rfl⟩
  · obtain ⟨n, hn⟩ := not_forall.mp hdiverges
    have h := hsame n
    have hknown := evalProgram_known n _ scope s (stmtsKnown_parse hsource) hs.known
    generalize hrun : evalProgram n (parse source).program scope s = o at h hknown hn
    generalize hrun' : evalProgram n (parse source).program scope (s.bind scope x v) = o' at h
    cases h with
    | done _ hstores =>
        exact .inr ⟨_, _, _, ⟨n, hrun⟩, ⟨n, hrun'⟩,
          fun y hy => (hstores.same.find?_eq hy scope).symm⟩
    | fault e => exact hknown.elim
    | exhausted => exact absurd ⟨_, rfl⟩ hn

/-- A function that reads another name is not disturbed by a new binding of `len`. -/
theorem unmentioned_binding_len :
    let sum : Expr := .infixOp ⟨"+", ⟨1, 30⟩⟩ (.identifier ⟨"a", ⟨1, 28⟩⟩ "a") "+"
      (.identifier ⟨"k", ⟨1, 32⟩⟩ "k")
    let f : Value := .function 1 [⟨⟨"a", ⟨1, 23⟩⟩, "a"⟩]
      (.mk ⟨"\x7b", ⟨1, 26⟩⟩ [.expression ⟨"a", ⟨1, 28⟩⟩ sum]) 0
    let s : Store := ⟨#[⟨[("k", .integer 0 2), ("f", f)], none⟩], 2⟩
    s.Met ∧ (parse "f(3)").errors = [] ∧
      stmtsOmit "len" (parse "f(3)").program.statements = true ∧
      (∀ w, s.Reaches 0 w → w.Omits "len") ∧
      ∃ w s' t', (∃ n, evalProgram n (parse "f(3)").program 0 s = .done w s') ∧
        (∃ n, evalProgram n (parse "f(3)").program 0 (s.bind 0 "len" .null) = .done w t') ∧
        ∀ y, y ≠ "len" → s'.find? 0 y = t'.find? 0 y := by
  intro sum f s
  have hmet : s.Met := by
    have hrun : evalProgram 20 (parse "let k = 2; let f = fn(a) \x7b a + k \x7d").program 0
        Store.fresh.2 = .done none s := by cbv
    exact .left (.opened .empty) (by cbv) hrun
  have hheld : ∀ name v w, (name, v) ∈ [("k", .integer 0 2), ("f", f)] → v.Holds w →
      w = .integer 0 2 ∨ w = f := by
    intro name v w hmem hw
    simp only [List.mem_cons, Prod.mk.injEq, List.not_mem_nil, or_false] at hmem
    rcases hmem with ⟨-, rfl⟩ | ⟨-, rfl⟩
    · cases hw
      exact .inl rfl
    · exact .inr (Value.HoldsOnly.function (P := (· = f)) rfl w hw)
  have hzero : ∀ i, s.Sees 0 i → i = 0 := by
    intro i hi
    induction hi with
    | here => rfl
    | outward _ hsc houter ih =>
        subst ih
        cases hsc
        cases houter
    | captured _ hsc hbound hw ih =>
        subst ih
        cases hsc
        rcases hheld _ _ _ hbound hw with h | h
        · cases h
        · exact (Value.function.inj h).2.2.2
  have hsight : ∀ w, s.Reaches 0 w → w.Omits "len" := by
    rintro w ⟨i, sc, name, v, hi, hsc, hbound, hw⟩
    obtain rfl := hzero i hi
    cases hsc
    rcases hheld name v w hbound hw with rfl | rfl
    · trivial
    · exact ⟨by cbv, by cbv⟩
  have hsource : (parse "f(3)").errors = [] := by cbv
  have homits : stmtsOmit "len" (parse "f(3)").program.statements = true := by cbv
  have hrun : evalProgram 20 (parse "f(3)").program 0 s = .done (some (.integer 3 5))
      ⟨s.scopes.push ⟨[("a", .integer 2 3)], some 0⟩, 4⟩ := by cbv
  rcases unmentioned_binding hmet hsource 0 "len" homits hsight .null with ⟨hout, -⟩ | hends
  · obtain ⟨_, hout⟩ := hout 20
    cases hrun.symm.trans hout
  · exact ⟨hmet, hsource, homits, hsight, hends⟩

end MonkeyLang
