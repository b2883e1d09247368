import MonkeyLang.Proofs.ClosedMoments

/-!
# How stores come about

All that a run does to a store is that it makes objects, opens scopes and binds names, one at a
time. `Store.History` follows the store on this way and keeps the bindings in their order. What
a scope binds a name to is then the value that was bound last to this name in this scope
(`Store.History.ownAt_eq`); what is bound in other scopes does not count, and no scope is ever
moved into another one (`Store.History.link_eq`).

Each rule of the evaluation adds to the history (`evalExpr_historic` and the theorems next to
it), and so does each step from one moment of a run to the next (`Enters.history`).
-/

namespace MonkeyLang

/-! ## Writes -/

/-- A value that is bound to a name in a scope. -/
structure Write where
  scope : ScopeId
  name : String
  value : Value

/-- The value of the last one among some writes that bind a name in a scope. -/
def lastWritten (writes : List Write) (scope : ScopeId) (name : String) : Option Value :=
  (writes.filter fun w => w.scope = scope ∧ w.name = name).getLast?.map Write.value

theorem lastWritten_concat (writes : List Write) (w : Write) (scope : ScopeId) (name : String) :
    lastWritten (writes ++ [w]) scope name =
      if w.scope = scope ∧ w.name = name then some w.value
      else lastWritten writes scope name := by
  unfold lastWritten
  rw [List.filter_append]
  split
  · rename_i h
    simp [h]
  · rename_i h
    simp [h]

/-! ## Histories -/

namespace Store

/-- What a scope itself binds a name to. -/
def ownAt (s : Store) (scope : ScopeId) (name : String) : Option Value :=
  s.scopes[scope]?.bind (·.own? name)

/-- The way outward from a scope: the scope that it lies in, if any. -/
def link (s : Store) (scope : ScopeId) : Option (Option ScopeId) :=
  s.scopes[scope]?.map Scope.outer

/-- Making objects, opening scopes and some writes have led from one store to another. -/
inductive History (s : Store) : List Write → Store → Prop
  | start : History s [] s
  | make {writes : List Write} {t : Store} (d : Draft) :
    s.History writes t → s.History writes (t.make d).2
  | openScope {writes : List Write} {t : Store} (outer : Option ScopeId) :
    s.History writes t → s.History writes (t.openScope outer).2
  | bind {writes : List Write} {t : Store} {scope : ScopeId} (name : String) (v : Value) :
    s.History writes t → scope < t.scopes.size →
    s.History (writes ++ [⟨scope, name, v⟩]) (t.bind scope name v)

section Operations

variable (s : Store)

theorem ownAt_make (d : Draft) (i : ScopeId) (name : String) :
    (s.make d).2.ownAt i name = s.ownAt i name := by
  rw [ownAt, scopes_make, ownAt]

theorem link_make (d : Draft) (i : ScopeId) : (s.make d).2.link i = s.link i := by
  rw [link, scopes_make, link]

theorem ownAt_of_le {i : ScopeId} (h : s.scopes.size ≤ i) (name : String) :
    s.ownAt i name = none := by
  rw [ownAt, Array.getElem?_eq_none h]
  rfl

/-- A new scope binds nothing. -/
theorem ownAt_openScope (outer : Option ScopeId) (i : ScopeId) (name : String) :
    (s.openScope outer).2.ownAt i name = s.ownAt i name := by
  rw [ownAt, ownAt, openScope, Array.getElem?_push]
  split
  · rename_i hi
    rw [hi, Array.getElem?_eq_none (Nat.le_refl _)]
    rfl
  · rfl

theorem link_openScope_self (outer : Option ScopeId) :
    (s.openScope outer).2.link s.scopes.size = some outer := by
  rw [link, openScope, Array.getElem?_push, if_pos rfl]
  rfl

theorem link_openScope (outer : Option ScopeId) {i : ScopeId} (hi : i < s.scopes.size) :
    (s.openScope outer).2.link i = s.link i := by
  rw [link, link, openScope, Array.getElem?_push, if_neg (Nat.ne_of_lt hi)]

theorem ownAt_bind {scope : ScopeId} (hscope : scope < s.scopes.size) (name : String) (v : Value)
    (i : ScopeId) (x : String) : (s.bind scope name v).ownAt i x =
      if scope = i ∧ name = x then some v else s.ownAt i x := by
  rw [ownAt, ownAt, Store.bind, Array.getElem?_modify]
  by_cases hi : scope = i
  · subst hi
    rw [if_pos rfl, Array.getElem?_eq_getElem hscope, Option.map_some, Option.bind_some,
      Option.bind_some, Scope.own?, Scope.bind]
    by_cases hx : name = x
    · rw [if_pos ⟨rfl, hx⟩, ← hx, lookup_bindIn_self]
    · rw [if_neg fun h => hx h.2, lookup_bindIn_ne (Ne.symm hx)]
      rfl
  · rw [if_neg hi, if_neg fun h => hi h.1]

theorem link_bind (scope : ScopeId) (name : String) (v : Value) (i : ScopeId) :
    (s.bind scope name v).link i = s.link i := by
  rw [link, link, Store.bind, Array.getElem?_modify]
  split
  · rw [Option.map_map]
    rfl
  · rfl

end Operations

namespace History

variable {s t u : Store} {writes more : List Write}

theorem trans (h : s.History writes t) (h' : t.History more u) : s.History (writes ++ more) u := by
  induction h' with
  | start => rwa [List.append_nil]
  | make d _ ih => exact ih.make d
  | openScope outer _ ih => exact ih.openScope outer
  | bind name v _ hscope ih =>
      rw [← List.append_assoc]
      exact ih.bind name v hscope

theorem grows (h : s.History writes t) : s.Grows t := by
  induction h with
  | start => exact .refl s
  | make d _ ih => exact ih.trans (grows_make _ d)
  | openScope outer _ ih => exact ih.trans (grows_openScope _ outer)
  | bind name v _ _ ih => exact ih.trans (grows_bind _ _ name v)

/-- **Most recent write.** A scope binds a name to the value that was last bound to it there,
or to what it was bound to at the start. -/
theorem ownAt_eq (h : s.History writes t) (i : ScopeId) (name : String) :
    t.ownAt i name = (lastWritten writes i name).or (s.ownAt i name) := by
  induction h with
  | start => rfl
  | make d _ ih => rw [ownAt_make, ih]
  | openScope outer _ ih => rw [ownAt_openScope, ih]
  | bind x v _ hscope ih =>
      rw [ownAt_bind _ hscope, lastWritten_concat, ih]
      split <;> rfl

/-- A scope stays where it is. -/
theorem link_eq (h : s.History writes t) {i : ScopeId} (hi : i < s.scopes.size) :
    t.link i = s.link i := by
  induction h with
  | start => rfl
  | make d _ ih => rw [link_make, ih]
  | openScope outer h ih => rw [link_openScope _ _ (h.grows.scope_lt hi), ih]
  | bind name v _ _ ih => rw [link_bind, ih]

end History

/-- Parameters are bound one after another. -/
theorem history_bindAll {scope : ScopeId} : ∀ (names : List String) (vs : List Value) {s : Store},
    scope < s.scopes.size → ∃ writes, s.History writes (s.bindAll scope names vs)
  | [], _, _, _ | _ :: _, [], _, _ => ⟨[], .start⟩
  | name :: names, v :: vs, s, hscope => by
      have hbind := History.start.bind name v hscope
      obtain ⟨writes, hmore⟩ := history_bindAll names vs (hbind.grows.scope_lt hscope)
      exact ⟨_, hbind.trans hmore⟩

/-- A call opens a scope and binds its arguments there. -/
theorem history_enter (s : Store) (outer : Option ScopeId) (names : List String)
    (arguments : List Value) :
    let inner := (s.openScope outer).2.bindAll (s.openScope outer).1 names arguments
    (∃ writes, s.History writes inner) ∧ (s.openScope outer).1 < inner.scopes.size := by
  have hnew := s.lt_openScope outer
  obtain ⟨writes, hbound⟩ := history_bindAll names arguments hnew
  exact ⟨⟨_, (History.start.openScope outer).trans hbound⟩, hbound.grows.scope_lt hnew⟩

end Store

/-! ## Outcomes -/

/-- An evaluation that comes to an answer has done nothing to a store but make objects, open
scopes and bind names. -/
def Outcome.Historic {α : Type} (s : Store) (o : Outcome α) : Prop :=
  ∀ a t, o = .done a t → ∃ writes, s.History writes t

namespace Outcome.Historic

variable {α β : Type} {s : Store}

theorem exhausted (t : Store) : (Outcome.exhausted (t := t) : Outcome α).Historic s := nofun

theorem fault (t : Store) (e : Fault) : (Outcome.fault (t := t) e : Outcome α).Historic s := nofun

theorem done (a : α) (s : Store) : (Outcome.done a s).Historic s := by
  rintro _ _ ⟨⟩
  exact ⟨[], .start⟩

theorem yield (d : Draft) (s : Store) : (s.yield d).Historic s := by
  rintro _ _ ⟨⟩
  exact ⟨[], .make d .start⟩

/-- What comes next starts in a store that has grown, so all scopes are still there. -/
theorem andThen {o : Outcome α} {f : α → Store → Outcome β} (h : o.Historic s)
    (hf : ∀ a s', s.Grows s' → (f a s').Historic s') : (o.andThen f).Historic s := by
  intro b t hdone
  obtain ⟨a, s', ho, hb⟩ := andThen_eq_done hdone
  obtain ⟨writes, hs'⟩ := h a s' ho
  obtain ⟨more, ht⟩ := hf a s' hs'.grows b t hb
  exact ⟨_, hs'.trans ht⟩

theorem unlessError {o : Outcome Value} {f : Value → Store → Outcome Value} (h : o.Historic s)
    (hf : ∀ v s', s.Grows s' → (f v s').Historic s') : (o.unlessError f).Historic s := by
  intro w t hdone
  cases o with
  | done v s' =>
      obtain ⟨writes, hs'⟩ := h v s' rfl
      rw [unlessError_done] at hdone
      split at hdone
      · cases hdone
        exact ⟨_, hs'⟩
      · obtain ⟨more, ht⟩ := hf v s' hs'.grows w t hdone
        exact ⟨_, hs'.trans ht⟩
  | fault e => exact nomatch hdone
  | exhausted => exact nomatch hdone

theorem ite {p : Prop} [Decidable p] {o o' : Outcome α} (h : o.Historic s) (h' : o'.Historic s) :
    (if p then o else o').Historic s := by
  split
  · exact h
  · exact h'

/-- What comes of the answer does nothing to the store. -/
theorem map {o : Outcome α} (h : o.Historic s) (f : α → β) :
    (o.andThen fun a s => .done (f a) s).Historic s :=
  h.andThen fun _ s' _ => .done _ s'

end Outcome.Historic

/-! ## Rules -/

open Outcome in
mutual

theorem evalExpr_historic : ∀ n (e : Expr) {scope : ScopeId} {s : Store},
    scope < s.scopes.size → (evalExpr n e scope s).Historic s
  | 0, _, _, _, _ => by unfold evalExpr; exact .exhausted _
  | n + 1, e, scope, s, h => by
      unfold evalExpr
      cases e with
      | identifier _ _ | integer _ _ | string _ _ | boolean _ _ | function _ _ _ =>
          exact .yield _ s
      | unknown _ _ => exact .fault _ _
      | prefixOp _ _ right =>
          exact (evalExpr_historic n right h).unlessError fun _ _ _ => .yield _ _
      | infixOp _ left _ right =>
          refine (evalExpr_historic n left h).unlessError fun _ _ h₁ => ?_
          exact (evalExpr_historic n right (h₁.scope_lt h)).unlessError fun _ _ _ => .yield _ _
      | conditional _ condition consequence alternative =>
          refine (evalExpr_historic n condition h).unlessError fun _ s₁ h₁ => ?_
          refine .ite (evalBlock_historic n consequence (h₁.scope_lt h)) ?_
          cases alternative with
          | none => exact .done _ s₁
          | some other => exact evalBlock_historic n other (h₁.scope_lt h)
      | loop _ condition body => exact evalLoop_historic n condition body h
      | call _ function arguments =>
          refine (evalExpr_historic n function h).unlessError fun f _ h₁ => ?_
          refine (evalAll_historic n arguments (h₁.scope_lt h)).andThen fun vs s₂ _ => ?_
          cases vs with
          | error e => exact .done e s₂
          | ok vs => exact apply_historic n f vs s₂
      | array _ elements =>
          refine (evalAll_historic n elements h).andThen fun vs s₁ _ => ?_
          cases vs with
          | error e => exact .done e s₁
          | ok vs => exact .yield _ s₁
      | index _ left index =>
          refine (evalExpr_historic n left h).unlessError fun _ _ h₁ => ?_
          exact (evalExpr_historic n index (h₁.scope_lt h)).unlessError fun _ _ _ => .yield _ _
      | hash _ pairs => exact evalPairs_historic n pairs [] h
      | statement stmt => exact (evalStmt_historic n stmt h).map _

theorem evalAll_historic : ∀ n (es : List Expr) {scope : ScopeId} {s : Store},
    scope < s.scopes.size → (evalAll n es scope s).Historic s
  | 0, _, _, _, _ => by unfold evalAll; exact .exhausted _
  | n + 1, [], scope, s, _ => by unfold evalAll; exact .done _ s
  | n + 1, e :: es, scope, s, h => by
      unfold evalAll
      refine (evalExpr_historic n e h).andThen fun _ s₁ h₁ => .ite (.done _ s₁) ?_
      exact (evalAll_historic n es (h₁.scope_lt h)).map _

theorem evalPairs_historic : ∀ n pairs (entries : Entries) {scope : ScopeId} {s : Store},
    scope < s.scopes.size → (evalPairs n pairs entries scope s).Historic s
  | 0, _, _, _, _, _ => by unfold evalPairs; exact .exhausted _
  | n + 1, [], entries, scope, s, _ => by unfold evalPairs; exact .yield _ s
  | n + 1, (key, value) :: pairs, entries, scope, s, h => by
      unfold evalPairs
      refine (evalExpr_historic n key h).unlessError fun _ s₁ h₁ => .ite (.yield _ s₁) ?_
      have hscope₁ := h₁.scope_lt h
      refine (evalExpr_historic n value hscope₁).unlessError fun _ s₂ h₂ => ?_
      exact evalPairs_historic n pairs _ (h₂.scope_lt hscope₁)

theorem evalLoop_historic : ∀ n (condition : Expr) (body : Block) {scope : ScopeId} {s : Store},
    scope < s.scopes.size → (evalLoop n condition body scope s).Historic s
  | 0, _, _, _, _, _ => by unfold evalLoop; exact .exhausted _
  | n + 1, condition, body, scope, s, h => by
      unfold evalLoop
      refine (evalExpr_historic n condition h).unlessError fun _ s₁ h₁ => .ite ?_ (.done _ s₁)
      have hscope₁ := h₁.scope_lt h
      refine (evalBlock_historic n body hscope₁).andThen fun _ s₂ h₂ => .ite (.done _ s₂) ?_
      exact evalLoop_historic n condition body (h₂.scope_lt hscope₁)

theorem evalBlock_historic : ∀ n (b : Block) {scope : ScopeId} {s : Store},
    scope < s.scopes.size → (evalBlock n b scope s).Historic s
  | 0, _, _, _, _ => by unfold evalBlock; exact .exhausted _
  | n + 1, b, scope, s, h => by
      unfold evalBlock
      exact (evalStmts_historic n b.statements none h).map _

theorem evalStmts_historic : ∀ n stmts (last : Option Value) {scope : ScopeId} {s : Store},
    scope < s.scopes.size → (evalStmts n stmts last scope s).Historic s
  | 0, _, _, _, _, _ => by unfold evalStmts; exact .exhausted _
  | n + 1, [], last, scope, s, _ => by unfold evalStmts; exact .done last s
  | n + 1, stmt :: stmts, last, scope, s, h => by
      unfold evalStmts
      refine (evalStmt_historic n stmt h).andThen fun v s₁ h₁ => .ite (.done v s₁) ?_
      exact evalStmts_historic n stmts v (h₁.scope_lt h)

theorem evalStmt_historic : ∀ n (stmt : Stmt) {scope : ScopeId} {s : Store},
    scope < s.scopes.size → (evalStmt n stmt scope s).Historic s
  | 0, _, _, _, _ => by unfold evalStmt; exact .exhausted _
  | n + 1, stmt, scope, s, h => by
      unfold evalStmt
      match stmt with
      | .binding _ name value =>
          refine (evalExpr_historic n value h).andThen fun v s₁ h₁ => .ite (.done _ s₁) ?_
          rintro _ _ ⟨⟩
          exact ⟨_, .bind name.value v .start (h₁.scope_lt h)⟩
      | .leave _ value =>
          exact ((evalExpr_historic n value h).unlessError fun _ _ _ => .yield _ _).map _
      | .expression _ e | .bare e => exact (evalExpr_historic n e h).map _
      | .block (.program stmts) => exact (evalStmts_historic n stmts none h).map _
      | .block (.mk mark stmts) => exact (evalBlock_historic n (.mk mark stmts) h).map _
      | .unknown _ _ => exact .fault _ _

theorem apply_historic : ∀ n f arguments (s : Store), (apply n f arguments s).Historic s
  | 0, _, _, _ => by unfold apply; exact .exhausted _
  | n + 1, f, arguments, s => by
      unfold apply
      cases f with
      | function _ parameters body outer =>
          refine .ite (.yield _ s) fun v t hdone => ?_
          obtain ⟨⟨_, hbound⟩, hnew⟩ :=
            s.history_enter (some outer) (parameters.map Name.value) arguments
          obtain ⟨_, hbody⟩ := (evalBlock_historic n body hnew).map _ v t hdone
          exact ⟨_, hbound.trans hbody⟩
      | builtin b => exact .yield _ s
      | _ => exact .yield _ s

end

/-! ## Moments -/

variable {m m' : Moment}

theorem Moment.run_historic (n : Nat) (h : m.task.IsIn m.store) : (m.run n).Historic m.store := by
  obtain ⟨task, s⟩ := m
  cases task with
  | expr e scope => exact (evalExpr_historic n e h).map _
  | all es scope => exact (evalAll_historic n es h).map _
  | pairs pairs entries scope => exact (evalPairs_historic n pairs entries h).map _
  | loop condition body scope => exact (evalLoop_historic n condition body h).map _
  | block b scope => exact (evalBlock_historic n b h).map _
  | stmts stmts last scope => exact (evalStmts_historic n stmts last h).map _
  | stmt stmt scope => exact (evalStmt_historic n stmt h).map _
  | call f arguments => exact (apply_historic n f arguments s).map _

/-- **Step.** What a moment enters has a history from there on, and its scope exists. -/
theorem Enters.history {role : Role} (h : Enters role m m') (hin : m.task.IsIn m.store) :
    (∃ writes, m.store.History writes m'.store) ∧ m'.task.IsIn m'.store := by
  cases h with
  | operand | left | condition | function | indexed | loop | elements | hash | statement | first
  | key | test | statements | head | bound | returned | expression | program | block | bare =>
      exact ⟨⟨[], .start⟩, hin⟩
  | right h _ | consequence h _ _ | alternative h _ _ | arguments h _ | index h _ | others h _
  | value h _ _ | iteration h _ _ =>
      obtain ⟨writes, h₁⟩ := evalExpr_historic _ _ hin _ _ h
      exact ⟨⟨writes, h₁⟩, h₁.grows.scope_lt hin⟩
  | call hf _ hvs =>
      obtain ⟨_, h₁⟩ := evalExpr_historic _ _ hin _ _ hf
      obtain ⟨_, h₂⟩ := evalAll_historic _ _ (h₁.grows.scope_lt hin) _ _ hvs
      exact ⟨⟨_, h₁.trans h₂⟩, trivial⟩
  | entry hk _ _ hv _ =>
      obtain ⟨_, h₁⟩ := evalExpr_historic _ _ hin _ _ hk
      obtain ⟨_, h₂⟩ := evalExpr_historic _ _ (h₁.grows.scope_lt hin) _ _ hv
      have h₂ := h₁.trans h₂
      exact ⟨⟨_, h₂⟩, h₂.grows.scope_lt hin⟩
  | again hc _ _ hv _ =>
      obtain ⟨_, h₁⟩ := evalExpr_historic _ _ hin _ _ hc
      obtain ⟨_, h₂⟩ := evalBlock_historic _ _ (h₁.grows.scope_lt hin) _ _ hv
      have h₂ := h₁.trans h₂
      exact ⟨⟨_, h₂⟩, h₂.grows.scope_lt hin⟩
  | next hv _ =>
      obtain ⟨writes, h₁⟩ := evalStmt_historic _ _ hin _ _ hv
      exact ⟨⟨writes, h₁⟩, h₁.grows.scope_lt hin⟩
  | body _ => exact Store.history_enter _ _ _ _

end MonkeyLang
