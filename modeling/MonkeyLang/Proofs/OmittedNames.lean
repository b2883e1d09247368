import MonkeyLang.Proofs.AtRest

/-!
# Omitted names

A tree omits a name if the name occurs in it nowhere: not as an expression, not in a `let` and
not as a parameter. Code that omits a name can neither read it nor bind it, and two stores that
differ in what they bind to this name are the same to it (`Store.Matches`).

The code that a run can come by is that of the program and of the functions in sight of the scope
that it runs in (`Store.Sees`): closures bring in the scopes that they were made in.
-/

namespace MonkeyLang

/-! ## Trees -/

mutual

/-- A name occurs nowhere in an expression. -/
def Expr.omits (x : String) : Expr → Bool
  | .identifier _ name => name != x
  | .integer .. | .string .. | .boolean .. | .unknown .. => true
  | .prefixOp _ _ right => right.omits x
  | .infixOp _ left _ right => left.omits x && right.omits x
  | .conditional _ condition consequence alternative =>
    condition.omits x && consequence.omits x && elseOmits x alternative
  | .loop _ condition body => condition.omits x && body.omits x
  | .function _ parameters body => parameters.all (·.value != x) && body.omits x
  | .call _ function arguments => function.omits x && allOmit x arguments
  | .array _ elements => allOmit x elements
  | .index _ left index => left.omits x && index.omits x
  | .hash _ pairs => pairsOmit x pairs
  | .statement stmt => stmt.omits x

def elseOmits (x : String) : Option Block → Bool
  | none => true
  | some b => b.omits x

def allOmit (x : String) : List Expr → Bool
  | [] => true
  | e :: es => e.omits x && allOmit x es

def pairsOmit (x : String) : List (Expr × Expr) → Bool
  | [] => true
  | (key, value) :: pairs => key.omits x && value.omits x && pairsOmit x pairs

def Block.omits (x : String) : Block → Bool
  | .mk _ stmts | .program stmts => stmtsOmit x stmts

def Stmt.omits (x : String) : Stmt → Bool
  | .binding _ name value => name.value != x && value.omits x
  | .leave _ value => value.omits x
  | .expression _ e | .bare e => e.omits x
  | .block b => b.omits x
  | .unknown .. => true

def stmtsOmit (x : String) : List Stmt → Bool
  | [] => true
  | stmt :: stmts => stmt.omits x && stmtsOmit x stmts

end

theorem Block.omits_statements {x : String} {b : Block} (h : b.omits x = true) :
    stmtsOmit x b.statements = true := by
  cases b <;> exact h

/-! ## Sight -/

/-- The scopes in sight of a scope: the scope itself, the scopes that a scope in sight lies in,
and the scopes of the functions that values bound in a scope in sight hold. -/
inductive Store.Sees (s : Store) (scope : ScopeId) : ScopeId → Prop
  | here : s.Sees scope scope
  | outward {i : ScopeId} {sc : Scope} {outer : ScopeId} : s.Sees scope i →
    s.scopes[i]? = some sc → sc.outer = some outer → s.Sees scope outer
  | captured {i : ScopeId} {sc : Scope} {name : String} {v : Value} {id : ObjectId}
    {parameters : List Name} {body : Block} {j : ScopeId} : s.Sees scope i →
    s.scopes[i]? = some sc → (name, v) ∈ sc.bindings →
    v.Holds (.function id parameters body j) → s.Sees scope j

/-- A value is reachable from a scope: one that is bound in a scope in sight holds it. -/
def Store.Reaches (s : Store) (scope : ScopeId) (w : Value) : Prop :=
  ∃ i sc name v, s.Sees scope i ∧ s.scopes[i]? = some sc ∧ (name, v) ∈ sc.bindings ∧ v.Holds w

/-- The value is no function that a name occurs in. -/
def Value.Omits (x : String) : Value → Prop
  | .function _ parameters body _ => parameters.all (·.value != x) = true ∧ body.omits x = true
  | _ => True

/-- The value is no function of a scope out of a range, and none that a name occurs in. -/
def Value.OmitsIn (x : String) (R : ScopeId → Prop) : Value → Prop
  | .function id parameters body scope =>
    (Value.function id parameters body scope).Omits x ∧ R scope
  | _ => True

/-- All values that a value holds omit a name and stay within a range of scopes. -/
def Value.Clear (x : String) (R : ScopeId → Prop) (v : Value) : Prop := v.HoldsOnly (OmitsIn x R)

theorem pervasive_clear (x : String) (R : ScopeId → Prop) : Pervasive (Value.Clear x R) := by
  refine pervasive_holdsOnly fun v hfunction _ _ => ?_
  cases v with
  | function _ _ _ _ => exact absurd rfl hfunction
  | _ => trivial

namespace Value.Clear

variable {x : String} {R : ScopeId → Prop} {v : Value}

theorem error (id : ObjectId) (e : RuntimeError) : (Value.error id e).Clear x R := by
  rintro _ ⟨⟩
  trivial

theorem unwrapped (h : v.Clear x R) : v.unwrapped.Clear x R := by
  cases v with
  | returned _ _ => exact h.operand
  | _ => exact h

end Value.Clear

/-! ## Stores -/

/-- Two scopes lie in the same one and bind all names but one to the same values. -/
structure Scope.Matches (x : String) (sc sc' : Scope) : Prop where
  outer_eq : sc'.outer = sc.outer
  own?_eq : ∀ y, y ≠ x → sc'.own? y = sc.own? y

/-- Two stores hand out the same identities, and their scopes bind all names but one to the same
values. -/
structure Store.Matches (x : String) (s t : Store) : Prop where
  nextId_eq : t.nextId = s.nextId
  size_eq : t.scopes.size = s.scopes.size
  scopes : ∀ i : ScopeId, Option.Rel (Scope.Matches x) s.scopes[i]? t.scopes[i]?

theorem Scope.Matches.refl (x : String) (sc : Scope) : sc.Matches x sc := ⟨rfl, fun _ _ => rfl⟩

theorem Scope.Matches.bind {x : String} {sc sc' : Scope} (h : sc.Matches x sc') (name : String)
    (v : Value) : (sc.bind name v).Matches x (sc'.bind name v) where
  outer_eq := h.outer_eq
  own?_eq y hy := by
    by_cases heq : y = name
    · simp only [own?, Scope.bind, heq, lookup_bindIn_self]
    · simp only [own?, Scope.bind, lookup_bindIn_ne heq]
      exact h.own?_eq y hy

namespace Store.Matches

variable {x : String} {s t : Store}

theorem refl (x : String) (s : Store) : s.Matches x s where
  nextId_eq := rfl
  size_eq := rfl
  scopes i := by
    cases s.scopes[i]? with
    | none => exact .none
    | some sc => exact .some (.refl x sc)

/-- What is bound to the name makes no difference. -/
theorem bind_name (s : Store) (scope : ScopeId) (v : Value) : s.Matches x (s.bind scope x v) where
  nextId_eq := rfl
  size_eq := Array.size_modify
  scopes i := by
    rw [bind, Array.getElem?_modify]
    cases s.scopes[i]? with
    | none => split <;> exact .none
    | some sc =>
        split
        · exact .some ⟨rfl, fun y hy => lookup_bindIn_ne hy v sc.bindings⟩
        · exact .some (.refl x sc)

theorem findWithin_eq (h : s.Matches x t) {y : String} (hy : y ≠ x) (n : Nat) (scope : ScopeId) :
    t.findWithin n scope y = s.findWithin n scope y := by
  induction n generalizing scope with
  | zero => rfl
  | succ n ih =>
      have hscope := h.scopes scope
      unfold findWithin
      generalize s.scopes[scope]? = found, t.scopes[scope]? = found' at hscope ⊢
      cases hscope with
      | none => rfl
      | some hsc => simp only [hsc.own?_eq y hy, hsc.outer_eq, ih]

theorem find?_eq (h : s.Matches x t) {y : String} (hy : y ≠ x) (scope : ScopeId) :
    t.find? scope y = s.find? scope y := h.findWithin_eq hy _ scope

theorem valueOf_eq (h : s.Matches x t) {y : String} (hy : y ≠ x) (scope : ScopeId) :
    t.valueOf scope y = s.valueOf scope y := by
  rw [valueOf, h.find?_eq hy, valueOf]

theorem make_fst (h : s.Matches x t) (d : Draft) : (t.make d).1 = (s.make d).1 :=
  congrArg d.value h.nextId_eq

theorem make (h : s.Matches x t) (d : Draft) : (s.make d).2.Matches x (t.make d).2 := by
  unfold Store.make
  cases d.isNew with
  | false => exact h
  | true => exact ⟨congrArg (· + 1) h.nextId_eq, h.size_eq, h.scopes⟩

theorem bind (h : s.Matches x t) (scope : ScopeId) (name : String) (v : Value) :
    (s.bind scope name v).Matches x (t.bind scope name v) where
  nextId_eq := h.nextId_eq
  size_eq := by simp only [Store.bind, Array.size_modify, h.size_eq]
  scopes i := by
    have hi := h.scopes i
    simp only [Store.bind, Array.getElem?_modify]
    generalize s.scopes[i]? = found, t.scopes[i]? = found' at hi ⊢
    split
    · cases hi with
      | none => exact .none
      | some hsc => exact .some (hsc.bind name v)
    · exact hi

theorem bindAll (h : s.Matches x t) (scope : ScopeId) (names : List String) (vs : List Value) :
    (s.bindAll scope names vs).Matches x (t.bindAll scope names vs) := by
  induction names generalizing s t vs with
  | nil => exact h
  | cons name names ih =>
      cases vs with
      | nil => exact h
      | cons v vs => exact ih (h.bind scope name v) vs

theorem openScope (h : s.Matches x t) (outer : Option ScopeId) :
    (s.openScope outer).2.Matches x (t.openScope outer).2 where
  nextId_eq := h.nextId_eq
  size_eq := by simp only [Store.openScope, Array.size_push, h.size_eq]
  scopes i := by
    simp only [Store.openScope, Array.getElem?_push, h.size_eq]
    split
    · exact .some (.refl x _)
    · exact h.scopes i

end Store.Matches

/-! ## Clear stores -/

/-- In the scopes of a range a store binds clear values to all names but one, and these scopes
lie in scopes of the range. Scopes that are still to be opened are in the range. -/
structure Store.Clear (x : String) (R : ScopeId → Prop) (s : Store) : Prop where
  unopened : ∀ i, s.scopes.size ≤ i → R i
  outer : ∀ i sc, R i → s.scopes[i]? = some sc → ∀ o, sc.outer = some o → R o
  own? : ∀ i sc, R i → s.scopes[i]? = some sc →
    ∀ y v, y ≠ x → sc.own? y = some v → v.Clear x R

namespace Store.Clear

variable {x : String} {R : ScopeId → Prop} {s : Store}

/-- What is in sight of a scope is clear if the functions there omit the name. -/
theorem of_sight {scope : ScopeId} (h : ∀ v, s.Reaches scope v → v.Omits x) :
    s.Clear x fun i => s.Sees scope i ∨ s.scopes.size ≤ i where
  unopened i hi := .inr hi
  outer i sc hi hsc o ho := by
    rcases hi with hi | hi
    · exact .inl (.outward hi hsc ho)
    · exact nomatch (Array.getElem?_eq_none hi).symm.trans hsc
  own? i sc hi hsc y v _ hv := by
    rcases hi with hi | hi
    · have hmem := mem_of_own? hv
      intro w hw
      cases w with
      | function id parameters body j =>
          exact ⟨h _ ⟨i, sc, y, v, hi, hsc, hmem, hw⟩, .inl (.captured hi hsc hmem hw)⟩
      | _ => trivial
    · exact nomatch (Array.getElem?_eq_none hi).symm.trans hsc

theorem find? (h : s.Clear x R) {scope : ScopeId} (hscope : R scope) {y : String} (hy : y ≠ x)
    {v : Value} (hv : s.find? scope y = some v) : v.Clear x R := by
  obtain ⟨i, sc, hi, hsc, hown⟩ := exists_own?_of_find? h.outer hscope hv
  exact h.own? i sc hi hsc y v hy hown

theorem valueOf (h : s.Clear x R) {scope : ScopeId} (hscope : R scope) {y : String} (hy : y ≠ x) :
    (s.valueOf scope y).Has (Value.Clear x R) := by
  unfold Store.valueOf
  split
  · rename_i hv
    exact .inr fun _ => h.find? hscope hy hv
  · split
    · exact .inr fun _ => (pervasive_clear x R).builtin _
    · exact .error _

theorem make (h : s.Clear x R) (d : Draft) : (s.make d).2.Clear x R := by
  unfold Store.make
  cases d.isNew with
  | false => exact h
  | true => exact ⟨h.unopened, h.outer, h.own?⟩

theorem bind (h : s.Clear x R) (scope : ScopeId) (name : String) {v : Value} (hv : v.Clear x R) :
    (s.bind scope name v).Clear x R where
  unopened i hi := h.unopened i (Nat.le_trans (Nat.le_of_eq Array.size_modify.symm) hi)
  outer i sc hi hsc o ho := by
    rw [Store.bind, Array.getElem?_modify] at hsc
    split at hsc
    · obtain ⟨old, hold, rfl⟩ := Option.map_eq_some_iff.mp hsc
      exact h.outer i old hi hold o ho
    · exact h.outer i sc hi hsc o ho
  own? i sc hi hsc y w hy hw := by
    rw [Store.bind, Array.getElem?_modify] at hsc
    split at hsc
    · obtain ⟨old, hold, rfl⟩ := Option.map_eq_some_iff.mp hsc
      by_cases heq : y = name
      · rw [heq, Scope.own?, Scope.bind, lookup_bindIn_self] at hw
        exact Option.some.inj hw ▸ hv
      · rw [Scope.own?, Scope.bind, lookup_bindIn_ne heq] at hw
        exact h.own? i old hi hold y w hy hw
    · exact h.own? i sc hi hsc y w hy hw

theorem bindAll (h : s.Clear x R) (scope : ScopeId) (names : List String) {vs : List Value}
    (hvs : ∀ v ∈ vs, v.Clear x R) : (s.bindAll scope names vs).Clear x R := by
  induction names generalizing s vs with
  | nil => exact h
  | cons name names ih =>
      cases vs with
      | nil => exact h
      | cons v vs =>
          obtain ⟨hv, hvs⟩ := List.forall_mem_cons.mp hvs
          exact ih (h.bind scope name hv) hvs

theorem openScope (h : s.Clear x R) {outer : ScopeId} (houter : R outer) :
    (s.openScope (some outer)).2.Clear x R where
  unopened i hi := by
    rw [Store.openScope, Array.size_push] at hi
    exact h.unopened i (Nat.le_of_succ_le hi)
  outer i sc hi hsc o ho := by
    rw [Store.openScope, Array.getElem?_push] at hsc
    split at hsc
    · cases hsc
      cases ho
      exact houter
    · exact h.outer i sc hi hsc o ho
  own? i sc hi hsc y w hy hw := by
    rw [Store.openScope, Array.getElem?_push] at hsc
    split at hsc
    · cases hsc
      cases hw
    · exact h.own? i sc hi hsc y w hy hw

end Store.Clear

end MonkeyLang
