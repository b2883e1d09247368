import MonkeyLang.Proofs.Discipline
import MonkeyLang.Proofs.Pervasive
import MonkeyLang.Proofs.Throwing

/-!
# Values at rest

Errors and returned values direct the evaluation: they are values on their way. A
value at rest, such as names are bound to and arrays and hashes consist of, is none
of them and holds none. Where returns are not thrown, a returned value may come to
rest as well.

Where returns are thrown, the functions among the values at rest have disciplined
bodies: there is no other way out of a call.
-/

namespace MonkeyLang

/-! ## Held values -/

/-- A value holds another: it is the other one, or it has a part that holds it. -/
inductive Value.Holds : Value → Value → Prop
  | self {v : Value} : Holds v v
  | element {id elements} {v w : Value} : v ∈ elements → Holds v w → Holds (.array id elements) w
  | key {id entries} {k v w : Value} : (k, v) ∈ entries → Holds k w → Holds (.hash id entries) w
  | entry {id entries} {k v w : Value} : (k, v) ∈ entries → Holds v w → Holds (.hash id entries) w
  | operand {id} {v w : Value} : Holds v w → Holds (.returned id v) w

/-- All values that a value holds have a property. -/
def Value.HoldsOnly (P : Value → Prop) (v : Value) : Prop := ∀ w, v.Holds w → P w

/-- A value is not of a type and holds no value of the type. -/
def Value.FreeOf (t : TypeTag) (v : Value) : Prop := v.HoldsOnly fun w => w.type ≠ t

/-- A store binds only values that are free of values of a type. -/
def Store.FreeOf (t : TypeTag) (s : Store) : Prop := s.All (Value.FreeOf t)

namespace Value.HoldsOnly

variable {P Q : Value → Prop} {v : Value}

theorem self (h : v.HoldsOnly P) : P v := h v .self

theorem mono (hPQ : ∀ w, P w → Q w) (h : v.HoldsOnly P) : v.HoldsOnly Q :=
  fun w hw => hPQ w (h w hw)

theorem operand {id : ObjectId} (h : (Value.returned id v).HoldsOnly P) : v.HoldsOnly P :=
  fun w hw => h w (.operand hw)

theorem returned {id : ObjectId} (hself : P (.returned id v)) (h : v.HoldsOnly P) :
    (Value.returned id v).HoldsOnly P := by
  intro w hw
  cases hw with
  | self => exact hself
  | operand hw => exact h w hw

theorem function {id : ObjectId} {parameters : List Name} {body : Block} {scope : ScopeId}
    (h : P (.function id parameters body scope)) :
    (Value.function id parameters body scope).HoldsOnly P := by
  intro w hw
  cases hw
  exact h

end Value.HoldsOnly

/-- What the values held by a value have to satisfy is composite if it is required of
integers, functions, returned values and errors only, and the results of the arithmetic
operators satisfy it. -/
theorem composite_holdsOnly {P : Value → Prop} (hwrapped : ∀ id n, P (.integer id (wrap n)))
    (hP : ∀ v : Value, v.type ≠ .integer → v.type ≠ .function → v.type ≠ .returned →
      v.type ≠ .error → P v) : Composite (Value.HoldsOnly P) where
  wrapped id n := by
    rintro w ⟨⟩
    exact hwrapped id n
  boolean b := by
    rintro w ⟨⟩
    exact hP _ nofun nofun nofun nofun
  string id text := by
    rintro w ⟨⟩
    exact hP _ nofun nofun nofun nofun
  null := by
    rintro w ⟨⟩
    exact hP _ nofun nofun nofun nofun
  builtin b := by
    rintro w ⟨⟩
    exact hP _ nofun nofun nofun nofun
  array_iff id elements := by
    refine ⟨fun h v hv w hw => h w (.element hv hw), fun h w hw => ?_⟩
    cases hw with
    | self => exact hP _ nofun nofun nofun nofun
    | element hv hw => exact h _ hv w hw
  hash_iff id entries := by
    refine ⟨fun h e he => ⟨fun w hw => h w (.key he hw), fun w hw => h w (.entry he hw)⟩, ?_⟩
    intro h w hw
    cases hw with
    | self => exact hP _ nofun nofun nofun nofun
    | key he hw => exact (h _ he).1 w hw
    | entry he hw => exact (h _ he).2 w hw

/-- It is pervasive if it is required of functions, returned values and errors only. -/
theorem pervasive_holdsOnly {P : Value → Prop}
    (hP : ∀ v : Value, v.type ≠ .function → v.type ≠ .returned → v.type ≠ .error → P v) :
    Pervasive (Value.HoldsOnly P) where
  toComposite := composite_holdsOnly (fun _ _ => hP _ nofun nofun nofun) fun v _ => hP v
  integer id n := by
    rintro w ⟨⟩
    exact hP _ nofun nofun nofun

theorem Store.All.mono {P Q : Value → Prop} {s : Store} (hPQ : ∀ v, P v → Q v) (h : s.All P) :
    s.All Q :=
  fun sc hsc b hb => hPQ b.2 (h sc hsc b hb)

/-! ## Rest -/

/-- The code has to pass a test if returns are thrown. -/
def Returning.Asks (how : Returning) (test : Bool) : Prop := how = .thrown → test = true

theorem Returning.Asks.and {how : Returning} {a b : Bool} (h : how.Asks (a && b)) :
    how.Asks a ∧ how.Asks b :=
  ⟨fun ht => (Bool.and_eq_true_iff.mp (h ht)).1, fun ht => (Bool.and_eq_true_iff.mp (h ht)).2⟩

/-- A value that is not on its way through the evaluation. -/
def Value.Settled (how : Returning) : Value → Prop
  | .function _ _ body _ => how.Asks (body.isDisciplined true)
  | .returned _ _ => how = .wrapped
  | .error _ _ => False
  | _ => True

/-- A value at rest: all that it holds is settled. -/
def Value.AtRest (how : Returning) (v : Value) : Prop := v.HoldsOnly (Settled how)

theorem pervasive_atRest (how : Returning) : Pervasive (Value.AtRest how) := by
  refine pervasive_holdsOnly fun v hfunction hreturned herror => ?_
  cases v with
  | function _ _ _ _ => exact absurd rfl hfunction
  | returned _ _ => exact absurd rfl hreturned
  | error _ _ => exact absurd rfl herror
  | _ => trivial

namespace Value.AtRest

variable {how : Returning} {v : Value}

theorem isError (h : v.AtRest how) : v.isError = false := by
  cases v with
  | error _ _ => exact h.self.elim
  | _ => rfl

/-- Among values at rest those that end a block are the ones that end it where errors
are thrown. -/
theorem endsBlock (h : v.AtRest how) : v.endsBlock = how.ends v := by
  cases v with
  | error _ _ => exact h.self.elim
  | returned _ _ =>
      have hwrapped : how = .wrapped := h.self
      rw [hwrapped]
      rfl
  | _ => cases how <;> rfl

theorem unwrapped (h : v.AtRest how) : v.unwrapped = how.received v := by
  cases how with
  | wrapped => rfl
  | thrown =>
      cases v with
      | returned _ _ => exact nomatch h.self
      | _ => rfl

theorem received (h : v.AtRest how) : (how.received v).AtRest how := by
  rw [← h.unwrapped]
  cases v with
  | returned _ _ => exact h.operand
  | _ => exact h

theorem freeOf_error (h : v.AtRest how) : v.FreeOf .error := by
  refine h.mono fun w hw htype => ?_
  cases w with
  | error _ _ => exact hw
  | _ => exact nomatch htype

theorem freeOf_returned (h : v.AtRest .thrown) : v.FreeOf .returned := by
  refine h.mono fun w hw htype => ?_
  obtain ⟨id, u, rfl⟩ := exists_of_type_eq_returned htype
  cases hw

end Value.AtRest

end MonkeyLang
