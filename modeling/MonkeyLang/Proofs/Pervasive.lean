import MonkeyLang.Eval
import MonkeyLang.Proofs.ScopeFrame

/-!
# Properties of all values in a store

The operations of the language make no values out of nothing: what they yield is
an integer, a string, a value that exists once, an error, or it is put together
from parts of their operands. So a property that an array or a hash has exactly
if all its parts have it (`Pervasive`) passes from the operands to the result,
and if it holds of all that a store binds, it holds of what is looked up there.
-/

namespace MonkeyLang

/-! ## Pervasive properties -/

/-- A property of values that all simple values have, except for integers, of which it is
asked only that the results of the arithmetic operators have it, and that an array or a
hash has exactly if all its parts have it. Nothing is said of functions, returned values
and errors. -/
structure Composite (P : Value → Prop) : Prop where
  wrapped : ∀ id n, P (.integer id (wrap n))
  boolean : ∀ b, P (.boolean b)
  string : ∀ id text, P (.string id text)
  null : P .null
  builtin : ∀ b, P (.builtin b)
  array_iff : ∀ id elements, P (.array id elements) ↔ ∀ v ∈ elements, P v
  hash_iff : ∀ id entries, P (.hash id entries) ↔ ∀ e ∈ entries, P e.1 ∧ P e.2

/-- One that all integers have. -/
structure Pervasive (P : Value → Prop) : Prop extends Composite P where
  integer : ∀ id n, P (.integer id n)
  wrapped := fun id n => integer id (wrap n)

/-- The value of a draft has a property, or the draft makes an error. -/
def Draft.Has (P : Value → Prop) (d : Draft) : Prop :=
  (∃ e, d = .error e) ∨ ∀ id, P (d.value id)

theorem Draft.Has.error {P : Value → Prop} (e : RuntimeError) : (Draft.error e).Has P :=
  .inl ⟨e, rfl⟩

namespace Pervasive

variable {P : Value → Prop}

theorem find? {entries : Entries} (h : ∀ e ∈ entries, P e.1 ∧ P e.2) {key : HashKey} {v : Value}
    (hv : Entries.find? key entries = some v) : P v := by
  induction entries with
  | nil => exact nomatch hv
  | cons e entries ih =>
      obtain ⟨he, hes⟩ := List.forall_mem_cons.mp h
      unfold Entries.find? at hv
      split at hv
      · cases hv
        exact he.2
      · exact ih hes hv

theorem insert {key value : Value} {entries : Entries} (hkey : P key) (hvalue : P value)
    (h : ∀ e ∈ entries, P e.1 ∧ P e.2) : ∀ e ∈ Entries.insert key value entries, P e.1 ∧ P e.2 := by
  induction entries with
  | nil => exact List.forall_mem_singleton.mpr ⟨hkey, hvalue⟩
  | cons e entries ih =>
      obtain ⟨he, hes⟩ := List.forall_mem_cons.mp h
      unfold Entries.insert
      split
      · exact List.forall_mem_cons.mpr ⟨⟨hkey, hvalue⟩, hes⟩
      · exact List.forall_mem_cons.mpr ⟨he, ih hes⟩

theorem has_ofOne {Q : Value → Prop} {f : Value → Draft} (hf : ∀ v, Q v → (f v).Has P)
    {arguments : List Value} (h : ∀ v ∈ arguments, Q v) :
    (Builtin.ofOne f arguments).Has P := by
  unfold Builtin.ofOne
  split
  · exact hf _ (h _ List.mem_cons_self)
  · exact .error _

end Pervasive

namespace Composite

variable {P : Value → Prop} (hP : Composite P)
include hP

theorem has_wrapped (n : Int) : (Draft.integer (wrap n)).Has P := .inr fun id => hP.wrapped id n

theorem has_boolean (b : Bool) : (Draft.boolean b).Has P := .inr fun _ => hP.boolean b

theorem has_string (text : String) : (Draft.string text).Has P := .inr fun id => hP.string id text

theorem has_null : Draft.null.Has P := .inr fun _ => hP.null

/-! ## Operators -/

theorem has_prefixOp (operator : String) (right : Value) : (right.prefixOp operator).Has P := by
  unfold Value.prefixOp
  split
  · exact hP.has_boolean _
  · split
    · exact hP.has_wrapped _
    · exact .error _
  · exact .error _

theorem has_infixOp (left : Value) (operator : String) (right : Value) :
    (left.infixOp operator right).Has P := by
  unfold Value.infixOp
  split
  · unfold Value.integerOp
    repeat' split
    all_goals first
      | exact hP.has_wrapped _
      | exact hP.has_boolean _
      | exact .error _
  · unfold Value.stringOp
    split
    · exact hP.has_string _
    · exact hP.has_boolean _
    · exact hP.has_boolean _
    · exact .error _
  · unfold Value.mixedOp
    split
    · exact hP.has_boolean _
    · exact hP.has_boolean _
    · split <;> exact .error _

theorem getD_null {o : Option Value} (h : ∀ v, o = some v → P v) : P (o.getD .null) := by
  cases o with
  | none => exact hP.null
  | some v => exact h v rfl

theorem elementAt {elements : List Value} (h : ∀ v ∈ elements, P v) (i : Int) :
    P (Value.elementAt elements i) := by
  unfold Value.elementAt
  split
  · exact hP.null
  · exact hP.getD_null fun v hv => h v (List.mem_of_getElem? hv)

theorem has_indexOp {left : Value} (hleft : P left) (index : Value) :
    (left.indexOp index).Has P := by
  unfold Value.indexOp
  split
  · rename_i id elements _ i
    exact .inr fun _ => hP.elementAt ((hP.array_iff id elements).mp hleft) i
  · rename_i id entries
    split
    · exact .inr fun _ => hP.getD_null fun _ hv =>
        Pervasive.find? ((hP.hash_iff id entries).mp hleft) hv
    · exact .error _
  · exact .error _

/-! ## Built-in functions -/

theorem has_firstOf {v : Value} (hv : P v) : (Builtin.firstOf v).Has P := by
  cases v with
  | array id elements =>
      exact .inr fun _ => hP.getD_null fun w hw =>
        (hP.array_iff id elements).mp hv w (List.mem_of_head? hw)
  | _ => exact .error _

theorem has_lastOf {v : Value} (hv : P v) : (Builtin.lastOf v).Has P := by
  cases v with
  | array id elements =>
      exact .inr fun _ => hP.getD_null fun w hw =>
        (hP.array_iff id elements).mp hv w (List.mem_of_getLast? hw)
  | _ => exact .error _

theorem has_restOf {v : Value} (hv : P v) : (Builtin.restOf v).Has P := by
  cases v with
  | array id elements =>
      cases elements with
      | nil => exact hP.has_null
      | cons first rest =>
          obtain ⟨-, hrest⟩ := List.forall_mem_cons.mp ((hP.array_iff id _).mp hv)
          exact .inr fun id' => (hP.array_iff id' rest).mpr hrest
  | _ => exact .error _

theorem has_pushOnto {more : List Value} (hmore : ∀ v ∈ more, P v) {v : Value} (hv : P v) :
    (Builtin.pushOnto more v).Has P := by
  cases v with
  | array id elements =>
      refine .inr fun id' => (hP.array_iff id' _).mpr ?_
      exact List.forall_mem_append.mpr ⟨(hP.array_iff id elements).mp hv, hmore⟩
  | _ => exact .error _

theorem has_apply (b : Builtin) {arguments : List Value}
    (hlen : b = .len → (Builtin.ofOne Builtin.lenOf arguments).Has P)
    (h : ∀ v ∈ arguments, P v) : (b.apply arguments).Has P := by
  cases b with
  | len => exact hlen rfl
  | first => exact Pervasive.has_ofOne (fun _ hv => hP.has_firstOf hv) h
  | last => exact Pervasive.has_ofOne (fun _ hv => hP.has_lastOf hv) h
  | rest => exact Pervasive.has_ofOne (fun _ hv => hP.has_restOf hv) h
  | push =>
      cases arguments with
      | nil => exact .error _
      | cons v more =>
          obtain ⟨hv, hmore⟩ := List.forall_mem_cons.mp h
          exact hP.has_pushOnto hmore hv

end Composite

namespace Pervasive

variable {P : Value → Prop} (hP : Pervasive P)
include hP

theorem has_integer (n : Int) : (Draft.integer n).Has P := .inr fun id => hP.integer id n

theorem has_lenOf (v : Value) : (Builtin.lenOf v).Has P := by
  cases v <;> first | exact hP.has_integer _ | exact .error _

theorem has_apply (b : Builtin) {arguments : List Value} (h : ∀ v ∈ arguments, P v) :
    (b.apply arguments).Has P :=
  hP.toComposite.has_apply b (fun _ => has_ofOne (fun v _ => hP.has_lenOf v) h) h

end Pervasive

/-! ## Stores -/

namespace Store

variable {P : Value → Prop} {s : Store}

/-- All values that a store binds have a property. -/
def All (P : Value → Prop) (s : Store) : Prop :=
  ∀ sc ∈ s.scopes, ∀ b ∈ sc.bindings, P b.2

theorem all_empty : Store.empty.All P := fun _ hsc => nomatch hsc

theorem All.make (h : s.All P) (d : Draft) : (s.make d).2.All P := by
  unfold All
  rw [scopes_make]
  exact h

theorem All.openScope (h : s.All P) (outer : Option ScopeId) : (s.openScope outer).2.All P := by
  intro sc hsc
  rcases Array.mem_push.mp hsc with hsc | rfl
  · exact h sc hsc
  · exact fun _ hb => nomatch hb

theorem forall_mem_bindIn {name : String} {v : Value} {bs : List (String × Value)} (hv : P v)
    (h : ∀ b ∈ bs, P b.2) : ∀ b ∈ bindIn name v bs, P b.2 := by
  induction bs with
  | nil => exact List.forall_mem_singleton.mpr hv
  | cons b bs ih =>
      obtain ⟨hb, hbs⟩ := List.forall_mem_cons.mp h
      unfold bindIn
      split
      · exact List.forall_mem_cons.mpr ⟨hv, hbs⟩
      · exact List.forall_mem_cons.mpr ⟨hb, ih hbs⟩

theorem All.bind (h : s.All P) (scope : ScopeId) (name : String) {v : Value} (hv : P v) :
    (s.bind scope name v).All P := by
  intro sc hsc
  obtain ⟨i, hi⟩ := Array.mem_iff_getElem?.mp hsc
  rw [Store.bind, Array.getElem?_modify] at hi
  split at hi
  · obtain ⟨old, hold, rfl⟩ := Option.map_eq_some_iff.mp hi
    exact forall_mem_bindIn hv (h old (Array.mem_of_getElem? hold))
  · exact h sc (Array.mem_of_getElem? hi)

theorem All.bindAll (h : s.All P) (scope : ScopeId) (names : List String) {vs : List Value}
    (hvs : ∀ v ∈ vs, P v) : (s.bindAll scope names vs).All P := by
  induction names generalizing s vs with
  | nil => exact h
  | cons name names ih =>
      cases vs with
      | nil => exact h
      | cons v vs =>
          obtain ⟨hv, hvs⟩ := List.forall_mem_cons.mp hvs
          exact ih (h.bind scope name hv) hvs

theorem mem_of_own? {sc : Scope} {name : String} {v : Value} (hv : sc.own? name = some v) :
    (name, v) ∈ sc.bindings := by
  obtain ⟨before, after, hbindings, -⟩ := List.lookup_eq_some_iff.mp hv
  exact hbindings ▸ List.mem_append_right before List.mem_cons_self

/-- What is found from a scope is bound in a scope of the range that outward links do not leave. -/
theorem exists_own?_of_find? {R : ScopeId → Prop}
    (houter : ∀ i sc, R i → s.scopes[i]? = some sc → ∀ o, sc.outer = some o → R o)
    {scope : ScopeId} (hscope : R scope) {name : String} {v : Value}
    (hv : s.find? scope name = some v) :
    ∃ i sc, R i ∧ s.scopes[i]? = some sc ∧ sc.own? name = some v := by
  unfold Store.find? at hv
  generalize scope + 1 = count at hv
  induction count generalizing scope with
  | zero => exact nomatch hv
  | succ n ih =>
      unfold findWithin at hv
      split at hv
      · exact nomatch hv
      · rename_i sc hsc
        split at hv
        · rename_i hown
          cases hv
          exact ⟨scope, sc, hscope, hsc, hown⟩
        · rename_i ho
          exact ih (houter scope sc hscope hsc _ ho) hv
        · exact nomatch hv

theorem All.find? (h : s.All P) {scope : ScopeId} {name : String} {v : Value}
    (hv : s.find? scope name = some v) : P v := by
  obtain ⟨_, sc, -, hsc, hown⟩ :=
    exists_own?_of_find? (R := fun _ => True) (fun _ _ _ _ _ _ => trivial) trivial hv
  exact h sc (Array.mem_of_getElem? hsc) _ (mem_of_own? hown)

/-- What a name stands for: a value of the store, or a built-in function. -/
theorem All.valueOf (hbuiltin : ∀ b, P (.builtin b)) (h : s.All P) (scope : ScopeId)
    (name : String) : (s.valueOf scope name).Has P := by
  unfold Store.valueOf
  split
  · rename_i hv
    exact .inr fun _ => h.find? hv
  · split
    · exact .inr fun _ => hbuiltin _
    · exact .error _

end Store

end MonkeyLang
