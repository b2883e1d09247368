import Mathlib.Logic.Function.Basic
import MonkeyLang.Eval
import MonkeyLang.Value.Inspect

/-!
# Values under other labels

The operations of the language compute with the content of values. They do not look into the
code of functions, and of the identities of objects they only ask whether two are the same.
So each of them commutes with giving values other labels: other code for functions and other
numbers for objects and scopes, as long as different objects keep different numbers.
-/

namespace MonkeyLang

/-! ## Other labels -/

/-- Other labels for values: what becomes of the code of functions and of the numbers of
objects and scopes. Objects stay apart. -/
structure Relabeling where
  names : List Name → List Name
  body : Block → Block
  object : ObjectId → ObjectId
  scope : ScopeId → ScopeId
  object_injective : Function.Injective object

mutual

/-- A value under other labels. -/
def Value.relabel (r : Relabeling) : Value → Value
  | .integer i n => .integer (r.object i) n
  | .boolean b => .boolean b
  | .string i text => .string (r.object i) text
  | .null => .null
  | .array i elements => .array (r.object i) (relabelAll r elements)
  | .hash i entries => .hash (r.object i) (relabelEntries r entries)
  | .function i parameters body scope =>
    .function (r.object i) (r.names parameters) (r.body body) (r.scope scope)
  | .builtin b => .builtin b
  | .returned i v => .returned (r.object i) (v.relabel r)
  | .error i e => .error (r.object i) e

def relabelAll (r : Relabeling) : List Value → List Value
  | [] => []
  | v :: vs => v.relabel r :: relabelAll r vs

def relabelEntries (r : Relabeling) : Entries → Entries
  | [] => []
  | (k, v) :: es => (k.relabel r, v.relabel r) :: relabelEntries r es

end

def Draft.relabel (r : Relabeling) : Draft → Draft
  | .existing v => .existing (v.relabel r)
  | .integer n => .integer n
  | .string text => .string text
  | .array elements => .array (relabelAll r elements)
  | .hash entries => .hash (relabelEntries r entries)
  | .function parameters body scope => .function (r.names parameters) (r.body body) (r.scope scope)
  | .returned v => .returned (v.relabel r)
  | .error e => .error e

def relabelBindings (r : Relabeling) (bs : List (String × Value)) : List (String × Value) :=
  bs.map fun b => (b.1, b.2.relabel r)

def Scope.relabel (r : Relabeling) (sc : Scope) : Scope :=
  ⟨relabelBindings r sc.bindings, sc.outer.map r.scope⟩

/-- The other code of functions has the same text. -/
structure Relabeling.KeepsText (r : Relabeling) : Prop where
  names : ∀ parameters, (r.names parameters).map Name.value = parameters.map Name.value
  body : ∀ b, (r.body b).render = b.render

/-! ## Values -/

section Values

variable (r : Relabeling)

theorem relabelAll_eq_map (vs : List Value) : relabelAll r vs = vs.map (·.relabel r) := by
  induction vs with
  | nil => rfl
  | cons v vs ih => rw [relabelAll, ih, List.map_cons]

theorem relabelAll_append (vs ws : List Value) :
    relabelAll r (vs ++ ws) = relabelAll r vs ++ relabelAll r ws := by
  rw [relabelAll_eq_map, relabelAll_eq_map, relabelAll_eq_map, List.map_append]

theorem relabelEntries_eq_map (es : Entries) :
    relabelEntries r es = es.map (Prod.map (·.relabel r) (·.relabel r)) := by
  induction es with
  | nil => rfl
  | cons e es ih => rw [relabelEntries, ih, List.map_cons, Prod.map]

@[simp] theorem length_relabelAll (vs : List Value) : (relabelAll r vs).length = vs.length := by
  rw [relabelAll_eq_map, List.length_map]

namespace Value

@[simp] theorem type_relabel (v : Value) : (v.relabel r).type = v.type := by
  cases v <;> rfl

/-- Values are one exactly if they are one under other labels. -/
@[simp] theorem identical_relabel (v w : Value) :
    (v.relabel r).identical (w.relabel r) = v.identical w := by
  have hobject : ∀ i j, (Identity.object (r.object i) == Identity.object (r.object j)) =
      (Identity.object i == Identity.object j) := fun i j => by
    rw [Bool.eq_iff_iff, beq_iff_eq, beq_iff_eq, Identity.object.injEq, Identity.object.injEq]
    exact r.object_injective.eq_iff
  cases v <;> cases w <;> first | exact hobject _ _ | rfl

@[simp] theorem isError_relabel (v : Value) : (v.relabel r).isError = v.isError := by
  cases v <;> rfl

@[simp] theorem endsBlock_relabel (v : Value) : (v.relabel r).endsBlock = v.endsBlock := by
  cases v <;> rfl

@[simp] theorem isTruthy_relabel (v : Value) : (v.relabel r).isTruthy = v.isTruthy := by
  cases v <;> rfl

@[simp] theorem isFalsy_relabel (v : Value) : (v.relabel r).isFalsy = v.isFalsy := by
  cases v <;> rfl

@[simp] theorem hashKey?_relabel (v : Value) : (v.relabel r).hashKey? = v.hashKey? := by
  cases v <;> rfl

theorem unwrapped_relabel (v : Value) : (v.relabel r).unwrapped = v.unwrapped.relabel r := by
  cases v <;> rfl

theorem getD_relabel (o : Option Value) :
    (o.map (·.relabel r)).getD .null = (o.getD .null).relabel r := by
  cases o <;> rfl

/-! ## Texts -/

section Texts

variable {r}

mutual

theorem inspect_relabel (hr : r.KeepsText) : ∀ v : Value, (v.relabel r).inspect = v.inspect
  | .integer _ _ | .boolean _ | .string _ _ | .null | .builtin _ | .error _ _ => rfl
  | .array _ elements => by simp only [relabel, inspect, inspectAll_relabel hr elements]
  | .hash _ entries => by simp only [relabel, inspect, inspectEntries_relabel hr entries]
  | .function _ parameters body _ => by
      simp only [relabel, inspect, hr.names parameters, hr.body body]
  | .returned _ v => v.inspect_relabel hr

theorem inspectAll_relabel (hr : r.KeepsText) : ∀ vs,
    inspectAll (relabelAll r vs) = inspectAll vs
  | [] => rfl
  | v :: vs => by simp only [relabelAll, inspectAll, v.inspect_relabel hr, inspectAll_relabel hr vs]

theorem inspectEntries_relabel (hr : r.KeepsText) : ∀ es,
    inspectEntries (relabelEntries r es) = inspectEntries es
  | [] => rfl
  | (k, v) :: es => by
      simp only [relabelEntries, inspectEntries, k.inspect_relabel hr, v.inspect_relabel hr,
        inspectEntries_relabel hr es]

end

end Texts

/-! ## Operators -/

theorem prefixOp_relabel (operator : String) (right : Value) :
    (right.relabel r).prefixOp operator = (right.prefixOp operator).relabel r := by
  unfold prefixOp
  split
  · rw [isFalsy_relabel]
    rfl
  · cases right <;> rfl
  · rw [type_relabel]
    rfl

theorem integerOp_relabel (operator : String) (m n : Int) :
    (integerOp operator m n).relabel r = integerOp operator m n := by
  unfold integerOp
  repeat' split
  all_goals rfl

theorem stringOp_relabel (operator : String) (s t : String) :
    (stringOp operator s t).relabel r = stringOp operator s t := by
  unfold stringOp
  split <;> rfl

theorem mixedOp_relabel (operator : String) (left right : Value) :
    mixedOp operator (left.relabel r) (right.relabel r) =
      (mixedOp operator left right).relabel r := by
  unfold mixedOp
  simp only [identical_relabel, type_relabel]
  split
  · rfl
  · rfl
  · split <;> rfl

theorem infixOp_relabel (operator : String) (left right : Value) :
    (left.relabel r).infixOp operator (right.relabel r) =
      (left.infixOp operator right).relabel r := by
  cases left
  case integer =>
    cases right
    case integer => exact (integerOp_relabel r operator _ _).symm
    all_goals exact mixedOp_relabel r operator (.integer _ _) _
  case string =>
    cases right
    case string => exact (stringOp_relabel r operator _ _).symm
    all_goals exact mixedOp_relabel r operator (.string _ _) _
  all_goals exact mixedOp_relabel r operator _ right

theorem elementAt_relabel (elements : List Value) (i : Int) :
    elementAt (relabelAll r elements) i = (elementAt elements i).relabel r := by
  unfold elementAt
  split
  · rfl
  · rw [relabelAll_eq_map, List.getElem?_map, getD_relabel]

theorem find?_relabel (key : HashKey) (entries : Entries) :
    Entries.find? key (relabelEntries r entries) =
      (Entries.find? key entries).map (·.relabel r) := by
  induction entries with
  | nil => rfl
  | cons e entries ih =>
      rw [relabelEntries, Entries.find?, Entries.find?, hashKey?_relabel, ih]
      split <;> rfl

theorem insert_relabel (key value : Value) (entries : Entries) :
    Entries.insert (key.relabel r) (value.relabel r) (relabelEntries r entries) =
      relabelEntries r (Entries.insert key value entries) := by
  induction entries with
  | nil => rfl
  | cons e entries ih =>
      rw [relabelEntries, Entries.insert, Entries.insert, hashKey?_relabel, hashKey?_relabel, ih]
      split <;> rfl

theorem indexOp_relabel (left index : Value) :
    (left.relabel r).indexOp (index.relabel r) = (left.indexOp index).relabel r := by
  cases left
  case array =>
    cases index
    case integer => exact congrArg Draft.existing (elementAt_relabel r _ _)
    all_goals rfl
  case hash id entries =>
    unfold indexOp
    simp only [relabel, hashKey?_relabel, type_relabel]
    split
    · rw [find?_relabel, getD_relabel]
      rfl
    · rfl
  all_goals rfl

end Value

/-! ## Built-in functions -/

theorem ofOne_relabel {g : Value → Draft} (hg : ∀ v, g (v.relabel r) = (g v).relabel r)
    (arguments : List Value) :
    Builtin.ofOne g (relabelAll r arguments) = (Builtin.ofOne g arguments).relabel r := by
  match arguments with
  | [] => rfl
  | [v] => exact hg v
  | _ :: _ :: _ =>
      exact congrArg (fun n => Draft.error (.wantsOneArgument n)) (by simp [relabelAll])

theorem lenOf_relabel (v : Value) :
    Builtin.lenOf (v.relabel r) = (Builtin.lenOf v).relabel r := by
  cases v <;> simp [Builtin.lenOf, Value.relabel, Draft.relabel, Value.type]

theorem firstOf_relabel (v : Value) :
    Builtin.firstOf (v.relabel r) = (Builtin.firstOf v).relabel r := by
  cases v
  case array =>
    simp only [Value.relabel, Builtin.firstOf, relabelAll_eq_map, List.head?_map,
      Value.getD_relabel, Draft.relabel]
  all_goals rfl

theorem lastOf_relabel (v : Value) :
    Builtin.lastOf (v.relabel r) = (Builtin.lastOf v).relabel r := by
  cases v
  case array =>
    simp only [Value.relabel, Builtin.lastOf, relabelAll_eq_map, List.getLast?_map,
      Value.getD_relabel, Draft.relabel]
  all_goals rfl

theorem restOf_relabel (v : Value) :
    Builtin.restOf (v.relabel r) = (Builtin.restOf v).relabel r := by
  cases v
  case array id elements => cases elements <;> rfl
  all_goals rfl

theorem pushOnto_relabel (more : List Value) (v : Value) :
    Builtin.pushOnto (relabelAll r more) (v.relabel r) = (Builtin.pushOnto more v).relabel r := by
  cases v
  case array => exact congrArg Draft.array (relabelAll_append r _ more).symm
  all_goals rfl

theorem builtin_relabel (b : Builtin) (arguments : List Value) :
    b.apply (relabelAll r arguments) = (b.apply arguments).relabel r := by
  cases b with
  | len => exact ofOne_relabel r (lenOf_relabel r) arguments
  | first => exact ofOne_relabel r (firstOf_relabel r) arguments
  | last => exact ofOne_relabel r (lastOf_relabel r) arguments
  | rest => exact ofOne_relabel r (restOf_relabel r) arguments
  | push =>
      cases arguments with
      | nil => rfl
      | cons v more => exact pushOnto_relabel r more v

/-! ## Drafts and scopes -/

theorem isNew_relabel (d : Draft) : (d.relabel r).isNew = d.isNew := by
  cases d <;> rfl

/-- The value of a draft under other labels. A new object gets the number that its old one
becomes. -/
theorem value_relabel (d : Draft) (i : ObjectId) :
    (d.relabel r).value (r.object i) = (d.value i).relabel r := by
  cases d <;> rfl

theorem bindIn_relabel (name : String) (v : Value) (bs : List (String × Value)) :
    bindIn name (v.relabel r) (relabelBindings r bs) = relabelBindings r (bindIn name v bs) := by
  induction bs with
  | nil => rfl
  | cons b bs ih =>
      have hcons : ∀ b bs, relabelBindings r (b :: bs) =
          (b.1, b.2.relabel r) :: relabelBindings r bs := fun _ _ => rfl
      rw [hcons, bindIn, bindIn, ih]
      split <;> rfl

theorem bind_relabel (sc : Scope) (name : String) (v : Value) :
    (sc.relabel r).bind name (v.relabel r) = (sc.bind name v).relabel r :=
  congrArg (Scope.mk · _) (bindIn_relabel r name v sc.bindings)

theorem own?_relabel (sc : Scope) (name : String) :
    (sc.relabel r).own? name = (sc.own? name).map (·.relabel r) := by
  obtain ⟨bs, outer⟩ := sc
  show (relabelBindings r bs).lookup name = (bs.lookup name).map (·.relabel r)
  induction bs with
  | nil => rfl
  | cons b bs ih =>
      rw [relabelBindings, List.map_cons, List.lookup_cons, List.lookup_cons]
      split
      · rfl
      · exact ih

end Values

end MonkeyLang
