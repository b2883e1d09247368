import MonkeyLang.Proofs.Marks
import MonkeyLang.Proofs.Relabeling
import MonkeyLang.Proofs.ScopeFrame

/-!
# Values with other marks

A function value keeps its body, and with it the marks of the tree that it comes
from. `mapMarks` changes these marks and nothing else of a value, a store or an
outcome. Other marks are other labels (`Value.mapMarks_eq`), so the operations of the
language commute with changing them.
-/

namespace MonkeyLang

/-! ## Changing marks -/

mutual

/-- A value with other marks in the bodies of its functions. -/
def Value.mapMarks (f : Mark → Mark) : Value → Value
  | .integer id n => .integer id n
  | .boolean b => .boolean b
  | .string id text => .string id text
  | .null => .null
  | .array id elements => .array id (mapMarksAll f elements)
  | .hash id entries => .hash id (mapMarksEntries f entries)
  | .function i parameters body scope =>
    .function i (parameters.map (Name.map f)) (body.map f id) scope
  | .builtin b => .builtin b
  | .returned id v => .returned id (v.mapMarks f)
  | .error id e => .error id e

def mapMarksAll (f : Mark → Mark) : List Value → List Value
  | [] => []
  | v :: vs => v.mapMarks f :: mapMarksAll f vs

def mapMarksEntries (f : Mark → Mark) : List (Value × Value) → List (Value × Value)
  | [] => []
  | (k, v) :: es => (k.mapMarks f, v.mapMarks f) :: mapMarksEntries f es

end

def Draft.mapMarks (f : Mark → Mark) : Draft → Draft
  | .existing v => .existing (v.mapMarks f)
  | .integer n => .integer n
  | .string text => .string text
  | .array elements => .array (mapMarksAll f elements)
  | .hash entries => .hash (mapMarksEntries f entries)
  | .function parameters body scope => .function (parameters.map (Name.map f)) (body.map f id) scope
  | .returned v => .returned (v.mapMarks f)
  | .error e => .error e

def mapMarksBindings (f : Mark → Mark) (bs : List (String × Value)) : List (String × Value) :=
  bs.map fun b => (b.1, b.2.mapMarks f)

def Scope.mapMarks (f : Mark → Mark) (sc : Scope) : Scope :=
  { sc with bindings := mapMarksBindings f sc.bindings }

def Store.mapMarks (f : Mark → Mark) (s : Store) : Store :=
  { s with scopes := s.scopes.map (·.mapMarks f) }

def Fault.mapMarks (f : Mark → Mark) : Fault → Fault
  | .noRule kind mark => .noRule kind (f mark)

/-- An outcome with other marks, where `g` changes those of the answer. -/
def Outcome.mapMarks {α : Type} (f : Mark → Mark) (g : α → α) : Outcome α → Outcome α
  | .done a s => .done (g a) (s.mapMarks f)
  | .fault (t := s) e => .fault (t := s.mapMarks f) (e.mapMarks f)
  | .exhausted (t := s) => .exhausted (t := s.mapMarks f)

/-! ## Other marks as other labels -/

section Values

variable (f : Mark → Mark)

/-- Other marks in the code of functions. All objects and scopes keep their numbers. -/
def otherMarks : Relabeling where
  names := List.map (Name.map f)
  body b := b.map f id
  object := id
  scope := id
  object_injective := Function.injective_id

mutual

theorem Value.mapMarks_eq : ∀ v : Value, v.mapMarks f = v.relabel (otherMarks f)
  | .integer _ _ | .boolean _ | .string _ _ | .null | .builtin _ | .error _ _
  | .function _ _ _ _ => rfl
  | .array id elements => congrArg (Value.array id) (mapMarksAll_eq elements)
  | .hash id entries => congrArg (Value.hash id) (mapMarksEntries_eq entries)
  | .returned id v => congrArg (Value.returned id) v.mapMarks_eq

theorem mapMarksAll_eq : ∀ vs : List Value, mapMarksAll f vs = relabelAll (otherMarks f) vs
  | [] => rfl
  | v :: vs => congrArg₂ List.cons v.mapMarks_eq (mapMarksAll_eq vs)

theorem mapMarksEntries_eq : ∀ es : Entries,
    mapMarksEntries f es = relabelEntries (otherMarks f) es
  | [] => rfl
  | (k, v) :: es =>
      congrArg₂ List.cons (congrArg₂ Prod.mk k.mapMarks_eq v.mapMarks_eq) (mapMarksEntries_eq es)

end

theorem Draft.mapMarks_eq (d : Draft) : d.mapMarks f = d.relabel (otherMarks f) := by
  cases d <;> simp only [mapMarks, relabel, Value.mapMarks_eq, mapMarksAll_eq, mapMarksEntries_eq]
  rfl

theorem mapMarksBindings_eq (bs : List (String × Value)) :
    mapMarksBindings f bs = relabelBindings (otherMarks f) bs := by
  simp only [mapMarksBindings, relabelBindings, Value.mapMarks_eq]

theorem map_mapMarks_eq (o : Option Value) :
    o.map (·.mapMarks f) = o.map (·.relabel (otherMarks f)) := by
  simp only [Value.mapMarks_eq]

@[simp] theorem length_mapMarksAll (vs : List Value) :
    (mapMarksAll f vs).length = vs.length := by
  rw [mapMarksAll_eq, length_relabelAll]

namespace Value

@[simp] theorem type_mapMarks (v : Value) : (v.mapMarks f).type = v.type := by
  rw [mapMarks_eq, type_relabel]

@[simp] theorem isError_mapMarks (v : Value) : (v.mapMarks f).isError = v.isError := by
  rw [mapMarks_eq, isError_relabel]

@[simp] theorem endsBlock_mapMarks (v : Value) : (v.mapMarks f).endsBlock = v.endsBlock := by
  rw [mapMarks_eq, endsBlock_relabel]

@[simp] theorem isTruthy_mapMarks (v : Value) : (v.mapMarks f).isTruthy = v.isTruthy := by
  rw [mapMarks_eq, isTruthy_relabel]

@[simp] theorem hashKey?_mapMarks (v : Value) : (v.mapMarks f).hashKey? = v.hashKey? := by
  rw [mapMarks_eq, hashKey?_relabel]

theorem unwrapped_mapMarks (v : Value) : (v.mapMarks f).unwrapped = v.unwrapped.mapMarks f := by
  rw [mapMarks_eq, mapMarks_eq, unwrapped_relabel]

theorem getD_mapMarks (o : Option Value) :
    (o.map (·.mapMarks f)).getD .null = (o.getD .null).mapMarks f := by
  rw [map_mapMarks_eq, mapMarks_eq, getD_relabel]

/-! ## Operations -/

theorem prefixOp_mapMarks (operator : String) (right : Value) :
    (right.mapMarks f).prefixOp operator = (right.prefixOp operator).mapMarks f := by
  rw [mapMarks_eq, Draft.mapMarks_eq, prefixOp_relabel]

theorem infixOp_mapMarks (operator : String) (left right : Value) :
    (left.mapMarks f).infixOp operator (right.mapMarks f) =
      (left.infixOp operator right).mapMarks f := by
  rw [left.mapMarks_eq, right.mapMarks_eq, Draft.mapMarks_eq, infixOp_relabel]

theorem insert_mapMarks (key value : Value) (entries : Entries) :
    Entries.insert (key.mapMarks f) (value.mapMarks f) (mapMarksEntries f entries) =
      mapMarksEntries f (Entries.insert key value entries) := by
  rw [key.mapMarks_eq, value.mapMarks_eq, mapMarksEntries_eq, mapMarksEntries_eq, insert_relabel]

theorem indexOp_mapMarks (left index : Value) :
    (left.mapMarks f).indexOp (index.mapMarks f) = (left.indexOp index).mapMarks f := by
  rw [left.mapMarks_eq, index.mapMarks_eq, Draft.mapMarks_eq, indexOp_relabel]

end Value

theorem apply_mapMarks (b : Builtin) (arguments : List Value) :
    b.apply (mapMarksAll f arguments) = (b.apply arguments).mapMarks f := by
  rw [mapMarksAll_eq, Draft.mapMarks_eq, builtin_relabel]

/-! ## Stores -/

namespace Store

theorem make_mapMarks (s : Store) (d : Draft) :
    (s.mapMarks f).make (d.mapMarks f) = ((s.make d).1.mapMarks f, (s.make d).2.mapMarks f) := by
  cases d <;> rfl

theorem openScope_mapMarks (s : Store) (outer : Option ScopeId) :
    (s.mapMarks f).openScope outer = ((s.openScope outer).1, (s.openScope outer).2.mapMarks f) := by
  simp [openScope, mapMarks, Scope.mapMarks, mapMarksBindings]

theorem bindIn_mapMarks (name : String) (v : Value) (bs : List (String × Value)) :
    bindIn name (v.mapMarks f) (mapMarksBindings f bs) = mapMarksBindings f (bindIn name v bs) := by
  rw [v.mapMarks_eq, mapMarksBindings_eq, mapMarksBindings_eq, bindIn_relabel]

theorem bind_mapMarks (s : Store) (scope : ScopeId) (name : String) (v : Value) :
    (s.mapMarks f).bind scope name (v.mapMarks f) = (s.bind scope name v).mapMarks f := by
  refine congrArg (Store.mk · s.nextId) (Array.ext_getElem? fun i => ?_)
  rw [mapMarks, Array.getElem?_modify, Array.getElem?_map, Array.getElem?_map, bind,
    Array.getElem?_modify]
  split
  · rw [Option.map_map, Option.map_map]
    refine congrArg (Option.map · s.scopes[i]?) (funext fun sc => ?_)
    exact congrArg (Scope.mk · sc.outer) (bindIn_mapMarks f name v sc.bindings)
  · rfl

theorem bindAll_mapMarks (scope : ScopeId) : ∀ (names : List String) (vs : List Value) (s : Store),
    (s.mapMarks f).bindAll scope names (mapMarksAll f vs) =
      (s.bindAll scope names vs).mapMarks f
  | [], _, _ => rfl
  | _ :: _, [], _ => rfl
  | name :: names, v :: vs, s => by
      rw [mapMarksAll, bindAll, bindAll, bind_mapMarks]
      exact bindAll_mapMarks scope names vs _

theorem own?_mapMarks (sc : Scope) (name : String) :
    (sc.mapMarks f).own? name = (sc.own? name).map (·.mapMarks f) := by
  rw [map_mapMarks_eq, ← own?_relabel]
  exact congrArg (·.lookup name) (mapMarksBindings_eq f sc.bindings)

theorem findWithin_mapMarks (s : Store) (name : String) : ∀ count scope,
    (s.mapMarks f).findWithin count scope name =
      (s.findWithin count scope name).map (·.mapMarks f)
  | 0, _ => rfl
  | n + 1, scope => by
      unfold findWithin
      rw [mapMarks, Array.getElem?_map]
      cases s.scopes[scope]? with
      | none => rfl
      | some sc =>
          simp only [Option.map_some, own?_mapMarks]
          cases sc.own? name with
          | some v => rfl
          | none =>
              obtain ⟨bs, _ | outer⟩ := sc
              · rfl
              · exact findWithin_mapMarks s name n outer

theorem valueOf_mapMarks (s : Store) (scope : ScopeId) (name : String) :
    (s.mapMarks f).valueOf scope name = (s.valueOf scope name).mapMarks f := by
  unfold valueOf find?
  rw [findWithin_mapMarks]
  cases s.findWithin (scope + 1) scope name with
  | some v => rfl
  | none => cases Builtin.ofName? name <;> rfl

end Store

end Values

end MonkeyLang
