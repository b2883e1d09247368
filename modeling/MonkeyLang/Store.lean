import MonkeyLang.Text.Quoted
import MonkeyLang.Value.Basic

/-!
# Scopes and stores

A scope binds names to values and lies inside another scope or in none. The store holds all scopes
of a run, in the order in which they were opened, and hands out the identities of objects. A name
is looked up in a scope and then, outward, in those that it lies in; it is bound in one scope only,
whatever the others hold.

A scope always lies inside one that was opened before it, so going outward ends.
-/

namespace MonkeyLang

/-! ## Scopes -/

/-- A scope: its own bindings and the scope that it lies in. -/
structure Scope where
  bindings : List (String × Value)
  outer : Option ScopeId

/-- Binds a name in a list of bindings; a name that is bound already keeps its place. -/
def bindIn (name : String) (value : Value) : List (String × Value) → List (String × Value)
  | [] => [(name, value)]
  | b :: bs => if b.1 = name then (name, value) :: bs else b :: bindIn name value bs

namespace Scope

def bind (sc : Scope) (name : String) (value : Value) : Scope :=
  { sc with bindings := bindIn name value sc.bindings }

def own? (sc : Scope) (name : String) : Option Value :=
  sc.bindings.lookup name

def names (sc : Scope) : List String :=
  (sc.bindings.map Prod.fst).mergeSort fun a b => !(b < a)

/-- The description of a scope: the names that it binds and whether it lies in another. -/
def describe (sc : Scope) : String :=
  "Environment(names=" ++ Text.quoteList sc.names ++ ", enclosed=" ++
    (if sc.outer.isSome then "True" else "False") ++ ")"

end Scope

/-! ## Stores -/

/-- All scopes of a run, and the identity of the next object. -/
structure Store where
  scopes : Array Scope
  nextId : ObjectId

namespace Store

def empty : Store :=
  ⟨#[], 0⟩

/-- Opens a scope inside another one, or in none. -/
def openScope (s : Store) (outer : Option ScopeId) : ScopeId × Store :=
  (s.scopes.size, { s with scopes := s.scopes.push ⟨[], outer⟩ })

def bind (s : Store) (scope : ScopeId) (name : String) (value : Value) : Store :=
  { s with scopes := s.scopes.modify scope (·.bind name value) }

def bindAll (s : Store) (scope : ScopeId) : List String → List Value → Store
  | name :: names, value :: values => (s.bind scope name value).bindAll scope names values
  | _, _ => s

/-- Looks a name up in a scope and then outward, through so many scopes at most. -/
def findWithin (s : Store) : (count : Nat) → ScopeId → String → Option Value
  | 0, _, _ => none
  | n + 1, scope, name =>
    match s.scopes[scope]? with
    | none => none
    | some sc =>
      match sc.own? name, sc.outer with
      | some value, _ => some value
      | none, some outer => s.findWithin n outer name
      | none, none => none

/-- Looks a name up in a scope and then outward. -/
def find? (s : Store) (scope : ScopeId) (name : String) : Option Value :=
  s.findWithin (scope + 1) scope name

/-- The value of a draft. A new object gets the next identity. -/
def make (s : Store) (d : Draft) : Value × Store :=
  (d.value s.nextId, if d.isNew then { s with nextId := s.nextId + 1 } else s)

def describeScope (s : Store) (scope : ScopeId) : String :=
  match s.scopes[scope]? with
  | some sc => sc.describe
  | none => ""

/-- The bindings of a scope in the order of their names. -/
def bindings (s : Store) (scope : ScopeId) : List (String × Value) :=
  match s.scopes[scope]? with
  | some sc => sc.names.filterMap fun name => (sc.own? name).map fun v => (name, v)
  | none => []

end Store

end MonkeyLang
