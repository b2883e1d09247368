import MonkeyLang.Syntax.Basic

/-!
# Values

The values that programs compute. Arrays, hashes and the other values that a program creates are
objects with an identity of their own; the two booleans, null and the built-in functions exist
once. Values never change, so an object is its identity and its content.

Two kinds of value direct the evaluation: the operand of a `return` on its way out, and a run-time
error. Both can also be met as ordinary operands.
-/

namespace MonkeyLang

/-! ## Types -/

inductive TypeTag
  | integer | boolean | string | null | array | hash | function | builtin | returned | error
deriving DecidableEq, Repr

def TypeTag.name : TypeTag → String
  | integer => "INTEGER"
  | boolean => "BOOLEAN"
  | string => "STRING"
  | null => "NULL"
  | array => "ARRAY"
  | hash => "HASH"
  | function => "FUNCTION"
  | builtin => "BUILTIN"
  | returned => "RETURN_VALUE"
  | error => "ERROR"

/-! ## Built-in functions -/

inductive Builtin
  | len | first | last | rest | push
deriving DecidableEq, Repr

namespace Builtin

/-- The name that a program calls a built-in function by. -/
def name : Builtin → String
  | len => "len"
  | first => "first"
  | last => "last"
  | rest => "rest"
  | push => "push"

def ofName? : String → Option Builtin
  | "len" => some len
  | "first" => some first
  | "last" => some last
  | "rest" => some rest
  | "push" => some push
  | _ => none

end Builtin

/-! ## Run-time errors -/

/-- What goes wrong in a run. -/
inductive RuntimeError
  /-- A name is bound in no scope and names no built-in function. -/
  | unboundName (name : String)
  /-- A prefix operator is not defined on a type. -/
  | unknownPrefix (operator : String) (right : TypeTag)
  /-- An infix operator is not defined on a pair of types. -/
  | unknownInfix (left : TypeTag) (operator : String) (right : TypeTag)
  /-- The operands of an infix operator have different types. -/
  | typeMismatch (left : TypeTag) (operator : String) (right : TypeTag)
  | divisionByZero
  /-- A function is called with too many or too few arguments. -/
  | argumentCount (wanted found : Nat)
  /-- A built-in function of one argument is called with more or with none. -/
  | wantsOneArgument (found : Nat)
  /-- A built-in function of at least one argument is called with none. -/
  | wantsArguments
  /-- The argument has no length. -/
  | noLength (found : TypeTag)
  /-- The first argument of a built-in function on arrays is no array. -/
  | wantsArray (builtin : Builtin) (found : TypeTag)
  | notFunction (found : TypeTag)
  | unusableKey (found : TypeTag)
  | notIndexable (found : TypeTag)
  /-- An error that was made by hand. -/
  | custom (message : String)
deriving DecidableEq, Repr

def RuntimeError.message : RuntimeError → String
  | unboundName name => "identifier not found: " ++ name
  | unknownPrefix operator right => "unknown operator: " ++ operator ++ right.name
  | unknownInfix left operator right =>
    "unknown operator: " ++ left.name ++ " " ++ operator ++ " " ++ right.name
  | typeMismatch left operator right =>
    "type mismatch: " ++ left.name ++ " " ++ operator ++ " " ++ right.name
  | divisionByZero =>
    "division by zero: " ++ TypeTag.integer.name ++ " / " ++ TypeTag.integer.name
  | argumentCount wanted found =>
    "wrong number of arguments: want=" ++ toString wanted ++ ", got=" ++ toString found
  | wantsOneArgument found =>
    "wrong number of arguments. got=" ++ toString found ++ ", want=1"
  | wantsArguments => "wrong number of arguments. got=0, want=at least 1"
  | noLength found => "argument to `len` not supported, got " ++ found.name
  | wantsArray builtin found =>
    "argument to `" ++ builtin.name ++ "` must be " ++ TypeTag.array.name ++ ", got " ++ found.name
  | notFunction found => "not a function: " ++ found.name
  | unusableKey found => "unusable as hash key: " ++ found.name
  | notIndexable found => "index operator not supported: " ++ found.name
  | custom message => message

/-! ## Values -/

abbrev ObjectId := Nat

abbrev ScopeId := Nat

/-- A value. The entries of a hash stand in the order in which their keys were first written. -/
inductive Value
  | integer (id : ObjectId) (value : Int)
  | boolean (value : Bool)
  | string (id : ObjectId) (text : String)
  | null
  | array (id : ObjectId) (elements : List Value)
  | hash (id : ObjectId) (entries : List (Value × Value))
  | function (id : ObjectId) (parameters : List Name) (body : Block) (scope : ScopeId)
  | builtin (builtin : Builtin)
  | returned (id : ObjectId) (value : Value)
  | error (id : ObjectId) (error : RuntimeError)
deriving Inhabited

/-- What tells a value from all others: the identity of an object, or which of the values it is
that exist once. -/
inductive Identity
  | object (id : ObjectId)
  | boolean (value : Bool)
  | null
  | builtin (builtin : Builtin)
deriving DecidableEq, Repr

namespace Value

def type : Value → TypeTag
  | integer .. => .integer
  | boolean _ => .boolean
  | string .. => .string
  | null => .null
  | array .. => .array
  | hash .. => .hash
  | function .. => .function
  | builtin _ => .builtin
  | returned .. => .returned
  | error .. => .error

theorem exists_of_type_eq_returned {v : Value} (h : v.type = .returned) :
    ∃ id w, v = .returned id w := by
  cases v with
  | returned id w => exact ⟨id, w, rfl⟩
  | _ => cases h

def identity : Value → Identity
  | integer id _ | string id _ | array id _ | hash id _ | function id _ _ _ | returned id _
  | error id _ => .object id
  | boolean value => .boolean value
  | null => .null
  | builtin b => .builtin b

/-- Two values are one. -/
def identical (v w : Value) : Bool :=
  v.identity == w.identity

def isError : Value → Bool
  | error .. => true
  | _ => false

/-- The value ends the block that a statement with this value stands in. -/
def endsBlock : Value → Bool
  | returned .. | error .. => true
  | _ => false

/-- The value itself, or what is returned. One level is removed, not all. -/
def unwrapped : Value → Value
  | returned _ value => value
  | value => value

/-- Null and false do not count as true, an integer only if it is positive; all else does. -/
def isTruthy : Value → Bool
  | null => false
  | boolean value => value
  | integer _ value => 0 < value
  | _ => true

end Value

/-! ## Drafts -/

/-- What an operation yields: a value that exists already, or the content of a new object, which
is still to be given its identity. -/
inductive Draft
  | existing (value : Value)
  | integer (value : Int)
  | string (text : String)
  | array (elements : List Value)
  | hash (entries : List (Value × Value))
  | function (parameters : List Name) (body : Block) (scope : ScopeId)
  | returned (value : Value)
  | error (error : RuntimeError)

namespace Draft

def boolean (value : Bool) : Draft :=
  existing (.boolean value)

def null : Draft :=
  existing .null

/-- The draft makes a new object. -/
def isNew : Draft → Bool
  | existing _ => false
  | _ => true

/-- The value of a draft; a new object gets the given identity. -/
def value (id : ObjectId) : Draft → Value
  | existing v => v
  | integer n => .integer id n
  | string t => .string id t
  | array vs => .array id vs
  | hash es => .hash id es
  | function ps body scope => .function id ps body scope
  | returned v => .returned id v
  | error e => .error id e

end Draft

end MonkeyLang
