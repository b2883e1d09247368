import MonkeyLang.Syntax.Known
import MonkeyLang.Text.Quoted
import MonkeyLang.Value.Basic

/-!
# Showing values

The text of a value as a program's user sees it, and its description for diagnostics.
-/

namespace MonkeyLang

namespace Value

mutual

/-- The text of a value. Strings stand without quotes, also inside arrays and hashes. -/
def inspect : Value → String
  | .integer _ value => toString value
  | .boolean value => if value then "true" else "false"
  | .string _ text => text
  | .null => "null"
  | .array _ elements => "[" ++ ", ".intercalate (inspectAll elements) ++ "]"
  | .hash _ entries => "\x7b" ++ ", ".intercalate (inspectEntries entries) ++ "\x7d"
  | .function _ parameters body _ =>
    "fn(" ++ ", ".intercalate (parameters.map Name.value) ++ ") " ++ body.render
  | .builtin b => "builtin function " ++ b.name
  | .returned _ value => value.inspect
  | .error _ e => "[error]: " ++ e.message

def inspectAll : List Value → List String
  | [] => []
  | v :: vs => v.inspect :: inspectAll vs

def inspectEntries : List (Value × Value) → List String
  | [] => []
  | (key, value) :: entries => (key.inspect ++ ": " ++ value.inspect) :: inspectEntries entries

end

mutual

/-- A value has a text: no function in it has a body with a node of unknown kind. -/
def isKnown : Value → Bool
  | .array _ elements => elementsKnown elements
  | .hash _ entries => entriesKnown entries
  | .function _ _ body _ => body.isKnown
  | .returned _ value => value.isKnown
  | _ => true

def elementsKnown : List Value → Bool
  | [] => true
  | v :: vs => v.isKnown && elementsKnown vs

def entriesKnown : List (Value × Value) → Bool
  | [] => true
  | (key, value) :: entries => key.isKnown && value.isKnown && entriesKnown entries

end

def inspect? (v : Value) : Option String :=
  if v.isKnown then some v.inspect else none

/-- The title of a value's type in a description. -/
def title (v : Value) : String :=
  match v.type with
  | .integer => "Integer"
  | .boolean => "Boolean"
  | .string => "String"
  | .null => "Null"
  | .array => "Array"
  | .hash => "Hash"
  | .function => "Function"
  | .builtin => "Builtin"
  | .returned => "ReturnValue"
  | .error => "ErrorValue"

/-- The description of a value: the title of its type and its text between quotes. -/
def describe (v : Value) : String :=
  v.title ++ "(" ++ Text.quote v.inspect ++ ")"

end Value

end MonkeyLang
