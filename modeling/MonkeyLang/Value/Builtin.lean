import MonkeyLang.Value.Basic

/-!
# Built-in functions

What the built-in functions yield for arguments that have been computed already. Each checks the
number and the types of its arguments. None changes an argument: `rest` and `push` make a new array.
-/

namespace MonkeyLang.Builtin

/-- The length of a string, in bytes, or of an array. -/
def lenOf : Value → Draft
  | .string _ text => .integer text.utf8ByteSize
  | .array _ elements => .integer elements.length
  | v => .error (.noLength v.type)

/-- The first element of an array; null if it is empty. -/
def firstOf : Value → Draft
  | .array _ elements => .existing (elements.head?.getD .null)
  | v => .error (.wantsArray first v.type)

/-- The last element of an array; null if it is empty. -/
def lastOf : Value → Draft
  | .array _ elements => .existing (elements.getLast?.getD .null)
  | v => .error (.wantsArray last v.type)

/-- A new array of all elements but the first; null if there is none. -/
def restOf : Value → Draft
  | .array _ [] => .null
  | .array _ (_ :: elements) => .array elements
  | v => .error (.wantsArray rest v.type)

/-- A new array with more elements at the end. -/
def pushOnto (more : List Value) : Value → Draft
  | .array _ elements => .array (elements ++ more)
  | v => .error (.wantsArray push v.type)

/-- A function of one argument applied to a list of arguments. -/
def ofOne (f : Value → Draft) : List Value → Draft
  | [v] => f v
  | arguments => .error (.wantsOneArgument arguments.length)

def apply : Builtin → List Value → Draft
  | len, arguments => ofOne lenOf arguments
  | first, arguments => ofOne firstOf arguments
  | last, arguments => ofOne lastOf arguments
  | rest, arguments => ofOne restOf arguments
  | push, [] => .error .wantsArguments
  | push, v :: more => pushOnto more v

end MonkeyLang.Builtin
