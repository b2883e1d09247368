import MonkeyLang.Fnv
import MonkeyLang.Text.Utf8
import MonkeyLang.Value.Basic

/-!
# Hash keys

Integers, booleans and strings can be keys of a hash. A hash knows a key only by its hash key: its
type, and a number, which for a string is the hash of its bytes. Two strings with one hash are one
key.
-/

namespace MonkeyLang

/-- What a hash knows a key by. -/
inductive HashKey
  | integer (value : Int)
  | boolean (value : Bool)
  | string (hash : UInt64)
deriving DecidableEq, Repr

namespace HashKey

def type : HashKey → TypeTag
  | integer _ => .integer
  | boolean _ => .boolean
  | string _ => .string

def number : HashKey → Int
  | integer value => value
  | boolean value => if value then 1 else 0
  | string hash => hash.toNat

end HashKey

/-- The hash key of a value, if it can be a key. -/
def Value.hashKey? : Value → Option HashKey
  | .integer _ value => some (.integer value)
  | .boolean value => some (.boolean value)
  | .string _ text => some (.string (Fnv.hash (Utf8.encode text.toList)))
  | _ => none

/-- The entries of a hash: keys with their values. -/
abbrev Entries := List (Value × Value)

namespace Entries

/-- Writes an entry. A key with the same hash key keeps its place, and key and value are both
replaced; any other key comes last. -/
def insert (key value : Value) : Entries → Entries
  | [] => [(key, value)]
  | entry :: entries =>
    if entry.1.hashKey? = key.hashKey? then (key, value) :: entries
    else entry :: insert key value entries

/-- The value of the entry with a given hash key. -/
def find? (key : HashKey) : Entries → Option Value
  | [] => none
  | entry :: entries =>
    if entry.1.hashKey? = some key then some entry.2 else find? key entries

end Entries

end MonkeyLang
