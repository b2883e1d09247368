import MonkeyLang.Value.Key

/-!
# Operators

What the prefix and infix operators and the index operator yield for values that have been computed
already. Integers are signed numbers of 64 bits: results wrap around, and division goes toward
zero. Equality compares integers and strings by their content and all else by identity.
-/

namespace MonkeyLang

/-! ## Integers -/

/-- The number between -2^63 and 2^63 - 1 that differs from a given one by a multiple of 2^64. -/
def wrap (n : Int) : Int :=
  n.bmod 0x10000000000000000

/-! ## Prefix operators -/

namespace Value

/-- Whether a value counts as false: what the operator `!` answers. -/
def isFalsy : Value → Bool
  | boolean value => !value
  | null => true
  | integer _ value => !(0 < value)
  | _ => false

def prefixOp (operator : String) (right : Value) : Draft :=
  match operator with
  | "!" => .boolean right.isFalsy
  | "-" =>
    match right with
    | integer _ n => .integer (wrap (-n))
    | _ => .error (.unknownPrefix "-" right.type)
  | _ => .error (.unknownPrefix operator right.type)

/-! ## Infix operators -/

/-- An infix operator between two integers. -/
def integerOp (operator : String) (m n : Int) : Draft :=
  match operator with
  | "+" => .integer (wrap (m + n))
  | "-" => .integer (wrap (m - n))
  | "*" => .integer (wrap (m * n))
  | "/" => if n = 0 then .error .divisionByZero else .integer (wrap (m.tdiv n))
  | "<" => .boolean (m < n)
  | ">" => .boolean (n < m)
  | "==" => .boolean (m == n)
  | "!=" => .boolean (m != n)
  | _ => .error (.unknownInfix .integer operator .integer)

/-- An infix operator between two strings. -/
def stringOp (operator : String) (s t : String) : Draft :=
  match operator with
  | "+" => .string (s ++ t)
  | "==" => .boolean (s == t)
  | "!=" => .boolean (s != t)
  | _ => .error (.unknownInfix .string operator .string)

/-- An infix operator between two values that are neither both integers nor both strings. -/
def mixedOp (operator : String) (left right : Value) : Draft :=
  match operator with
  | "==" => .boolean (left.identical right)
  | "!=" => .boolean (!left.identical right)
  | _ =>
    if left.type = right.type then .error (.unknownInfix left.type operator right.type)
    else .error (.typeMismatch left.type operator right.type)

def infixOp (operator : String) (left right : Value) : Draft :=
  match left, right with
  | integer _ m, integer _ n => integerOp operator m n
  | string _ s, string _ t => stringOp operator s t
  | _, _ => mixedOp operator left right

/-! ## Indexing -/

/-- The element of an array at an index; null where there is none. -/
def elementAt (elements : List Value) (index : Int) : Value :=
  if index < 0 then null else (elements[index.toNat]?).getD null

/-- A value indexed by another. -/
def indexOp (left index : Value) : Draft :=
  match left, index with
  | array _ elements, integer _ i => .existing (elementAt elements i)
  | hash _ entries, _ =>
    match index.hashKey? with
    | some key => .existing ((Entries.find? key entries).getD null)
    | none => .error (.unusableKey index.type)
  | _, _ => .error (.notIndexable left.type)

end Value

end MonkeyLang
