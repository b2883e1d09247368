import MonkeyLang.Eval

/-!
# Operations that may refuse

The evaluation is made of operations that have an answer for all arguments. The host that carries
it out has others: it divides by no zero, it has no element outside of a list, no key of a value
that is not hashable, no scope that has not been opened and no rule for a node of unknown kind.
Asked for such a thing, it refuses (`Refusal`).

Here the operations of the language are carried out with those of the host, behind the tests that
the language makes first. The tests leave nothing to refuse: whatever the operands are, the answer
is that of the evaluation (`infixOp_eq`, `indexOp_eq`, `builtin_eq`, `insert_eq`).
-/

namespace MonkeyLang

/-- Why the host refuses an operation. -/
inductive Refusal
  | noRule (kind : String) (mark : Mark)
  | noScope (scope : ScopeId)
  /-- Going outward from scope to scope does not come to an end. -/
  | endless
  | noElement (index : Int)
  | noKey (found : TypeTag)
  | zeroDivisor
deriving DecidableEq, Repr

namespace Host

/-! ## What the host offers -/

/-- The kinds of node that there is a rule for. -/
def ruledKinds : List String :=
  ["program", "block", "expr_stmt", "let", "return", "integer", "string", "boolean", "function",
    "array", "hash", "identifier", "prefix", "infix", "if", "while", "call", "index"]

/-- The rule for a node. -/
def rule (n : Node) : Except Refusal Unit :=
  if ruledKinds.contains n.kind then .ok () else .error (.noRule n.kind n.mark)

/-- The quotient of two integers, rounded down. -/
def quotient (m n : Int) : Except Refusal Int :=
  if n = 0 then .error .zeroDivisor else .ok (m.fdiv n)

/-- The element of a list at an index, which counts from the end if it is below zero. -/
def element (vs : List Value) (i : Int) : Except Refusal Value :=
  let j := if i < 0 then i + vs.length else i
  match if j < 0 then none else vs[j.toNat]? with
  | some v => .ok v
  | none => .error (.noElement i)

def hashKey (v : Value) : Except Refusal HashKey :=
  match v.hashKey? with
  | some key => .ok key
  | none => .error (.noKey v.type)

/-- Looks a name up in a scope and then outward, through so many scopes at most. -/
def lookUpWithin (s : Store) : (count : Nat) → ScopeId → String → Except Refusal (Option Value)
  | 0, _, _ => .error .endless
  | n + 1, scope, name =>
    match s.scopes[scope]? with
    | none => .error (.noScope scope)
    | some sc =>
      match sc.own? name, sc.outer with
      | some value, _ => .ok (some value)
      | none, some outer => lookUpWithin s n outer name
      | none, none => .ok none

/-- Looks a name up in a scope and then outward. A way through more scopes than there are does not
come to an end. -/
def lookUp (s : Store) (scope : ScopeId) (name : String) : Except Refusal (Option Value) :=
  lookUpWithin s s.scopes.size scope name

def bind (s : Store) (scope : ScopeId) (name : String) (v : Value) : Except Refusal Store :=
  if scope < s.scopes.size then .ok (s.bind scope name v) else .error (.noScope scope)

def bindAll (s : Store) (scope : ScopeId) : List String → List Value → Except Refusal Store
  | name :: names, v :: vs => (bind s scope name v).bind fun s => bindAll s scope names vs
  | _, _ => .ok s

/-- Opens a scope inside another one. -/
def openScope (s : Store) (outer : ScopeId) : Except Refusal (ScopeId × Store) :=
  if outer < s.scopes.size then .ok (s.openScope (some outer)) else .error (.noScope outer)

/-! ## The operations of the language -/

/-- The quotient of the absolute values, with the sign that it should have. -/
def divide (m n : Int) : Except Refusal Draft :=
  if n = 0 then .ok (.error .divisionByZero)
  else (quotient m.natAbs n.natAbs).map fun q =>
    .integer (wrap (if decide (m < 0) = decide (n < 0) then q else -q))

def infixOp (operator : String) (left right : Value) : Except Refusal Draft :=
  match left, right with
  | .integer _ m, .integer _ n =>
    if operator = "/" then divide m n else .ok (Value.integerOp operator m n)
  | _, _ => .ok (left.infixOp operator right)

def isHashable : Value → Bool
  | .integer .. | .boolean _ | .string .. => true
  | _ => false

def indexOp (left index : Value) : Except Refusal Draft :=
  match left, index with
  | .array _ elements, .integer _ i =>
    if i < 0 ∨ elements.length ≤ i then .ok .null else (element elements i).map .existing
  | .hash _ entries, _ =>
    if isHashable index then
      (hashKey index).map fun key => .existing ((Entries.find? key entries).getD .null)
    else .ok (.error (.unusableKey index.type))
  | _, _ => .ok (.error (.notIndexable left.type))

/-- Writes an entry of a hash. -/
def insert (key value : Value) (entries : Entries) : Except Refusal Entries :=
  (hashKey key).map fun _ => Entries.insert key value entries

def firstOf : Value → Except Refusal Draft
  | .array _ elements =>
    if elements.isEmpty then .ok .null else (element elements 0).map .existing
  | v => .ok (.error (.wantsArray .first v.type))

def lastOf : Value → Except Refusal Draft
  | .array _ elements =>
    if elements.isEmpty then .ok .null else (element elements (-1)).map .existing
  | v => .ok (.error (.wantsArray .last v.type))

/-- A function of one argument applied to a list of arguments. -/
def ofOne (f : Value → Except Refusal Draft) (arguments : List Value) : Except Refusal Draft :=
  if arguments.length ≠ 1 then .ok (.error (.wantsOneArgument arguments.length))
  else (element arguments 0).bind f

def builtin : Builtin → List Value → Except Refusal Draft
  | .len, arguments => ofOne (fun v => .ok (Builtin.lenOf v)) arguments
  | .first, arguments => ofOne firstOf arguments
  | .last, arguments => ofOne lastOf arguments
  | .rest, arguments => ofOne (fun v => .ok (Builtin.restOf v)) arguments
  | .push, arguments =>
    if arguments.isEmpty then .ok (.error .wantsArguments)
    else (element arguments 0).map (Builtin.pushOnto arguments.tail)

/-! ## They are not refused -/

theorem quotient_natAbs {m n : Int} (hn : n ≠ 0) :
    quotient m.natAbs n.natAbs = .ok (m.natAbs / n.natAbs) := by
  rw [quotient, if_neg (by omega), Int.fdiv_eq_ediv_of_nonneg _ (Int.natCast_nonneg _)]

/-- The quotient toward zero, told by absolute values and signs. -/
theorem tdiv_eq_signed (m n : Int) :
    m.tdiv n = if decide (m < 0) = decide (n < 0) then (m.natAbs / n.natAbs : Int)
      else -(m.natAbs / n.natAbs : Int) := by
  rcases Int.lt_or_le m 0 with hm | hm <;> rcases Int.lt_or_le n 0 with hn | hn
  · rw [if_pos (by simp [hm, hn]), Int.ofNat_natAbs_of_nonpos (Int.le_of_lt hm),
      Int.ofNat_natAbs_of_nonpos (Int.le_of_lt hn), ← Int.tdiv_eq_ediv_of_nonneg (by omega),
      Int.neg_tdiv_neg]
  · rw [if_neg (by simp [hm, hn]), Int.ofNat_natAbs_of_nonpos (Int.le_of_lt hm),
      Int.natAbs_of_nonneg hn, ← Int.tdiv_eq_ediv_of_nonneg (by omega), Int.neg_tdiv, Int.neg_neg]
  · rw [if_neg (by simp [hm, hn]), Int.ofNat_natAbs_of_nonpos (Int.le_of_lt hn),
      Int.natAbs_of_nonneg hm, ← Int.tdiv_eq_ediv_of_nonneg hm, Int.tdiv_neg, Int.neg_neg]
  · rw [if_pos (by simp [Int.not_lt.mpr hm, Int.not_lt.mpr hn]), Int.natAbs_of_nonneg hm,
      Int.natAbs_of_nonneg hn, Int.tdiv_eq_ediv_of_nonneg hm]

theorem divide_eq (m n : Int) : divide m n = .ok (Value.integerOp "/" m n) := by
  unfold divide
  split
  · rename_i hn
    exact congrArg Except.ok (if_pos hn).symm
  · rename_i hn
    rw [quotient_natAbs hn, Except.map, ← tdiv_eq_signed]
    exact congrArg Except.ok (if_neg hn).symm

theorem infixOp_eq (operator : String) (left right : Value) :
    infixOp operator left right = .ok (left.infixOp operator right) := by
  unfold infixOp
  split
  · split
    · rename_i h
      rw [divide_eq, h]
      rfl
    · rfl
  · rfl

/-- An element that is there, at an index that is not below zero. -/
theorem element_natCast {vs : List Value} {i : Nat} {v : Value} (h : vs[i]? = some v) :
    element vs i = .ok v := by
  have hi : ¬(i : Int) < 0 := by omega
  simp only [element, if_neg hi, Int.toNat_natCast, h]

theorem element_neg_one {vs : List Value} {v : Value} (h : vs.getLast? = some v) :
    element vs (-1) = .ok v := by
  rw [List.getLast?_eq_getElem?] at h
  have hlength : 0 < vs.length := by
    cases vs with
    | nil => cases h
    | cons => exact Nat.succ_pos _
  have hj : ¬(-1 + (vs.length : Int)) < 0 := by omega
  have hlast : (-1 + (vs.length : Int)).toNat = vs.length - 1 := by omega
  simp only [element, if_pos (by decide : (-1 : Int) < 0), if_neg hj, hlast, h]

theorem hashKey_eq {v : Value} {key : HashKey} (h : v.hashKey? = some key) :
    hashKey v = .ok key := by
  rw [hashKey, h]

theorem element_eq_elementAt {vs : List Value} {i : Int} (h : ¬(i < 0 ∨ vs.length ≤ i)) :
    element vs i = .ok (Value.elementAt vs i) := by
  obtain ⟨k, rfl⟩ := Int.eq_ofNat_of_zero_le (Int.not_lt.mp (not_or.mp h).1)
  have hk : k < vs.length := by omega
  have hget := List.getElem?_eq_getElem hk
  rw [element_natCast hget, Value.elementAt, if_neg (by omega), Int.toNat_natCast, hget]
  rfl

theorem elementAt_eq_null {vs : List Value} {i : Int} (h : i < 0 ∨ vs.length ≤ i) :
    Value.elementAt vs i = .null := by
  unfold Value.elementAt
  split
  · rfl
  · rw [List.getElem?_eq_none (by omega)]
    rfl

theorem indexOp_eq (left index : Value) : indexOp left index = .ok (left.indexOp index) := by
  cases left with
  | array id elements =>
      cases index with
      | integer id' i =>
          show ite _ _ _ = Except.ok (Draft.existing (Value.elementAt elements i))
          split
          · rename_i hout
            rw [elementAt_eq_null hout]
            rfl
          · rename_i hin
            rw [element_eq_elementAt hin]
            rfl
      | _ => rfl
  | hash id entries => cases index <;> rfl
  | _ => rfl

theorem insert_eq {key : Value} (h : key.hashKey?.isNone = false) (value : Value)
    (entries : Entries) : insert key value entries = .ok (Entries.insert key value entries) := by
  obtain ⟨k, hk⟩ := Option.isSome_iff_exists.mp (by simpa using h)
  rw [insert, hashKey_eq hk]
  rfl

theorem ofOne_eq {f : Value → Except Refusal Draft} {g : Value → Draft}
    (h : ∀ v, f v = .ok (g v)) (arguments : List Value) :
    ofOne f arguments = .ok (Builtin.ofOne g arguments) := by
  match arguments with
  | [] => rfl
  | [v] => exact h v
  | _ :: _ :: _ => rfl

theorem firstOf_eq (v : Value) : firstOf v = .ok (Builtin.firstOf v) := by
  cases v with
  | array id elements =>
      cases elements with
      | nil => rfl
      | cons v vs => rfl
  | _ => rfl

theorem lastOf_eq (v : Value) : lastOf v = .ok (Builtin.lastOf v) := by
  cases v with
  | array id elements =>
      cases hlast : elements.getLast? with
      | none =>
          obtain rfl := List.getLast?_eq_none_iff.mp hlast
          rfl
      | some v =>
          have hne : elements.isEmpty = false := by
            cases elements with
            | nil => cases hlast
            | cons => rfl
          simp only [lastOf, Builtin.lastOf, hne, hlast, element_neg_one hlast]
          rfl
  | _ => rfl

theorem builtin_eq (b : Builtin) (arguments : List Value) :
    builtin b arguments = .ok (b.apply arguments) := by
  cases b with
  | len => exact ofOne_eq (fun _ => rfl) arguments
  | first => exact ofOne_eq firstOf_eq arguments
  | last => exact ofOne_eq lastOf_eq arguments
  | rest => exact ofOne_eq (fun _ => rfl) arguments
  | push => cases arguments <;> rfl

end Host

end MonkeyLang
