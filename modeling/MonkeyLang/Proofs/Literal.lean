import Mathlib
import MonkeyLang.Syntax.Parser

/-!
# Integer literals

The parser does not convert a literal that is too long. It drops the leading
zeros, refuses what then has more than nineteen digits, and only converts the
rest. On texts of digits, of any length, this shortcut is exact comparison with
the largest literal (`literalValue?_eq`).

`decimalValue` is core's `Nat.ofDigitChars` in base ten, so that it also reads
back what `Nat.repr` writes (`decimalValue_repr`).
-/

namespace MonkeyLang

/-! ## The value of a text of digits -/

theorem decimalValue_eq_ofDigitChars (cs : List Char) :
    decimalValue cs = Nat.ofDigitChars 10 cs 0 := rfl

theorem decimalValue_cons (c : Char) (cs : List Char) :
    decimalValue (c :: cs) = 10 ^ cs.length * (c.toNat - '0'.toNat) + decimalValue cs := by
  rw [decimalValue_eq_ofDigitChars, Nat.ofDigitChars_cons,
    Nat.ofDigitChars_eq_ofDigitChars_zero, Nat.mul_zero, Nat.zero_add]
  rfl

theorem decimalValue_repr (n : Nat) : decimalValue n.repr.toList = n := by
  rw [Nat.toList_repr]
  exact Nat.ofDigitChars_ten_toDigits

/-- Leading zeros do not count. -/
theorem decimalValue_dropWhile_zero (cs : List Char) :
    decimalValue (cs.dropWhile (· == '0')) = decimalValue cs := by
  induction cs with
  | nil => rfl
  | cons c cs ih =>
      by_cases hc : c = '0'
      · subst hc
        rw [List.dropWhile_cons_of_pos (by decide), ih, decimalValue_cons]
        simp
      · rw [List.dropWhile_cons_of_neg (by simpa using hc)]

/-! ## Digits -/

theorem isDigit_iff {c : Char} :
    isDigit c = true ↔ '0'.toNat ≤ c.toNat ∧ c.toNat ≤ '9'.toNat := by
  simp only [isDigit, Bool.and_eq_true, decide_eq_true_eq]
  exact Iff.rfl

theorem isDigit_of_mem_repr {n : Nat} {c : Char} (h : c ∈ n.repr.toList) : isDigit c = true := by
  rw [Nat.toList_repr] at h
  have hdigit := Nat.isDigit_of_mem_toDigits (by decide) (by decide) h
  rw [Char.isDigit, Bool.and_eq_true, decide_eq_true_eq, decide_eq_true_eq] at hdigit
  rw [isDigit, Bool.and_eq_true, decide_eq_true_eq, decide_eq_true_eq]
  exact hdigit

theorem exists_repr_eq_cons (n : Nat) : ∃ c cs, n.repr.toList = c :: cs := by
  rw [Nat.toList_repr]
  exact List.exists_cons_of_ne_nil Nat.toDigits_ne_nil

theorem digit_pos {c : Char} (hc : isDigit c = true) (hne : c ≠ '0') :
    0 < c.toNat - '0'.toNat := by
  have hlow := (isDigit_iff.mp hc).1
  have hnat : c.toNat ≠ '0'.toNat := fun h => hne (Char.toNat_inj.mp h)
  omega

/-- A text of digits that does not start with a zero has at least the value
that its length promises. -/
theorem pow_le_decimalValue {c : Char} {cs : List Char} (hc : isDigit c = true)
    (hne : c ≠ '0') : 10 ^ cs.length ≤ decimalValue (c :: cs) :=
  calc 10 ^ cs.length
      ≤ 10 ^ cs.length * (c.toNat - '0'.toNat) := Nat.le_mul_of_pos_right _ (digit_pos hc hne)
    _ ≤ decimalValue (c :: cs) := by rw [decimalValue_cons]; exact Nat.le_add_right _ _

/-- What is left without the zeros in front are digits, and the first of them is no zero. -/
theorem digits_of_dropWhile_zero {c : Char} {cs ds : List Char}
    (hcs : ∀ c ∈ cs, isDigit c = true) (hd : cs.dropWhile (· == '0') = c :: ds) :
    c ≠ '0' ∧ ∀ d ∈ c :: ds, isDigit d = true := by
  refine ⟨?_, fun d hmem => hcs d ((List.dropWhile_suffix _).mem (hd ▸ hmem))⟩
  have := List.head_dropWhile_not (· == '0') (l := cs) (by rw [hd]; simp)
  simpa [hd] using this

/-- Twenty digits are too many. -/
theorem maxLiteral_lt_of_length {cs : List Char} (hcs : ∀ c ∈ cs, isDigit c = true)
    (hlen : 19 < (cs.dropWhile (· == '0')).length) : maxLiteral < decimalValue cs := by
  rw [← decimalValue_dropWhile_zero]
  cases hd : cs.dropWhile (· == '0') with
  | nil => rw [hd] at hlen; exact absurd hlen (by simp)
  | cons c ds =>
      rw [hd, List.length_cons] at hlen
      obtain ⟨hne, hds⟩ := digits_of_dropWhile_zero hcs hd
      calc maxLiteral < 10 ^ 19 := by decide
        _ ≤ 10 ^ ds.length := Nat.pow_le_pow_right (by decide) (by omega)
        _ ≤ decimalValue (c :: ds) := pow_le_decimalValue (hds c List.mem_cons_self) hne

/-- The shortcut is exact: a literal is refused exactly when its value is too
large. -/
theorem literalValue?_eq {cs : List Char} (hcs : ∀ c ∈ cs, isDigit c = true) :
    literalValue? cs = if decimalValue cs ≤ maxLiteral then some (decimalValue cs) else none := by
  simp only [literalValue?, decimalValue_dropWhile_zero]
  split
  · rename_i hlen
    have := maxLiteral_lt_of_length hcs hlen
    rw [if_neg (by omega)]
  · rfl

end MonkeyLang
