import Mathlib.Data.Nat.Digits.Lemmas
import MonkeyLang.Proofs.Arithmetic
import MonkeyLang.Proofs.RoundTrip
import MonkeyLang.Proofs.StatementRuns
import MonkeyLang.Value.Inspect

/-!
# Decimal literals

A text of digits is one integer token, however long it is. If its value is that of an integer
of 64 bits it is parsed to this literal, and what the program comes to is printed as the text
without the zeros in front. Otherwise the parser has nothing but the error that names the text.

What is printed for an integer is read back: the text of a negative one is a minus sign and a
literal, and the operator makes the integer of it. Only the least integer is left out, whose
digits alone are too large.
-/

namespace MonkeyLang

/-! ## Digits and numbers -/

/-- The digits of a text of decimal digits as numbers, the last one first. -/
def digitValues (cs : List Char) : List Nat :=
  (cs.map fun c => c.toNat - '0'.toNat).reverse

theorem decimalValue_eq_ofDigits (cs : List Char) :
    decimalValue cs = Nat.ofDigits 10 (digitValues cs) := by
  induction cs with
  | nil => rfl
  | cons c cs ih =>
      rw [decimalValue_cons, ih, digitValues, digitValues, List.map_cons, List.reverse_cons,
        Nat.ofDigits_append, Nat.ofDigits_singleton, List.length_reverse, List.length_map]
      exact Nat.add_comm _ _

/-- A text of digits without the zeros in front. One digit is always left. -/
def withoutLeadingZeros (cs : List Char) : List Char :=
  match cs.dropWhile (· == '0') with
  | [] => ['0']
  | c :: ds => c :: ds

theorem digit_lt_ten {c : Char} (hc : isDigit c = true) : c.toNat - '0'.toNat < 10 := by
  have hhigh := (isDigit_iff.mp hc).2
  have hdigits : '9'.toNat = '0'.toNat + 9 := rfl
  omega

theorem digitChar_of_isDigit {c : Char} (hc : isDigit c = true) :
    Nat.digitChar (c.toNat - '0'.toNat) = c := by
  have hlow := (isDigit_iff.mp hc).1
  apply Char.toNat_inj.mp
  rw [Nat.toNat_digitChar_of_lt_ten (digit_lt_ten hc)]
  exact Nat.add_sub_cancel' hlow

/-- Digits behind a positive number are printed after it. -/
theorem toDigits_append {cs : List Char} (hcs : ∀ c ∈ cs, isDigit c = true) {n : Nat}
    (hn : 0 < n) : Nat.toDigits 10 n ++ cs = Nat.toDigits 10 (Nat.ofDigitChars 10 cs n) := by
  induction cs generalizing n with
  | nil => rw [List.append_nil, Nat.ofDigitChars_nil]
  | cons c cs ih =>
      obtain ⟨hc, hcs⟩ := List.forall_mem_cons.mp hcs
      have hten := digit_lt_ten hc
      have hlast : Nat.toDigits 10 n ++ [c] = Nat.toDigits 10 (10 * n + (c.toNat - '0'.toNat)) := by
        rw [← Nat.toDigits_append_toDigits (by decide) hn hten, Nat.toDigits_of_lt_base hten,
          digitChar_of_isDigit hc]
      calc Nat.toDigits 10 n ++ c :: cs
          = Nat.toDigits 10 (10 * n + (c.toNat - '0'.toNat)) ++ cs := by
            rw [← hlast, List.append_assoc, List.singleton_append]
        _ = Nat.toDigits 10 (Nat.ofDigitChars 10 (c :: cs) n) := by
            rw [ih hcs (by omega), Nat.ofDigitChars_cons]

/-- The value of a text of digits is printed as this text without the zeros in front. -/
theorem repr_decimalValue {cs : List Char} (hcs : ∀ c ∈ cs, isDigit c = true) :
    (decimalValue cs).repr.toList = withoutLeadingZeros cs := by
  rw [Nat.toList_repr, ← decimalValue_dropWhile_zero, withoutLeadingZeros]
  cases hd : cs.dropWhile (· == '0') with
  | nil => rfl
  | cons c ds =>
      obtain ⟨hne, hds⟩ := digits_of_dropWhile_zero hcs hd
      obtain ⟨hc, hds⟩ := List.forall_mem_cons.mp hds
      rw [decimalValue_eq_ofDigitChars, Nat.ofDigitChars_cons, Nat.mul_zero, Nat.zero_add,
        ← toDigits_append hds (digit_pos hc hne), Nat.toDigits_of_lt_base (digit_lt_ten hc),
        digitChar_of_isDigit hc]
      rfl

/-! ## Tokens -/

section Texts

variable {cs : List Char} {d : String}

/-- A text of digits is one token. -/
theorem tokensFrom_digits (hne : cs ≠ []) (hcs : ∀ c ∈ cs, isDigit c = true) (p : Place) :
    tokensFrom p cs = [⟨.int, String.ofList cs, p⟩, ⟨.eof, "", p.after cs⟩] := by
  obtain ⟨c, cs, rfl⟩ := List.exists_cons_of_ne_nil hne
  obtain ⟨hc, hcs⟩ := List.forall_mem_cons.mp hcs
  have hspace : ¬isSpace c = true := by rw [isSpace_of_isDigit hc]; exact Bool.false_ne_true
  have hread : Lexeme.read c cs = (.plain .int (c :: cs), []) := by
    rw [← read_digits hc hcs wordEnds_nil, List.append_nil]
  rw [tokensFrom_read (List.dropWhile_cons_of_neg hspace), List.takeWhile_cons_of_neg hspace, hread,
    Place.after_nil, tokensFrom_nil rfl]
  rfl

theorem tokenize_digits (hne : d.toList ≠ []) (hd : ∀ c ∈ d.toList, isDigit c = true) :
    tokenize d = [⟨.int, d, .start⟩, ⟨.eof, "", Place.start.after d.toList⟩] := by
  rw [tokenize, tokens, tokensFrom_digits hne hd, String.ofList_toList]

theorem read_minus (cs : List Char) : Lexeme.read '-' cs = (.plain .minus ['-'], cs) := by
  cases cs <;> rfl

/-- A minus sign before a text of digits is a token of its own. -/
theorem tokenize_minus (hne : d.toList ≠ []) (hd : ∀ c ∈ d.toList, isDigit c = true) :
    tokenize ("-" ++ d) =
      [⟨.minus, "-", .start⟩, ⟨.int, d, ⟨1, 2⟩⟩, ⟨.eof, "", Place.after ⟨1, 2⟩ d.toList⟩] := by
  have hlist : ("-" ++ d).toList = '-' :: d.toList := by
    rw [String.toList_append]
    rfl
  have hspace : ('-' :: d.toList).dropWhile isSpace = '-' :: d.toList := rfl
  have htokens := tokensFrom_digits hne hd ⟨1, 2⟩
  rw [String.ofList_toList] at htokens
  rw [tokenize, tokens, hlist, tokensFrom_read hspace, read_minus, ← htokens]
  rfl

/-! ## Trees -/

theorem parse_digits (hne : d.toList ≠ []) (hd : ∀ c ∈ d.toList, isDigit c = true)
    (hmax : decimalValue d.toList ≤ maxLiteral) :
    parse d = ⟨⟨[.expression ⟨d, .start⟩ (.integer ⟨d, .start⟩ (decimalValue d.toList))]⟩, []⟩ := by
  have hphrase : Phrase .atom [⟨.int, d, .start⟩] _ := .integer rfl hd hmax
  have hderives : Derives [⟨.int, d, .start⟩] ⟨[.expression ⟨d, .start⟩ _]⟩ :=
    .bare (by decide) (.expression hphrase.equality) .nil
  rw [parse, tokenize_digits hne hd]
  exact parseTokens_of_derives hderives rfl

theorem parse_minus (hne : d.toList ≠ []) (hd : ∀ c ∈ d.toList, isDigit c = true)
    (hmax : decimalValue d.toList ≤ maxLiteral) :
    parse ("-" ++ d) = ⟨⟨[.expression ⟨"-", .start⟩ (.prefixOp ⟨"-", .start⟩ "-"
      (.integer ⟨d, ⟨1, 2⟩⟩ (decimalValue d.toList)))]⟩, []⟩ := by
  have hphrase : Phrase .atom [⟨.int, d, ⟨1, 2⟩⟩] _ := .integer rfl hd hmax
  have hunary : Phrase .unary [⟨.minus, "-", .start⟩, ⟨.int, d, ⟨1, 2⟩⟩] _ :=
    .unary (.inr rfl) (.tighten rfl (.tighten rfl hphrase))
  have hderives : Derives _ ⟨[.expression ⟨"-", .start⟩ _]⟩ :=
    .bare (by decide) (.expression hunary.equality) .nil
  rw [parse, tokenize_minus hne hd]
  exact parseTokens_of_derives hderives rfl

/-- A literal that is too large leaves no statement, and one error. -/
theorem parse_digits_large (hne : d.toList ≠ []) (hd : ∀ c ∈ d.toList, isDigit c = true)
    (hlarge : maxLiteral < decimalValue d.toList) : parse d = ⟨⟨[]⟩, [.integerRange d]⟩ := by
  have hnone : literalValue? d.toList = none := by
    rw [literalValue?_eq hd, if_neg (Nat.not_le.mpr hlarge)]
  let t : Token := ⟨.int, d, .start⟩
  let last : Token := ⟨.eof, "", Place.start.after d.toList⟩
  let failed : ParseState := ⟨t, [last], [.integerRange d]⟩
  have hoperand (n : Nat) : operand (n + 1) (.ofTokens [t, last]) = .failed failed := by
    simp only [operand, ParseState.ofTokens, t, hnone]
    rfl
  have hstatement (n : Nat) : statement (n + 3) (.ofTokens [t, last]) = .failed failed := by
    have hexpression : expression (n + 2) lowestLevel (.ofTokens [t, last]) = .failed failed := by
      rw [expression, hoperand, Reply.andThen_failed]
    simp only [statement, hexpression]
    rfl
  have hstatements : statements (stepsFor [t, last].length) false (.ofTokens [t, last]) =
      .parsed [] ⟨last, [], [.integerRange d]⟩ := by
    rw [stepsFor, List.length_cons, List.length_singleton, statements, hstatement]
    rfl
  rw [parse, tokenize_digits hne hd, parseTokens, hstatements]

end Texts

/-! ## Values -/

/-- A program comes to an integer, wherever it is run, and binds no name. -/
def Program.Computes (p : Program) (v : Int) : Prop :=
  ∀ scope s, ∃ n id next, evalProgram n p scope s = .done (some (.integer id v)) ⟨s.scopes, next⟩

theorem Expr.WrapsTo.computes {e : Expr} {v : Int} (h : e.WrapsTo v)
    (hv : -2 ^ 63 ≤ v ∧ v ≤ 2 ^ 63 - 1) (mark : Mark) :
    (Program.mk [.expression mark e]).Computes v := by
  intro scope s
  obtain ⟨id, next, n, hn⟩ := h scope s
  refine ⟨n + 2, id, next, ?_⟩
  rw [evalProgram, evalStmts_singleton, hn, wrap_of_in_range hv]
  rfl

/-- What a text is read as: it is parsed without an error, and the program comes to the integer. -/
def ReadsAs (text : String) (v : Int) : Prop :=
  (parse text).errors = [] ∧ (parse text).program.Computes v

section Texts

variable {d : String}

theorem literal_in_range {n : Nat} (hmax : n ≤ maxLiteral) :
    -2 ^ 63 ≤ (n : Int) ∧ (n : Int) ≤ 2 ^ 63 - 1 := by
  rw [maxLiteral] at hmax
  omega

theorem readsAs_digits (hne : d.toList ≠ []) (hd : ∀ c ∈ d.toList, isDigit c = true)
    (hmax : decimalValue d.toList ≤ maxLiteral) : ReadsAs d (decimalValue d.toList) := by
  have hrange := literal_in_range hmax
  rw [ReadsAs, parse_digits hne hd hmax]
  exact ⟨rfl, (Arithmetic.literal hrange).wrapsTo.computes hrange _⟩

theorem readsAs_minus (hne : d.toList ≠ []) (hd : ∀ c ∈ d.toList, isDigit c = true)
    (hmax : decimalValue d.toList ≤ maxLiteral) :
    ReadsAs ("-" ++ d) (-decimalValue d.toList) := by
  have hrange := literal_in_range hmax
  rw [ReadsAs, parse_minus hne hd hmax]
  exact ⟨rfl, (Arithmetic.negation (.literal hrange)).wrapsTo.computes (by omega) _⟩

/-- What is printed for an integer is read as this integer. -/
theorem readsAs_inspect (id : Nat) {v : Int} (hlow : -2 ^ 63 < v) (hhigh : v ≤ 2 ^ 63 - 1) :
    ReadsAs (Value.integer id v).inspect v := by
  have hmax : v.natAbs ≤ maxLiteral := by
    rw [maxLiteral]
    omega
  obtain ⟨c, cs, hrepr⟩ := exists_repr_eq_cons v.natAbs
  have hne : v.natAbs.repr.toList ≠ [] := hrepr ▸ List.cons_ne_nil c cs
  have hd : ∀ c ∈ v.natAbs.repr.toList, isDigit c = true := fun c hc => isDigit_of_mem_repr hc
  rw [← decimalValue_repr v.natAbs] at hmax
  cases v with
  | ofNat n =>
      have hreads := readsAs_digits hne hd hmax
      rw [decimalValue_repr] at hreads
      exact hreads
  | negSucc n =>
      have hreads := readsAs_minus hne hd hmax
      rw [decimalValue_repr] at hreads
      exact hreads

/-- The least integer is left out, since the digits are read before the operator. -/
example : (parse "-9223372036854775808").errors = [.integerRange "9223372036854775808"] := by
  cbv

end Texts

/-- **Integer literals of any length.** A text of digits is parsed to one literal with its value,
and what that comes to is printed as the text without the zeros in front. If the value is out of
range, there is no statement and one error, which names the text. The text of an integer other
than the least one is read as this integer. -/
theorem decimal_literals :
    (∀ d : String, d.toList ≠ [] → (∀ c ∈ d.toList, isDigit c = true) →
      let value : Nat := Nat.ofDigits 10 (digitValues d.toList)
      (value ≤ 2 ^ 63 - 1 →
        (∃ mark mark', parse d = ⟨⟨[.expression mark (.integer mark' value)]⟩, []⟩) ∧
        (parse d).program.Computes value ∧
        ∀ id, (Value.integer id value).inspect = String.ofList (withoutLeadingZeros d.toList)) ∧
      (2 ^ 63 - 1 < value →
        (parse d).program.statements = [] ∧
        (parse d).errors.map SyntaxError.message =
          ["could not parse \"" ++ d ++ "\" as integer"])) ∧
    ∀ id (v : Int), -2 ^ 63 < v → v ≤ 2 ^ 63 - 1 → ReadsAs (Value.integer id v).inspect v := by
  refine ⟨fun d hne hd => ?_, fun id v => readsAs_inspect id⟩
  intro value
  have hvalue : value = decimalValue d.toList := (decimalValue_eq_ofDigits _).symm
  rw [hvalue]
  refine ⟨fun hmax => ?_, fun hlarge => ?_⟩
  · refine ⟨⟨_, _, parse_digits hne hd hmax⟩, (readsAs_digits hne hd hmax).2, fun id => ?_⟩
    rw [← repr_decimalValue hd, String.ofList_toList]
    rfl
  · rw [parse_digits_large hne hd hlarge]
    exact ⟨rfl, rfl⟩

/-- Seven with two zeros in front, the first number that is too large, and the least integer that
can be written. -/
theorem decimal_literals_bounds :
    (parse "007").program.Computes 7 ∧
    (Value.integer 0 7).inspect = String.ofList (withoutLeadingZeros "007".toList) ∧
    (parse "9223372036854775808").program.statements = [] ∧
    ReadsAs (Value.integer 0 (-9223372036854775807)).inspect (-9223372036854775807) := by
  have hseven : ∀ c ∈ "007".toList, isDigit c = true := List.all_eq_true.mp (by decide)
  have hlarge : ∀ c ∈ "9223372036854775808".toList, isDigit c = true :=
    List.all_eq_true.mp (by decide)
  obtain ⟨-, hcomputes, hinspect⟩ := (decimal_literals.1 "007" (by decide) hseven).1 (by decide)
  obtain ⟨hnone, -⟩ :=
    (decimal_literals.1 "9223372036854775808" (by decide) hlarge).2 (by decide)
  have hleast := decimal_literals.2 0 (-9223372036854775807) (by decide) (by decide)
  exact ⟨hcomputes, hinspect 0, hnone, hleast⟩

end MonkeyLang
