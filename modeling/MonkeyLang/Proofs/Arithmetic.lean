import Mathlib.Data.Int.ModEq
import MonkeyLang.Proofs.IntegerRange

/-!
# Arithmetic

Each operator wraps its result around to 64 bits, and wrapping keeps the remainder of a number
modulo 2^64. So an expression of literals, negations, sums, differences and products comes to
what its exact value wraps around to, as if this were done once at the end, however far beyond
64 bits the numbers on the way are (`Arithmetic.wrapsTo`).

Quotients do not respect remainders. The quotient of two integers of 64 bits goes toward zero
and is exact, with one exception: 2^63 is out of range, so the least integer divided by -1 is
that integer again.
-/

namespace MonkeyLang

/-! ## Wrapping around -/

theorem wrap_modEq (n : Int) : wrap n ≡ n [ZMOD 2 ^ 64] :=
  Int.bmod_emod

/-- What wraps around to a number: it has the same remainder, and the number is in range. -/
theorem wrap_eq_iff {n v : Int} :
    wrap n = v ↔ (-2 ^ 63 ≤ v ∧ v ≤ 2 ^ 63 - 1) ∧ v ≡ n [ZMOD 2 ^ 64] := by
  constructor
  · rintro rfl
    exact ⟨wrap_in_range n, wrap_modEq n⟩
  · rintro ⟨⟨hlow, hhigh⟩, hmod⟩
    obtain ⟨hlow', hhigh'⟩ := wrap_in_range n
    have hdvd : (2 : Int) ^ 64 ∣ v - wrap n := ((wrap_modEq n).trans hmod.symm).dvd
    omega

/-- A number in range stays as it is. -/
theorem wrap_of_in_range {n : Int} (h : -2 ^ 63 ≤ n ∧ n ≤ 2 ^ 63 - 1) : wrap n = n :=
  wrap_eq_iff.mpr ⟨h, .rfl⟩

/-- Only the remainder matters. -/
theorem wrap_congr {m n : Int} (h : m ≡ n [ZMOD 2 ^ 64]) : wrap m = wrap n :=
  wrap_eq_iff.mpr ⟨wrap_in_range n, (wrap_modEq n).trans h.symm⟩

/-! ## Exact values -/

/-- An expression of integer literals in range, negations, sums, differences and products, with
its exact value. -/
inductive Arithmetic : Expr → Int → Prop
  | literal {mark : Mark} {n : Int} : -2 ^ 63 ≤ n ∧ n ≤ 2 ^ 63 - 1 →
      Arithmetic (.integer mark n) n
  | negation {mark : Mark} {e : Expr} {m : Int} : Arithmetic e m →
      Arithmetic (.prefixOp mark "-" e) (-m)
  | sum {mark : Mark} {left right : Expr} {m n : Int} : Arithmetic left m → Arithmetic right n →
      Arithmetic (.infixOp mark left "+" right) (m + n)
  | difference {mark : Mark} {left right : Expr} {m n : Int} : Arithmetic left m →
      Arithmetic right n → Arithmetic (.infixOp mark left "-" right) (m - n)
  | product {mark : Mark} {left right : Expr} {m n : Int} : Arithmetic left m →
      Arithmetic right n → Arithmetic (.infixOp mark left "*" right) (m * n)

/-- An expression comes to what a number wraps around to, in every store, and binds no name. -/
def Expr.WrapsTo (e : Expr) (m : Int) : Prop :=
  ∀ scope s, ∃ id next, e.ComesTo scope s (.integer id (wrap m)) ⟨s.scopes, next⟩

namespace Expr.WrapsTo

variable {e left right : Expr} {k m n : Int}

theorem integer (mark : Mark) (hn : -2 ^ 63 ≤ n ∧ n ≤ 2 ^ 63 - 1) :
    (Expr.integer mark n).WrapsTo n := by
  intro scope s
  refine ⟨s.nextId, s.nextId + 1, 1, ?_⟩
  rw [evalExpr, wrap_of_in_range hn]
  rfl

theorem negation (mark : Mark) (h : e.WrapsTo m) : (Expr.prefixOp mark "-" e).WrapsTo (-m) := by
  intro scope s
  obtain ⟨id, next, hrun⟩ := h scope s
  have hwrap : wrap (-wrap m) = wrap (-m) := wrap_congr (wrap_modEq m).neg
  exact ⟨next, next + 1, hwrap ▸ hrun.prefixOp mark "-" rfl⟩

/-- An operator that computes on wrapped operands what it computes on the numbers themselves. -/
theorem infixOp (mark : Mark) {operator : String}
    (hoperator : Value.integerOp operator (wrap m) (wrap n) = .integer (wrap k))
    (hleft : left.WrapsTo m) (hright : right.WrapsTo n) :
    (Expr.infixOp mark left operator right).WrapsTo k := by
  intro scope s
  obtain ⟨i, next₁, hrun₁⟩ := hleft scope s
  obtain ⟨j, next₂, hrun₂⟩ := hright scope ⟨s.scopes, next₁⟩
  have hrun := hrun₁.infixOp mark operator hrun₂ rfl rfl
  rw [Value.infixOp, hoperator] at hrun
  exact ⟨next₂, next₂ + 1, hrun⟩

end Expr.WrapsTo

/-- An arithmetic expression comes to what its exact value wraps around to. -/
theorem Arithmetic.wrapsTo {e : Expr} {m : Int} (h : Arithmetic e m) : e.WrapsTo m := by
  induction h with
  | literal hn => exact .integer _ hn
  | negation _ ih => exact .negation _ ih
  | @sum _ _ _ m n _ _ ihm ihn =>
      have hwrap : wrap (wrap m + wrap n) = wrap (m + n) :=
        wrap_congr ((wrap_modEq m).add (wrap_modEq n))
      exact .infixOp _ (congrArg Draft.integer hwrap) ihm ihn
  | @difference _ _ _ m n _ _ ihm ihn =>
      have hwrap : wrap (wrap m - wrap n) = wrap (m - n) :=
        wrap_congr ((wrap_modEq m).sub (wrap_modEq n))
      exact .infixOp _ (congrArg Draft.integer hwrap) ihm ihn
  | @product _ _ _ m n _ _ ihm ihn =>
      have hwrap : wrap (wrap m * wrap n) = wrap (m * n) :=
        wrap_congr ((wrap_modEq m).mul (wrap_modEq n))
      exact .infixOp _ (congrArg Draft.integer hwrap) ihm ihn

/-! ## Quotients -/

/-- A number is the quotient of two others, toward zero: what remains is smaller than the divisor
and is zero or has the sign of the dividend. -/
def IsQuotient (l r q : Int) : Prop :=
  ∃ m, l = q * r + m ∧ |m| < |r| ∧ (m = 0 ∨ m.sign = l.sign)

theorem isQuotient_tdiv {l r : Int} (hr : r ≠ 0) : IsQuotient l r (l.tdiv r) := by
  refine ⟨l.tmod r, ?_, ?_, ?_⟩
  · rw [Int.mul_comm, Int.mul_tdiv_add_tmod]
  · rw [Int.abs_eq_natAbs, Int.abs_eq_natAbs, Int.natAbs_tmod]
    exact_mod_cast Nat.mod_lt _ (Int.natAbs_pos.mpr hr)
  · by_cases hdvd : r ∣ l
    · exact .inl (Int.tmod_eq_zero_of_dvd hdvd)
    · exact .inr (by rw [Int.sign_tmod, if_neg hdvd])

/-- There is one quotient at most. -/
theorem IsQuotient.unique {l r p q : Int} (hp : IsQuotient l r p) (hq : IsQuotient l r q) :
    p = q := by
  obtain ⟨m, hm, hmr, hms⟩ := hp
  obtain ⟨k, hk, hkr, hks⟩ := hq
  -- both remainders lie on the side of zero that the dividend lies on, so they are close
  have side {n : Int} (h : n = 0 ∨ n.sign = l.sign) : (0 ≤ l → 0 ≤ n) ∧ (l ≤ 0 → n ≤ 0) := by
    rcases h with rfl | h
    · exact ⟨fun _ => le_rfl, fun _ => le_rfl⟩
    · exact ⟨fun hl => Int.sign_nonneg_iff.mp (h ▸ Int.sign_nonneg_iff.mpr hl),
        fun hl => Int.sign_nonpos_iff.mp (h ▸ Int.sign_nonpos_iff.mpr hl)⟩
  have hsmall : |k - m| < |r| := by
    obtain ⟨hm₁, hm₂⟩ := side hms
    obtain ⟨hk₁, hk₂⟩ := side hks
    rw [abs_lt] at *
    omega
  have hdvd : |r| ∣ k - m := by
    rw [abs_dvd]
    exact ⟨p - q, by linarith [Int.mul_sub r p q, Int.mul_comm r p, Int.mul_comm r q]⟩
  have hkm : k - m = 0 := Int.eq_zero_of_abs_lt_dvd hdvd hsmall
  have hr : r ≠ 0 := by
    rintro rfl
    rw [abs_zero] at hmr
    exact absurd (abs_nonneg m) (not_le.mpr hmr)
  exact mul_right_cancel₀ hr (by omega)

/-- The quotient of two numbers of which the first one is in range is in range, with one
exception. -/
theorem tdiv_in_range {l r : Int} (hl : -2 ^ 63 ≤ l ∧ l ≤ 2 ^ 63 - 1)
    (hexception : ¬(l = -2 ^ 63 ∧ r = -1)) : -2 ^ 63 ≤ l.tdiv r ∧ l.tdiv r ≤ 2 ^ 63 - 1 := by
  have hle := Int.natAbs_tdiv_le_natAbs l r
  by_cases hmin : l = -2 ^ 63
  · rcases lt_or_ge r 0 with hneg | hnonneg
    · have htwo : 2 ≤ r.natAbs := by omega
      have hhalf : (l.tdiv r).natAbs ≤ l.natAbs / 2 := by
        rw [Int.natAbs_tdiv]
        exact Nat.div_le_div_left htwo (by decide)
      omega
    · have hnonpos : l.tdiv r ≤ 0 := by
        rw [hmin, Int.neg_tdiv]
        exact Int.neg_nonpos_of_nonneg (Int.tdiv_nonneg (by decide) hnonneg)
      omega
  · omega

theorem integerOp_slash (l r : Int) : Value.integerOp "/" l r =
    if r = 0 then .error .divisionByZero else .integer (wrap (l.tdiv r)) := rfl

/-- **Arithmetic is exact modulo 2^64.** An expression of literals, negations, sums, differences
and products comes to the integer in range that has the remainder of its exact value modulo 2^64.
The division of an integer in range by another comes to an error exactly if the divisor is zero.
The least integer divided by -1 is itself; otherwise the division comes to the quotient. -/
theorem arithmetic_modulo :
    (∀ e m, Arithmetic e m → ∀ scope s, ∃ id v next,
      e.ComesTo scope s (.integer id v) ⟨s.scopes, next⟩ ∧
      (-2 ^ 63 ≤ v ∧ v ≤ 2 ^ 63 - 1) ∧ v ≡ m [ZMOD 2 ^ 64]) ∧
    ∀ mark left right scope s s₁ s₂ i j l r, -2 ^ 63 ≤ l ∧ l ≤ 2 ^ 63 - 1 →
      Expr.ComesTo left scope s (.integer i l) s₁ → Expr.ComesTo right scope s₁ (.integer j r) s₂ →
      ∃ v, (Expr.infixOp mark left "/" right).ComesTo scope s v ⟨s₂.scopes, s₂.nextId + 1⟩ ∧
        (v.isError = true ↔ r = 0) ∧
        (l = -2 ^ 63 → r = -1 → v = .integer s₂.nextId (-2 ^ 63)) ∧
        (r ≠ 0 → ¬(l = -2 ^ 63 ∧ r = -1) →
          ∃ q, v = .integer s₂.nextId q ∧ ∀ p, IsQuotient l r p ↔ p = q) := by
  refine ⟨fun e m h scope s => ?_, ?_⟩
  · obtain ⟨id, next, hrun⟩ := h.wrapsTo scope s
    exact ⟨id, wrap m, next, hrun, wrap_in_range m, wrap_modEq m⟩
  · intro mark left right scope s s₁ s₂ i j l r hl hleft hright
    have hrun := hleft.infixOp mark "/" hright rfl rfl
    rw [Value.infixOp, integerOp_slash] at hrun
    by_cases hr : r = 0
    · rw [if_pos hr] at hrun
      refine ⟨_, hrun, iff_of_true rfl hr, fun _ h => ?_, fun h => absurd hr h⟩
      rw [hr] at h
      exact nomatch h
    · rw [if_neg hr] at hrun
      refine ⟨_, hrun, iff_of_false Bool.false_ne_true hr, ?_, fun _ hexception => ?_⟩
      · rintro rfl rfl
        rfl
      · refine ⟨l.tdiv r, ?_, fun p => ⟨fun h => h.unique (isQuotient_tdiv hr), ?_⟩⟩
        · rw [wrap_of_in_range (tdiv_in_range hl hexception)]
          rfl
        · rintro rfl
          exact isQuotient_tdiv hr

/-- The product of the largest integer with itself is far out of range, and what all of it comes to
is the least integer. The quotient of -7 by 2 is -3. -/
theorem arithmetic_modulo_largest :
    let m : Mark := ⟨"", .start⟩
    let s : Store := Store.fresh.2
    let largest : Expr := .integer m (2 ^ 63 - 1)
    let e : Expr := .prefixOp m "-" (.infixOp m (.infixOp m largest "*" largest) "+" largest)
    let seven : Expr := .prefixOp m "-" (.integer m 7)
    Arithmetic e (-((2 ^ 63 - 1) * (2 ^ 63 - 1) + (2 ^ 63 - 1))) ∧
    (∃ id t, e.ComesTo 0 s (.integer id (-2 ^ 63)) t) ∧
    seven.ComesTo 0 s (.integer 1 (-7)) ⟨s.scopes, 2⟩ ∧
    (Expr.infixOp m seven "/" (.integer m 2)).ComesTo 0 s (.integer 3 (-3)) ⟨s.scopes, 4⟩ := by
  intro m s largest e seven
  have hlargest : Arithmetic largest (2 ^ 63 - 1) := .literal (by decide)
  have he : Arithmetic e (-((2 ^ 63 - 1) * (2 ^ 63 - 1) + (2 ^ 63 - 1))) :=
    .negation (.sum (.product hlargest hlargest) hlargest)
  have hseven : seven.ComesTo 0 s (.integer 1 (-7)) ⟨s.scopes, 2⟩ := ⟨3, by cbv⟩
  have htwo : (Expr.integer m 2).ComesTo 0 ⟨s.scopes, 2⟩ (.integer 2 2) ⟨s.scopes, 3⟩ :=
    ⟨1, by cbv⟩
  refine ⟨he, ?_, hseven, ?_⟩
  · obtain ⟨id, v, next, hrun, hrange, hmod⟩ := arithmetic_modulo.1 e _ he 0 s
    have hv : v = -2 ^ 63 := by
      rw [← wrap_eq_iff.mpr ⟨hrange, hmod⟩]
      decide
    exact ⟨id, _, hv ▸ hrun⟩
  · obtain ⟨v, hrun, -, -, hquotient⟩ :=
      arithmetic_modulo.2 m _ _ 0 s _ _ 1 2 (-7) 2 (by decide) hseven htwo
    obtain ⟨q, rfl, hq⟩ := hquotient (by decide) (by decide)
    have hthree : -3 = q := (hq (-3)).mp ⟨-1, by decide, by decide, .inr (by decide)⟩
    exact hthree ▸ hrun

end MonkeyLang
