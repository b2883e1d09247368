import Mathlib.Logic.Function.Basic
import MonkeyLang.Value.Key

/-!
# Strings that differ in one byte

Two strings may have one hash, but not if they differ in one byte only (`hash_separates`). For a
fixed byte, a step of the hash permutes the states: mixing a byte in twice restores the state, and
the prime is odd, so it has an inverse modulo 2^64. So a difference between two states is never
lost in a common tail. For a fixed state, different bytes lead to different states, so a difference
in one byte makes one between states.
-/

namespace MonkeyLang

namespace Fnv

/-! ## One step -/

/-- The inverse of the prime modulo 2^64. -/
def primeInverse : UInt64 := 0xCE965057AFF6957B

theorem prime_mul_inverse : prime * primeInverse = 1 := by decide

theorem mul_prime_injective : Function.Injective fun h : UInt64 => h * prime := by
  refine Function.LeftInverse.injective (g := fun h => h * primeInverse) fun h => ?_
  show h * prime * primeInverse = h
  rw [UInt64.mul_assoc, prime_mul_inverse, UInt64.mul_one]

/-- A byte separates the states as they were. -/
theorem step_injective (b : UInt8) : Function.Injective fun h => step h b := fun _ _ heq =>
  (UInt64.xor_left_inj _).mp (mul_prime_injective heq)

/-- A state separates the bytes. -/
theorem step_byte_injective (h : UInt64) : Function.Injective (step h) := fun _ _ heq =>
  UInt8.toUInt64_inj.mp ((UInt64.xor_right_inj _).mp (mul_prime_injective heq))

/-! ## Tails -/

/-- A tail of any length separates the states before it. -/
theorem foldl_step_injective (s : List UInt8) :
    Function.Injective fun h => s.foldl step h := by
  induction s with
  | nil => exact Function.injective_id
  | cons b s ih => exact ih.comp (step_injective b)

theorem hash_append_inj (v w s : List UInt8) :
    hash (v ++ s) = hash (w ++ s) ↔ hash v = hash w := by
  rw [hash_append, hash_append]
  exact (foldl_step_injective s).eq_iff

theorem hash_append_byte_inj (p s : List UInt8) (b c : UInt8) :
    hash (p ++ [b] ++ s) = hash (p ++ [c] ++ s) ↔ b = c := by
  rw [hash_append_inj, hash_append, hash_append]
  exact (step_byte_injective (hash p)).eq_iff

end Fnv

/-! ## One difference -/

/-- Two lists of one length that differ at one index are the same before and behind it. -/
theorem exists_of_existsUnique_ne {α : Type} {v w : List α} (hlength : v.length = w.length)
    (h : ∃! i : Nat, v[i]? ≠ w[i]?) :
    ∃ p s b c, b ≠ c ∧ v = p ++ [b] ++ s ∧ w = p ++ [c] ++ s := by
  obtain ⟨i, hne, hunique⟩ := h
  have hsame : ∀ j, j ≠ i → v[j]? = w[j]? := fun j hj =>
    not_not.mp fun hne' => hj (hunique j hne')
  have hv : i < v.length := by
    by_contra hi
    have hi' : v.length ≤ i := Nat.not_lt.mp hi
    exact hne (by rw [List.getElem?_eq_none hi', List.getElem?_eq_none (hlength ▸ hi')])
  have hw : i < w.length := hlength ▸ hv
  have htake : v.take i = w.take i := by
    refine List.ext_getElem? fun j => ?_
    by_cases hj : j < i
    · rw [List.getElem?_take_of_lt hj, List.getElem?_take_of_lt hj, hsame j (Nat.ne_of_lt hj)]
    · rw [List.getElem?_take_eq_none (Nat.not_lt.mp hj),
        List.getElem?_take_eq_none (Nat.not_lt.mp hj)]
  have hdrop : v.drop (i + 1) = w.drop (i + 1) := by
    refine List.ext_getElem? fun j => ?_
    rw [List.getElem?_drop, List.getElem?_drop, hsame _ (by omega)]
  refine ⟨v.take i, v.drop (i + 1), v[i], w[i], fun heq => hne ?_, ?_, ?_⟩
  · rw [List.getElem?_eq_getElem hv, List.getElem?_eq_getElem hw, heq]
  · simp
  · rw [htake, hdrop]
    simp

/-! ## Keys -/

/-- **Strings that differ in one byte never share a key.** Two hashes agree before a common tail
exactly if they agree behind it, and byte strings that differ in one byte have different hashes.
So two string keys have different hash keys if their encodings are of one length and differ at
exactly one place. -/
theorem hash_separates :
    (∀ p x y s : List UInt8,
      Fnv.hash (p ++ x ++ s) = Fnv.hash (p ++ y ++ s) ↔ Fnv.hash (p ++ x) = Fnv.hash (p ++ y)) ∧
    (∀ (p s : List UInt8) (b c : UInt8), b ≠ c →
      Fnv.hash (p ++ [b] ++ s) ≠ Fnv.hash (p ++ [c] ++ s)) ∧
    ∀ (i j : ObjectId) (t u : String),
      (Utf8.encode t.toList).length = (Utf8.encode u.toList).length →
      (∃! k : Nat, (Utf8.encode t.toList)[k]? ≠ (Utf8.encode u.toList)[k]?) →
      (Value.string i t).hashKey? ≠ (Value.string j u).hashKey? := by
  have hbytes (p s : List UInt8) (b c : UInt8) (hne : b ≠ c) :
      Fnv.hash (p ++ [b] ++ s) ≠ Fnv.hash (p ++ [c] ++ s) :=
    fun heq => hne ((Fnv.hash_append_byte_inj p s b c).mp heq)
  refine ⟨fun p x y s => Fnv.hash_append_inj _ _ s, hbytes, ?_⟩
  intro i j t u hlength hone hkey
  obtain ⟨p, s, b, c, hne, ht, hu⟩ := exists_of_existsUnique_ne hlength hone
  have hhash := HashKey.string.inj (Option.some.inj hkey)
  rw [ht, hu] at hhash
  exact hbytes p s b c hne hhash

/-- Two words that differ in an accent, which is one byte of two. -/
theorem hash_separates_accent :
    let t := "n\u00e9e"
    let u := "n\u00e8e"
    (Utf8.encode t.toList).length = (Utf8.encode u.toList).length ∧
      (∃! k : Nat, (Utf8.encode t.toList)[k]? ≠ (Utf8.encode u.toList)[k]?) ∧
      (Value.string 0 t).hashKey? ≠ (Value.string 1 u).hashKey? ∧
      (0xA9 : UInt8) ≠ 0xA8 ∧
      Fnv.hash ([0x6E, 0xC3] ++ [0xA9] ++ [0x65]) ≠
        Fnv.hash ([0x6E, 0xC3] ++ [0xA8] ++ [0x65]) := by
  intro t u
  have ht : Utf8.encode t.toList = [0x6E, 0xC3, 0xA9, 0x65] := by decide
  have hu : Utf8.encode u.toList = [0x6E, 0xC3, 0xA8, 0x65] := by decide
  have hlength : (Utf8.encode t.toList).length = (Utf8.encode u.toList).length := by
    rw [ht, hu]
    rfl
  have hone : ∃! k : Nat, (Utf8.encode t.toList)[k]? ≠ (Utf8.encode u.toList)[k]? := by
    rw [ht, hu]
    refine ⟨2, by decide, ?_⟩
    rintro (_ | _ | _ | _ | k) hk <;> simp_all
  have hbyte : (0xA9 : UInt8) ≠ 0xA8 := by decide
  exact ⟨hlength, hone, hash_separates.2.2 0 1 t u hlength hone, hbyte,
    hash_separates.2.1 _ _ _ _ hbyte⟩

end MonkeyLang
