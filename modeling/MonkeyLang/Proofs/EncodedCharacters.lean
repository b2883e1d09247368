import MonkeyLang.Text.Utf8

/-!
# Encoded characters

The encodings of the characters as a table of four forms (`Form`), one for each number of bytes:
the lead byte tells how many bytes follow and narrows the range of the one after it. The table
agrees with the encoder of the standard library in both directions, and the reader follows it: on
the way through a form it stays inside a character, and behind the last byte it gives the
character.
-/

namespace MonkeyLang.Utf8

/-! ## The table -/

/-- The least and the greatest byte after a lead byte. -/
def secondLow (lead : UInt8) : UInt8 :=
  if lead = 0xE0 then 0xA0 else if lead = 0xF0 then 0x90 else 0x80

def secondHigh (lead : UInt8) : UInt8 :=
  if lead = 0xED then 0x9F else if lead = 0xF4 then 0x8F else 0xBF

/-- A byte that continues a character after its lead byte. -/
def IsSecond (lead b : UInt8) : Prop := secondLow lead ≤ b ∧ b ≤ secondHigh lead

/-- A byte that continues a character from the third one on. -/
def IsTail (b : UInt8) : Prop := 0x80 ≤ b ∧ b ≤ 0xBF

/-- The bits read so far and those of one more byte. -/
def withBits (bits : Nat) (b : UInt8) : Nat := bits * 64 + (b.toNat - 0x80)

/-- The bytes encode the character with this code point. -/
inductive Form : List UInt8 → Nat → Prop
  | one {a} : a.toNat < 0x80 → Form [a] a.toNat
  | two {a b} : 0xC2 ≤ a.toNat → a.toNat < 0xE0 → IsSecond a b →
    Form [a, b] (withBits (a.toNat - 0xC0) b)
  | three {a b c} : 0xE0 ≤ a.toNat → a.toNat < 0xF0 → IsSecond a b → IsTail c →
    Form [a, b, c] (withBits (withBits (a.toNat - 0xE0) b) c)
  | four {a b c d} : 0xF0 ≤ a.toNat → a.toNat < 0xF5 → IsSecond a b → IsTail c → IsTail d →
    Form [a, b, c, d] (withBits (withBits (withBits (a.toNat - 0xF0) b) c) d)

theorem isTail_iff {b : UInt8} : IsTail b ↔ 0x80 ≤ b.toNat ∧ b.toNat ≤ 0xBF := by
  rw [IsTail, UInt8.le_iff_toNat_le, UInt8.le_iff_toNat_le]
  rfl

/-- What is asked of a second byte, in numbers. -/
theorem isSecond_iff {a b : UInt8} :
    IsSecond a b ↔ 0x80 ≤ b.toNat ∧ b.toNat ≤ 0xBF ∧
      (a.toNat = 0xE0 → 0xA0 ≤ b.toNat) ∧ (a.toNat = 0xF0 → 0x90 ≤ b.toNat) ∧
      (a.toNat = 0xED → b.toNat ≤ 0x9F) ∧ (a.toNat = 0xF4 → b.toNat ≤ 0x8F) := by
  have heq (n : UInt8) : a = n ↔ a.toNat = n.toNat := UInt8.toNat_inj.symm
  simp only [IsSecond, secondLow, secondHigh, heq, UInt8.le_iff_toNat_le, apply_ite UInt8.toNat,
    UInt8.reduceToNat]
  repeat' split
  all_goals omega

/-! ## The encoder -/

/-- A code point in the table is that of a character. -/
theorem Form.isValidChar {bs : List UInt8} {n : Nat} (h : Form bs n) : n.isValidChar := by
  unfold Nat.isValidChar
  cases h with
  | one ha => omega
  | two ha ha' hb =>
      replace hb := isSecond_iff.mp hb
      unfold withBits
      omega
  | three ha ha' hb hc =>
      replace hb := isSecond_iff.mp hb
      replace hc := isTail_iff.mp hc
      unfold withBits
      omega
  | four ha ha' hb hc hd =>
      replace hb := isSecond_iff.mp hb
      replace hc := isTail_iff.mp hc
      replace hd := isTail_iff.mp hd
      unfold withBits
      omega

theorem toNat_ofNat {n : Nat} (h : n.isValidChar) : (Char.ofNat n).toNat = n := by
  rw [Char.ofNat, dif_pos h]
  rfl

/-- The encoder writes the bytes of the table. -/
theorem Form.encode {bs : List UInt8} {n : Nat} (h : Form bs n) :
    String.utf8EncodeChar (Char.ofNat n) = bs := by
  have hn : (Char.ofNat n).val.toNat = n := toNat_ofNat h.isValidChar
  unfold String.utf8EncodeChar
  simp only [hn]
  cases h with
  | one ha =>
      rw [if_pos (by omega), UInt8.ofNat_toNat]
  | two ha ha' hb =>
      replace hb := isSecond_iff.mp hb
      unfold withBits
      rw [if_neg (by omega), if_pos (by omega)]
      simp only [List.cons.injEq, and_true, ← UInt8.toNat_inj, UInt8.toNat_ofNat']
      omega
  | three ha ha' hb hc =>
      replace hb := isSecond_iff.mp hb
      replace hc := isTail_iff.mp hc
      unfold withBits
      rw [if_neg (by omega), if_neg (by omega), if_pos (by omega)]
      simp only [List.cons.injEq, and_true, ← UInt8.toNat_inj, UInt8.toNat_ofNat']
      omega
  | four ha ha' hb hc hd =>
      replace hb := isSecond_iff.mp hb
      replace hc := isTail_iff.mp hc
      replace hd := isTail_iff.mp hd
      unfold withBits
      rw [if_neg (by omega), if_neg (by omega), if_neg (by omega)]
      simp only [List.cons.injEq, and_true, ← UInt8.toNat_inj, UInt8.toNat_ofNat']
      omega

theorem Form.of_eq {bs : List UInt8} {m n : Nat} (h : Form bs m) (heq : m = n) : Form bs n :=
  heq ▸ h

/-- The table has a form for every character. -/
theorem form_encode (c : Char) : Form (String.utf8EncodeChar c) c.toNat := by
  have hvalid : c.toNat.isValidChar := c.valid
  have hn : c.val.toNat = c.toNat := rfl
  unfold Nat.isValidChar at hvalid
  unfold String.utf8EncodeChar
  simp only [hn]
  generalize c.toNat = n at *
  split
  · generalize ha : UInt8.ofNat n = a
    rw [← UInt8.toNat_inj, UInt8.toNat_ofNat'] at ha
    exact (Form.one (by omega)).of_eq (by omega)
  split
  · generalize ha : UInt8.ofNat (n / 64 % 32 + 192) = a
    generalize hb : UInt8.ofNat (n % 64 + 128) = b
    rw [← UInt8.toNat_inj, UInt8.toNat_ofNat'] at ha hb
    refine (Form.two (by omega) (by omega) (isSecond_iff.mpr (by omega))).of_eq ?_
    unfold withBits
    omega
  split
  · generalize ha : UInt8.ofNat (n / 4096 % 16 + 224) = a
    generalize hb : UInt8.ofNat (n / 64 % 64 + 128) = b
    generalize hc : UInt8.ofNat (n % 64 + 128) = c
    rw [← UInt8.toNat_inj, UInt8.toNat_ofNat'] at ha hb hc
    refine (Form.three (by omega) (by omega) (isSecond_iff.mpr (by omega))
      (isTail_iff.mpr (by omega))).of_eq ?_
    unfold withBits
    omega
  · generalize ha : UInt8.ofNat (n / 262144 % 8 + 240) = a
    generalize hb : UInt8.ofNat (n / 4096 % 64 + 128) = b
    generalize hc : UInt8.ofNat (n / 64 % 64 + 128) = c
    generalize hd : UInt8.ofNat (n % 64 + 128) = d
    rw [← UInt8.toNat_inj, UInt8.toNat_ofNat'] at ha hb hc hd
    refine (Form.four (by omega) (by omega) (isSecond_iff.mpr (by omega))
      (isTail_iff.mpr (by omega)) (isTail_iff.mpr (by omega))).of_eq ?_
    unfold withBits
    omega

/-! ## The reader -/

section Reader

variable {a b : UInt8}

theorem first_one (h : a.toNat < 0x80) : first a = ([some (Char.ofNat a.toNat)], .start) := by
  have ha : a < 0x80 := UInt8.lt_iff_toNat_lt.mpr h
  rw [first, if_pos ha]

theorem first_two (h : 0xC2 ≤ a.toNat) (h' : a.toNat < 0xE0) :
    first a = ([], .inside 1 (secondLow a) (secondHigh a) (a.toNat - 0xC0)) := by
  have heq (n : UInt8) : a = n ↔ a.toNat = n.toNat := UInt8.toNat_inj.symm
  simp (disch := omega) only [first, secondLow, secondHigh, UInt8.lt_iff_toNat_lt, heq,
    UInt8.reduceToNat, if_pos, if_neg]

theorem first_three (h : 0xE0 ≤ a.toNat) (h' : a.toNat < 0xF0) :
    first a = ([], .inside 2 (secondLow a) (secondHigh a) (a.toNat - 0xE0)) := by
  -- the lead bytes that narrow the range of the next byte have rules of their own
  by_cases hE0 : a = 0xE0
  · subst hE0
    rfl
  by_cases hED : a = 0xED
  · subst hED
    rfl
  have heq (n : UInt8) : a = n ↔ a.toNat = n.toNat := UInt8.toNat_inj.symm
  simp only [heq, UInt8.reduceToNat] at hE0 hED
  simp (disch := omega) only [first, secondLow, secondHigh, UInt8.lt_iff_toNat_lt, heq,
    UInt8.reduceToNat, if_pos, if_neg]

theorem first_four (h : 0xF0 ≤ a.toNat) (h' : a.toNat < 0xF5) :
    first a = ([], .inside 3 (secondLow a) (secondHigh a) (a.toNat - 0xF0)) := by
  by_cases hF0 : a = 0xF0
  · subst hF0
    rfl
  by_cases hF4 : a = 0xF4
  · subst hF4
    rfl
  have heq (n : UInt8) : a = n ↔ a.toNat = n.toNat := UInt8.toNat_inj.symm
  simp only [heq, UInt8.reduceToNat] at hF0 hF4
  simp (disch := omega) only [first, secondLow, secondHigh, UInt8.lt_iff_toNat_lt, heq,
    UInt8.reduceToNat, if_pos, if_neg]

/-- A byte that neither is a character nor leads one. -/
theorem first_none (h : 0x80 ≤ a.toNat) (h' : a.toNat < 0xC2 ∨ 0xF5 ≤ a.toNat) :
    first a = ([none], .start) := by
  have heq (n : UInt8) : a = n ↔ a.toNat = n.toNat := UInt8.toNat_inj.symm
  rcases h' with h' | h' <;>
    simp (disch := omega) only [first, UInt8.lt_iff_toNat_lt, heq, UInt8.reduceToNat, if_pos,
      if_neg]

theorem step_start (b : UInt8) : step .start b = first b := rfl

theorem step_more {owed bits : Nat} {low high : UInt8} (h : low ≤ b ∧ b ≤ high) :
    step (.inside (owed + 2) low high bits) b =
      ([], .inside (owed + 1) 0x80 0xBF (withBits bits b)) := by
  rw [step, if_pos h]
  rfl

theorem step_last {bits : Nat} {low high : UInt8} (h : low ≤ b ∧ b ≤ high) :
    step (.inside 1 low high bits) b = ([some (Char.ofNat (withBits bits b))], .start) := by
  rw [step, if_pos h]
  rfl

theorem step_out {owed bits : Nat} {low high : UInt8} (h : ¬(low ≤ b ∧ b ≤ high)) :
    step (.inside owed low high bits) b = (none :: (first b).1, (first b).2) := by
  rw [step, if_neg h]

end Reader

variable {bs : List UInt8} {n : Nat}

/-- The reader gives the character that a form encodes, whatever follows. -/
theorem Form.unitsFrom (h : Form bs n) (rest : List UInt8) :
    unitsFrom .start (bs ++ rest) = some (Char.ofNat n) :: unitsFrom .start rest := by
  cases h with
  | one ha =>
      simp only [List.cons_append, List.nil_append, unitsFrom_cons, step, first_one ha]
  | two ha ha' hb =>
      simp only [List.cons_append, List.nil_append, unitsFrom_cons, step_start, first_two ha ha',
        step_last hb]
  | three ha ha' hb hc =>
      simp only [List.cons_append, List.nil_append, unitsFrom_cons, step_start,
        first_three ha ha', step_more hb, step_last hc]
  | four ha ha' hb hc hd =>
      simp only [List.cons_append, List.nil_append, unitsFrom_cons, step_start,
        first_four ha ha', step_more hb, step_more hc, step_last hd]

end MonkeyLang.Utf8
