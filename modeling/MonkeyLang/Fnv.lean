/-!
# FNV-1a

The FNV-1a hash of 64 bits: each byte is first mixed into the low bits of the state, which is then
multiplied by the prime. All arithmetic is modulo 2^64.
-/

namespace MonkeyLang.Fnv

def offsetBasis : UInt64 := 0xCBF29CE484222325

/-- The multiplier, 2^40 + 2^8 + 0xB3. -/
def prime : UInt64 := 0x100000001B3

/-- Mixes one byte into the state. -/
def step (h : UInt64) (b : UInt8) : UInt64 :=
  (h ^^^ b.toUInt64) * prime

def hash (bytes : List UInt8) : UInt64 :=
  bytes.foldl step offsetBasis

theorem hash_append (p s : List UInt8) : hash (p ++ s) = s.foldl step (hash p) := by
  simp [hash]

end MonkeyLang.Fnv
