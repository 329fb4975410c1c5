import Mathlib.Data.Nat.Bitwise
import Xv6.Lib.LittleEndian

/-!
# Bits packed in a byte array

Bit `i` of an array of bytes is bit `i % 8` of byte `i / 8`, tested, set and cleared with the mask
`1 << (i % 8)`, as a C program does it.
-/

namespace Bitmap

open LittleEndian

variable {N : ℕ}

/-- `1 << (i % 8)`. -/
def mask (i : ℕ) : UInt8 := 1 <<< UInt8.ofNat (i % 8)

/-- `(data[i/8] & m) != 0`. -/
def getBit (b : Fin N → UInt8) (i : ℕ) : Bool := byteAt b (i / 8) &&& mask i != 0

/-- `data[i/8] |= m`. -/
def setBit (b : Fin N → UInt8) (i : ℕ) : Fin N → UInt8 :=
  setByte b (i / 8) (byteAt b (i / 8) ||| mask i)

/-- `data[i/8] &= ~m`. -/
def clearBit (b : Fin N → UInt8) (i : ℕ) : Fin N → UInt8 :=
  setByte b (i / 8) (byteAt b (i / 8) &&& ~~~mask i)

/-! ### One byte -/

theorem toNat_mask (i : ℕ) : (mask i).toNat = 2 ^ (i % 8) := by
  have h : ∀ k < 8, (1 <<< UInt8.ofNat k : UInt8).toNat = 2 ^ k := by decide
  exact h _ (Nat.mod_lt _ (by decide))

theorem and_mask_ne_zero (x : UInt8) (i : ℕ) : (x &&& mask i != 0) = x.toNat.testBit (i % 8) := by
  rw [Bool.eq_iff_iff, bne_iff_ne, ne_eq, ← UInt8.toNat_inj, UInt8.toNat_and, toNat_mask,
    Nat.and_two_pow]
  cases x.toNat.testBit (i % 8) <;> simp

theorem testBit_or_mask (x : UInt8) (i j : ℕ) : (x ||| mask i).toNat.testBit (j % 8) =
    (x.toNat.testBit (j % 8) || decide (i % 8 = j % 8)) := by
  rw [UInt8.toNat_or, toNat_mask, Nat.testBit_or, Nat.testBit_two_pow]

theorem testBit_and_not_mask (x : UInt8) (i j : ℕ) : (x &&& ~~~mask i).toNat.testBit (j % 8) =
    (x.toNat.testBit (j % 8) && decide (i % 8 ≠ j % 8)) := by
  have h : ∀ k < 8, ∀ l < 8,
      (~~~(1 <<< UInt8.ofNat k : UInt8)).toNat.testBit l = decide (k ≠ l) := by decide
  rw [UInt8.toNat_and, Nat.testBit_and]
  exact congrArg _ (h _ (Nat.mod_lt _ (by decide)) _ (Nat.mod_lt _ (by decide)))

/-! ### The array -/

theorem getBit_eq (b : Fin N → UInt8) (i : ℕ) :
    getBit b i = (byteAt b (i / 8)).toNat.testBit (i % 8) := and_mask_ne_zero _ i

/-- **Read after set.** -/
theorem getBit_setBit {b : Fin N → UInt8} {i j : ℕ} (hi : i / 8 < N) :
    getBit (setBit b i) j = (getBit b j || decide (i = j)) := by
  rw [getBit_eq, getBit_eq, setBit]
  by_cases hbyte : j / 8 = i / 8
  · rw [hbyte, byteAt_setByte_self hi, testBit_or_mask]
    have hiff : i % 8 = j % 8 ↔ i = j := by omega
    simp only [hiff]
  · have hne : ¬ i = j := fun h => hbyte (by rw [h])
    rw [byteAt_setByte_of_ne hbyte, decide_eq_false hne, Bool.or_false]

/-- **Read after clear.** -/
theorem getBit_clearBit {b : Fin N → UInt8} {i j : ℕ} (hi : i / 8 < N) :
    getBit (clearBit b i) j = (getBit b j && decide (i ≠ j)) := by
  rw [getBit_eq, getBit_eq, clearBit]
  by_cases hbyte : j / 8 = i / 8
  · rw [hbyte, byteAt_setByte_self hi, testBit_and_not_mask]
    have hiff : i % 8 ≠ j % 8 ↔ i ≠ j := by omega
    simp only [hiff]
  · have hne : i ≠ j := fun h => hbyte (by rw [h])
    rw [byteAt_setByte_of_ne hbyte, decide_eq_true hne, Bool.and_true]

end Bitmap
