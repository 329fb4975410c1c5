import Mathlib.Algebra.GroupWithZero.Nat
import Xv6.Lib.Move

/-!
# The two `memmove`s

`string.c` has one for the kernel, `ulib.c` one for user programs. The kernel's copies downwards if
the destination starts inside the source; the other one always copies upwards, like `memcpy`.

A pointer is a 32-bit number. A block may end at the last byte of the address space, where the
pointer behind it is 0.
-/

namespace Xv6.Memmove

open Function Move

abbrev Mem : Type := UInt32 → UInt8

/-- `while(n-- > 0) *d++ = *s++;` -/
def upLoop : ℕ → UInt32 → UInt32 → Mem → Mem
  | 0, _, _, m => m
  | n + 1, d, s, m => upLoop n (d + 1) (s + 1) (update m d (m s))

/-- `while(n-- > 0) *--d = *--s;` -/
def downLoop : ℕ → UInt32 → UInt32 → Mem → Mem
  | 0, _, _, m => m
  | n + 1, d, s, m => downLoop n (d - 1) (s - 1) (update m (d - 1) (m (s - 1)))

/-- `memmove` of `string.c`. -/
def Kernel.memmove (dst src n : UInt32) (m : Mem) : UInt32 × Mem :=
  if src < dst ∧ src + n > dst then (dst, downLoop n.toNat (dst + n) (src + n) m)
  else (dst, upLoop n.toNat dst src m)

/-- `memmove` of `ulib.c`. -/
def Ulib.memmove (vdst vsrc : UInt32) (n : Int32) (m : Mem) : UInt32 × Mem :=
  (vdst, upLoop n.toInt.toNat vdst vsrc m)

/-- Byte `i` of the block at `p`. -/
def byte (p : UInt32) (i : ℕ) : UInt32 := p + UInt32.ofNat i

/-- `n` bytes at `p` do not wrap past the address space. -/
def Fits (p : UInt32) (n : ℕ) : Prop := p.toNat + n ≤ 2 ^ 32

instance (p : UInt32) (n : ℕ) : Decidable (Fits p n) := inferInstanceAs (Decidable (_ ≤ _))

/-- `n` bytes were moved from `src` to `dst`, and all other bytes are as before. -/
abbrev Right (dst src : UInt32) (n : ℕ) (m m' : Mem) : Prop := Moved (byte dst) (byte src) n m m'

variable {dst src p q : UInt32} {m : Mem} {n i j : ℕ}

theorem toNat_byte (h : p.toNat + i < 2 ^ 32) : (byte p i).toNat = p.toNat + i := by
  rw [byte, UInt32.toNat_add, UInt32.toNat_ofNat', Nat.mod_eq_of_lt (a := i) (by omega),
    Nat.mod_eq_of_lt h]

theorem byte_ne (hp : Fits p n) (hq : Fits q n) (hi : i < n) (hj : j < n)
    (hne : p.toNat + i ≠ q.toNat + j) : byte p i ≠ byte q j := by
  unfold Fits at hp hq
  intro heq
  have := congrArg UInt32.toNat heq
  rw [toNat_byte (by omega), toNat_byte (by omega)] at this
  exact hne this

theorem byte_succ (p : UInt32) (i : ℕ) : byte p (i + 1) = byte p i + 1 := by
  rw [byte, byte, UInt32.ofNat_add, UInt32.add_assoc]
  rfl

theorem byte_add_one (p : UInt32) (i : ℕ) : byte (p + 1) i = byte p (i + 1) := by
  rw [byte_succ, byte, byte, UInt32.add_assoc, UInt32.add_comm 1, UInt32.add_assoc]

theorem upLoop_eq : ∀ n dst src m, upLoop n dst src m = up (byte dst) (byte src) n m
  | 0, _, _, _ => rfl
  | n + 1, dst, src, m => by
    have hzero : ∀ p : UInt32, byte p 0 = p := UInt32.add_zero
    rw [upLoop, upLoop_eq n, up_succ_first, hzero, hzero]
    simp only [← byte_add_one]

theorem downLoop_eq : ∀ n m, downLoop n (byte dst n) (byte src n) m = down (byte dst) (byte src) n m
  | 0, _ => rfl
  | n + 1, m => by
    rw [downLoop, byte_succ, byte_succ, UInt32.add_sub_cancel, UInt32.add_sub_cancel, downLoop_eq n,
      down]

section Blocks

variable (hd : Fits dst n) (hs : Fits src n)

include hd hs

theorem right_upLoop (h : ¬ (src < dst ∧ dst.toNat < src.toNat + n)) :
    Right dst src n m (upLoop n dst src m) := by
  rw [UInt32.lt_iff_toNat_lt] at h
  rw [upLoop_eq]
  refine up_moved (fun i j hij hj => ?_) fun i j hij hj => ?_
  · exact byte_ne hd hd (by omega) hj (by omega)
  · exact byte_ne hs hd hj (by omega) (by omega)

theorem right_downLoop (h : src < dst) :
    Right dst src n m (downLoop n (byte dst n) (byte src n) m) := by
  rw [UInt32.lt_iff_toNat_lt] at h
  rw [downLoop_eq]
  refine down_moved (fun i j hij hj => ?_) fun i j hij hj => ?_
  · exact byte_ne hd hd (by omega) hj (by omega)
  · exact byte_ne hs hd (by omega) hj (by omega)

theorem upLoop_apply (h : src < dst) (hin : dst.toNat < src.toNat + n) (hi : i < n) :
    upLoop n dst src m (byte dst i) = m (byte src (i % (dst.toNat - src.toNat))) := by
  rw [UInt32.lt_iff_toNat_lt] at h
  unfold Fits at hd hs
  rw [upLoop_eq]
  refine up_periodic (by omega) (fun i j hij hj => ?_) (fun i hik => ?_) (fun i j hik hj => ?_) i hi
  · exact byte_ne hd hd (by omega) hj (by omega)
  · refine UInt32.toNat_inj.mp ?_
    rw [toNat_byte (by omega), toNat_byte (by omega)]
    omega
  · exact byte_ne hs hd (by omega) hj (by omega)

end Blocks

/-- **The kernel's `memmove` is right, and that of the user library is if** the destination does not
start inside the source, or the bytes of the source repeat with the distance of the two. -/
theorem memmove_right_iff (m : Mem) (dst src : UInt32) :
    (∀ n : UInt32, Fits dst n.toNat → Fits src n.toNat →
      Right dst src n.toNat m (Kernel.memmove dst src n m).2) ∧
    ∀ n : Int32, 0 ≤ n → Fits dst n.toInt.toNat → Fits src n.toInt.toNat →
      (Right dst src n.toInt.toNat m (Ulib.memmove dst src n m).2 ↔
        ¬ (src < dst ∧ dst.toNat < src.toNat + n.toInt.toNat) ∨
        ∀ i < n.toInt.toNat, m (byte src (i % (dst.toNat - src.toNat))) = m (byte src i)) := by
  refine ⟨fun n hd hs => ?_, fun n _ hd hs => ?_⟩
  · have hend : ∀ p, p + n = byte p n.toNat := fun p => by rw [byte, UInt32.ofNat_toNat]
    unfold Kernel.memmove
    rw [hend, hend]
    split
    · next h => exact right_downLoop hd hs h.1
    next h =>
    refine right_upLoop hd hs fun hc => h ⟨hc.1, ?_⟩
    have hlt := UInt32.lt_iff_toNat_lt.mp hc.1
    unfold Fits at hd
    change dst < byte src n.toNat
    rw [UInt32.lt_iff_toNat_lt, toNat_byte (by omega)]
    exact hc.2
  · by_cases h : src < dst ∧ dst.toNat < src.toNat + n.toInt.toNat
    · rw [or_iff_right (not_not.mpr h)]
      have hup : ∀ i < n.toInt.toNat, (Ulib.memmove dst src n m).2 (byte dst i) = _ :=
        fun i hi => upLoop_apply hd hs h.1 h.2 hi
      refine ⟨fun hr i hi => (hup i hi).symm.trans (hr.copied i hi), fun hrep => ⟨?_, ?_⟩⟩
      · exact fun i hi => (hup i hi).trans (hrep i hi)
      · rw [Ulib.memmove, upLoop_eq]
        exact fun a => up_kept
    · exact iff_of_true (right_upLoop hd hs h) (.inl h)

/-- Two different bytes, moved up by one. -/
theorem memmove_right_iff_up_one :
    Right 0x1001 0x1000 2 UInt32.toUInt8 (Kernel.memmove 0x1001 0x1000 2 UInt32.toUInt8).2 ∧
      ¬ Right 0x1001 0x1000 2 UInt32.toUInt8 (Ulib.memmove 0x1001 0x1000 2 UInt32.toUInt8).2 := by
  have h := memmove_right_iff UInt32.toUInt8 0x1001 0x1000
  refine ⟨h.1 2 (by decide) (by decide), fun hr => ?_⟩
  rcases (h.2 2 (by decide) (by decide) (by decide)).mp hr with hout | hrep
  · exact hout ⟨by decide, by decide⟩
  · exact absurd (hrep 1 (by decide)) (by decide)

/-- The user library's writes the first byte twice and loses the second. -/
theorem ulib_memmove_repeats : Fits 0x1001 2 ∧ Fits 0x1000 2 ∧
      (Kernel.memmove 0x1001 0x1000 2 UInt32.toUInt8).2 0x1002 = UInt32.toUInt8 0x1001 ∧
      (Ulib.memmove 0x1001 0x1000 2 UInt32.toUInt8).2 0x1002 = UInt32.toUInt8 0x1000 ∧
      UInt32.toUInt8 0x1000 ≠ UInt32.toUInt8 0x1001 := by
  decide

end Xv6.Memmove
