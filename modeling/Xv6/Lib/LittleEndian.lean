import Mathlib.Data.Fin.Basic
import Mathlib.Logic.Function.Basic
import Mathlib.Tactic.Ring

/-!
# Little-endian fields of a byte array

A fixed-size array of bytes, and the numbers a C program sees when it casts a pointer into the
array to a pointer to an unsigned integer. Nothing here knows what the array is used for.

## Total, permissive semantics

`byteAt` reads `0` past the end of the array and `setByte` writes nothing there, so every field of
every array can be read and written. Whether a field lies inside the array is a hypothesis of the
read-after-write lemma only.
-/

namespace LittleEndian

variable {N : ℕ}

/-! ### Single bytes -/

/-- Byte `i` of the array, `0` past its end. -/
def byteAt (b : Fin N → UInt8) (i : ℕ) : UInt8 := if h : i < N then b ⟨i, h⟩ else 0

/-- Overwrite byte `i`; a write past the end changes nothing. -/
def setByte (b : Fin N → UInt8) (i : ℕ) (x : UInt8) : Fin N → UInt8 :=
  if h : i < N then Function.update b ⟨i, h⟩ x else b

variable {b : Fin N → UInt8}

theorem byteAt_setByte_self {i : ℕ} {x : UInt8} (hi : i < N) : byteAt (setByte b i x) i = x := by
  simp [byteAt, setByte, hi]

theorem byteAt_setByte_of_ne {i j : ℕ} {x : UInt8} (h : j ≠ i) :
    byteAt (setByte b i x) j = byteAt b j := by
  unfold byteAt setByte
  by_cases hi : i < N
  · by_cases hj : j < N
    · have hne : (⟨j, hj⟩ : Fin N) ≠ ⟨i, hi⟩ := fun hc => h (Fin.mk.inj_iff.mp hc)
      simp [hi, hj, Function.update_of_ne hne]
    · simp [hj]
  · simp [hi]

/-! ### Fields -/

/-- The `len`-byte little-endian number at offset `off`. -/
def getLE (b : Fin N → UInt8) (off : ℕ) : ℕ → ℕ
  | 0 => 0
  | len + 1 => (byteAt b off).toNat + 256 * getLE b (off + 1) len

/-- Store the low `len` bytes of `v` at offset `off`, least significant byte first. -/
def setLE (b : Fin N → UInt8) (off : ℕ) : ℕ → ℕ → Fin N → UInt8
  | 0, _ => b
  | len + 1, v => setLE (setByte b off (UInt8.ofNat v)) (off + 1) len (v / 256)

theorem getLE_lt (b : Fin N → UInt8) : ∀ len off : ℕ, getLE b off len < 256 ^ len
  | 0, _ => by simp [getLE]
  | len + 1, off => by
    have h := getLE_lt b len (off + 1)
    have hb := (byteAt b off).toNat_lt
    simp only [getLE, pow_succ]
    omega

theorem getLE_congr {b c : Fin N → UInt8} : ∀ {len off : ℕ},
    (∀ i, off ≤ i → i < off + len → byteAt b i = byteAt c i) → getLE b off len = getLE c off len
  | 0, _, _ => rfl
  | len + 1, off, h => by
    simp only [getLE]
    rw [h off (Nat.le_refl _) (by omega), getLE_congr fun i h1 h2 => h i (by omega) (by omega)]

theorem byteAt_setLE_of_outside : ∀ {len off v i : ℕ} {b : Fin N → UInt8},
    i < off ∨ off + len ≤ i → byteAt (setLE b off len v) i = byteAt b i
  | 0, _, _, _, _, _ => rfl
  | len + 1, off, v, i, b, h => by
    simp only [setLE]
    rw [byteAt_setLE_of_outside (by omega), byteAt_setByte_of_ne (by omega)]

/-- **Read after write.** -/
theorem getLE_setLE_self : ∀ {len off v : ℕ} {b : Fin N → UInt8}, off + len ≤ N →
    getLE (setLE b off len v) off len = v % 256 ^ len
  | 0, _, _, _, _ => by simp [getLE, Nat.mod_one]
  | len + 1, off, v, b, h => by
    simp only [getLE, setLE]
    rw [byteAt_setLE_of_outside (by omega), byteAt_setByte_self (by omega),
      getLE_setLE_self (by omega), pow_succ, Nat.mul_comm (256 ^ len) 256,
      Nat.mod_mul, UInt8.toNat_ofNat']

/-- **Read another field.** -/
theorem getLE_setLE_of_disjoint {len off len' off' v : ℕ}
    (h : off' + len' ≤ off ∨ off + len ≤ off') :
    getLE (setLE b off len v) off' len' = getLE b off' len' :=
  getLE_congr fun _ h1 h2 => byteAt_setLE_of_outside (by omega)

/-! ### Records -/

/-- A value with its place in the array. -/
structure Field where
  off : ℕ
  len : ℕ
  val : ℕ

/-- Two fields share no byte. -/
def Field.Disjoint (f g : Field) : Prop := f.off + f.len ≤ g.off ∨ g.off + g.len ≤ f.off

/-- Store a record, field by field. -/
def setFields (b : Fin N → UInt8) (fs : List Field) : Fin N → UInt8 :=
  fs.foldl (fun b f => setLE b f.off f.len f.val) b

theorem byteAt_setFields_of_outside {fs : List Field} {i : ℕ}
    (h : ∀ f ∈ fs, i < f.off ∨ f.off + f.len ≤ i) : byteAt (setFields b fs) i = byteAt b i := by
  induction fs generalizing b with
  | nil => rfl
  | cons f fs ih =>
    rw [setFields, List.foldl_cons, ← setFields, ih fun g hg => h g (List.mem_cons_of_mem _ hg)]
    exact byteAt_setLE_of_outside (h f List.mem_cons_self)

theorem getLE_setFields_of_disjoint {fs : List Field} {off len : ℕ}
    (h : ∀ f ∈ fs, off + len ≤ f.off ∨ f.off + f.len ≤ off) :
    getLE (setFields b fs) off len = getLE b off len :=
  getLE_congr fun i h1 h2 => byteAt_setFields_of_outside fun f hf => by
    have := h f hf
    omega

/-- **Read a field of a record.** -/
theorem getLE_setFields_of_mem {fs : List Field} {f : Field}
    (hdisj : fs.Pairwise Field.Disjoint) (hf : f ∈ fs) (hin : f.off + f.len ≤ N) :
    getLE (setFields b fs) f.off f.len = f.val % 256 ^ f.len := by
  induction fs generalizing b with
  | nil => cases hf
  | cons g fs ih =>
  obtain ⟨hg, hrest⟩ := List.pairwise_cons.mp hdisj
  rw [setFields, List.foldl_cons, ← setFields]
  rcases List.mem_cons.mp hf with rfl | hmem
  · rw [getLE_setFields_of_disjoint hg, getLE_setLE_self hin]
  · exact ih hrest hmem

end LittleEndian
