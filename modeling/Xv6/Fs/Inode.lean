import Mathlib.Data.Fintype.Basic
import Xv6.Disk

/-!
# Inodes and their place in a block

The in-memory copy of an inode, with the fields it shares with `struct dinode`, and the encoding of
a `dinode` in its slot of an inode block: four shorts, the size, and the block addresses, 64 bytes
in all.
-/

namespace Xv6

open LittleEndian List

/-- The fields of `struct dinode`, which `struct inode` copies. -/
@[ext]
structure Inode where
  /-- File type; `0` for a free inode. -/
  type : Int16
  /-- Major device number (`T_DEV` only). -/
  major : Int16
  /-- Minor device number (`T_DEV` only). -/
  minor : Int16
  nlink : Int16
  size : UInt32
  /-- Data block addresses: `NDIRECT` direct ones and the indirect block. -/
  addrs : Fin (NDIRECT + 1) → UInt32
  deriving DecidableEq

def T_DIR : Int16 := 1
def T_FILE : Int16 := 2
def T_DEV : Int16 := 3

namespace Inode

/-- `ip->addrs[k]`. -/
def addr (ip : Inode) (k : ℕ) : ℕ := if h : k < NDIRECT + 1 then (ip.addrs ⟨k, h⟩).toNat else 0

/-- `ip->addrs[k] = b`. -/
def setAddr (ip : Inode) (k b : ℕ) : Inode :=
  { ip with addrs := fun j => if j = k then UInt32.ofNat b else ip.addrs j }

theorem addr_setAddr {ip : Inode} {k b : ℕ} (hk : k < NDIRECT + 1) (hb : b < 2 ^ 32) (j : ℕ) :
    (ip.setAddr k b).addr j = if j = k then b else ip.addr j := by
  unfold addr setAddr
  by_cases hj : j < NDIRECT + 1
  · by_cases hjk : j = k
    · simpa [hjk, hk] using hb
    · simp [hj, hjk]
  · have hjk : j ≠ k := by omega
    simp [hj, hjk]

@[simp] theorem type_setAddr (ip : Inode) (k b : ℕ) : (ip.setAddr k b).type = ip.type := rfl

/-- The bytes of a `dinode` at offset `o`. -/
def fields (ip : Inode) (o : ℕ) : List Field :=
  [⟨o, 2, ip.type.toUInt16.toNat⟩, ⟨o + 2, 2, ip.major.toUInt16.toNat⟩,
    ⟨o + 4, 2, ip.minor.toUInt16.toNat⟩, ⟨o + 6, 2, ip.nlink.toUInt16.toNat⟩,
    ⟨o + 8, 4, ip.size.toNat⟩] ++
  (finRange (NDIRECT + 1)).map fun k => ⟨o + 12 + 4 * k, 4, (ip.addrs k).toNat⟩

end Inode

/-- A `short` in a block. -/
def getShort (b : Block) (off : ℕ) : Int16 := (UInt16.ofNat (getLE b off 2)).toInt16

/-- `*((struct dinode*)bp->data + k)`. -/
def getDinode (b : Block) (k : ℕ) : Inode where
  type := getShort b (64 * k)
  major := getShort b (64 * k + 2)
  minor := getShort b (64 * k + 4)
  nlink := getShort b (64 * k + 6)
  size := UInt32.ofNat (getLE b (64 * k + 8) 4)
  addrs := fun j => UInt32.ofNat (getLE b (64 * k + 12 + 4 * j) 4)

/-- Store every field of a `dinode`. -/
def putDinode (b : Block) (k : ℕ) (ip : Inode) : Block := setFields b (ip.fields (64 * k))

/-! ### Read after write -/

variable {ip : Inode}

theorem Inode.fields_within {o : ℕ} : ∀ f ∈ ip.fields o, o ≤ f.off ∧ f.off + f.len ≤ o + 64 := by
  have hN : NDIRECT = 12 := rfl
  intro f hf
  simp only [fields, mem_append, mem_cons, not_mem_nil, or_false, mem_map,
    mem_finRange, true_and] at hf
  rcases hf with (rfl | rfl | rfl | rfl | rfl) | ⟨k, rfl⟩
  case inr =>
    have := k.isLt
    constructor <;> dsimp only <;> omega
  all_goals constructor <;> dsimp only <;> omega

theorem Inode.pairwise_fields (ip : Inode) (o : ℕ) : (ip.fields o).Pairwise Field.Disjoint := by
  rw [fields, pairwise_append]
  refine ⟨?_, ?_, ?_⟩
  · simp [Field.Disjoint]
  · rw [pairwise_map]
    refine (pairwise_lt_finRange _).imp fun {j k} hjk => ?_
    have : (j : ℕ) < k := hjk
    left
    simp only
    omega
  · intro f hf g hg
    simp only [mem_cons, not_mem_nil, or_false, mem_map] at hf hg
    obtain ⟨k, -, rfl⟩ := hg
    left
    rcases hf with rfl | rfl | rfl | rfl | rfl <;> dsimp only <;> omega

variable {b : Block}

theorem getLE_putDinode {k : ℕ} {f : Field} (hk : k < IPB) (hf : f ∈ ip.fields (64 * k)) :
    getLE (putDinode b k ip) f.off f.len = f.val % 256 ^ f.len := by
  refine getLE_setFields_of_mem (ip.pairwise_fields _) hf ?_
  have hwithin := (Inode.fields_within f hf).2
  have hI : IPB = 8 := rfl
  have hB : BSIZE = 512 := rfl
  omega

theorem getShort_putDinode {k off : ℕ} {x : Int16} (hk : k < IPB)
    (hf : ⟨off, 2, x.toUInt16.toNat⟩ ∈ ip.fields (64 * k)) :
    getShort (putDinode b k ip) off = x := by
  have hlt := x.toUInt16.toNat_lt
  have hget := getLE_putDinode (b := b) hk hf
  dsimp only at hget
  rw [getShort, hget, Nat.mod_eq_of_lt (by omega), UInt16.ofNat_toNat]
  rfl

theorem getUint_putDinode {k off : ℕ} {x : UInt32} (hk : k < IPB)
    (hf : ⟨off, 4, x.toNat⟩ ∈ ip.fields (64 * k)) :
    UInt32.ofNat (getLE (putDinode b k ip) off 4) = x := by
  have hlt := x.toNat_lt
  have hget := getLE_putDinode (b := b) hk hf
  dsimp only at hget
  rw [hget, Nat.mod_eq_of_lt (by omega), UInt32.ofNat_toNat]

theorem getDinode_putDinode_self {k : ℕ} (hk : k < IPB) : getDinode (putDinode b k ip) k = ip := by
  ext1
  iterate 4 · exact getShort_putDinode hk (by simp [Inode.fields])
  · exact getUint_putDinode hk (by simp [Inode.fields])
  · funext j
    refine getUint_putDinode hk (mem_append_right _ ?_)
    exact mem_map.mpr ⟨j, mem_finRange j, rfl⟩

theorem getDinode_putDinode_of_ne {k l : ℕ} (h : l ≠ k) :
    getDinode (putDinode b k ip) l = getDinode b l := by
  have hother : ∀ off len, 64 * l ≤ off → off + len ≤ 64 * l + 64 →
      getLE (putDinode b k ip) off len = getLE b off len := fun off len h1 h2 =>
    getLE_setFields_of_disjoint fun f hf => by
      have := Inode.fields_within f hf
      omega
  have hshort : ∀ off, 64 * l ≤ off → off + 2 ≤ 64 * l + 64 →
      getShort (putDinode b k ip) off = getShort b off := fun off h1 h2 => by
    rw [getShort, getShort, hother off 2 h1 h2]
  have hN : NDIRECT = 12 := rfl
  ext1
  iterate 4 · exact hshort _ (by omega) (by omega)
  · exact congrArg UInt32.ofNat (hother _ _ (by omega) (by omega))
  · funext j
    have := j.isLt
    exact congrArg UInt32.ofNat (hother _ _ (by omega) (by omega))

end Xv6
