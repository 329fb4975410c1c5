import Xv6.Fs.View
import Xv6.Lib.Ownership

/-!
# Who owns which block

A slot is a place that can hold a block number: an entry of some inode's `addrs[]`, or an entry of
its indirect block. A view is well formed when the slots of allocated inodes own exactly the marked
data blocks, one slot each, and every metadata block is marked.
-/

namespace Xv6.Fs

open LittleEndian Ownership Function

inductive Slot where
  /-- `addrs[k]` of inode `i`. -/
  | addr (i k : ℕ)
  /-- Entry `j` of the indirect block of inode `i`. -/
  | entry (i j : ℕ)
  deriving DecidableEq

def Slot.owner : Slot → ℕ
  | .addr i _ => i
  | .entry i _ => i

def Slot.IsData : Slot → Prop
  | .addr _ k => k < NDIRECT
  | .entry _ _ => True

/-- The slot for block `bn` of inode `i`. -/
def fileSlot (i bn : ℕ) : Slot := if bn < NDIRECT then .addr i bn else .entry i (bn - NDIRECT)

theorem isData_fileSlot (i bn : ℕ) : (fileSlot i bn).IsData := by
  unfold fileSlot
  split
  · assumption
  · trivial

theorem owner_fileSlot (i bn : ℕ) : (fileSlot i bn).owner = i := by
  unfold fileSlot
  split <;> rfl

theorem fileSlot_injective {i bn bn' : ℕ} (h : fileSlot i bn = fileSlot i bn') : bn = bn' := by
  unfold fileSlot at h
  split at h <;> split at h
  · exact (Slot.addr.inj h).2
  · cases h
  · cases h
  · have := (Slot.entry.inj h).2
    omega

namespace View

variable (v : View)

/-- The indirect block of an allocated inode, or `0`. -/
def indirect (i : ℕ) : ℕ := if (v.inode i).type = 0 then 0 else (v.inode i).addr NDIRECT

def slot : Slot → ℕ
  | .addr i k => if (v.inode i).type = 0 then 0 else (v.inode i).addr k
  | .entry i j =>
    if v.indirect i = 0 ∨ NINDIRECT ≤ j then 0 else getWord (v.data (v.indirect i)) j

theorem slot_addr (i k : ℕ) :
    v.slot (.addr i k) = if (v.inode i).type = 0 then 0 else (v.inode i).addr k := rfl

theorem slot_entry (i j : ℕ) : v.slot (.entry i j) =
    if v.indirect i = 0 ∨ NINDIRECT ≤ j then 0 else getWord (v.data (v.indirect i)) j := rfl

def block (a : Slot) : Block := if v.slot a = 0 then zeroBlock else v.data (v.slot a)

end View

/-- Every block number in use occurs in one slot, lies in the data area and is marked; every
metadata block is marked; every marked data block is in a slot. -/
structure WellFormed (L : Layout) (v : View) : Prop where
  owned : Owned v.slot v.bit fun b => L.datastart ≤ b ∧ b < L.size
  metadata : ∀ b < L.datastart, v.bit b = true

variable {L : Layout} {v : View}

theorem WellFormed.bounds (h : WellFormed L v) {a : Slot} (ha : v.slot a ≠ 0) :
    L.datastart ≤ v.slot a ∧ v.slot a < L.size := (h.owned.sound a ha).1

theorem size_lt_uint : L.size < 2 ^ 32 := by
  have := L.size_le
  omega

theorem getWord_zeroBlock (j : ℕ) : getWord zeroBlock j = 0 := by
  simp [getWord, getLE, byteAt, zeroBlock]

structure Fresh (L : Layout) (v : View) (b : ℕ) : Prop where
  data : L.datastart ≤ b
  lt : b < L.size
  free : v.bit b = false

theorem Fresh.ne_zero {b : ℕ} (h : Fresh L v b) : b ≠ 0 := by
  have := datastart_pos (L := L)
  have := h.data
  omega

theorem Fresh.ne_slot {b : ℕ} (h : Fresh L v b) (hwf : WellFormed L v) (a : Slot) :
    v.slot a ≠ b := hwf.owned.ne_of_unused h.ne_zero h.free a

/-! ### Filling a slot -/

/-- Block `b` becomes `addrs[k]` of inode `i`. -/
def View.takeAddr (v : View) (i k b : ℕ) : View :=
  { v.alloc b with inode := update v.inode i ((v.inode i).setAddr k b) }

/-- Block `b` becomes entry `j` of the indirect block of inode `i`. -/
def View.takeEntry (v : View) (i j b : ℕ) : View :=
  let ind := v.indirect i
  { v.alloc b with data := update (v.alloc b).data ind (setWord (v.data ind) j b) }

theorem slot_takeAddr_addr {i k b : ℕ} (hlive : (v.inode i).type ≠ 0) (hk : k < NDIRECT + 1)
    (hb : b < 2 ^ 32) (j l : ℕ) :
    (v.takeAddr i k b).slot (.addr j l) = if j = i ∧ l = k then b else v.slot (.addr j l) := by
  rw [View.slot_addr, View.slot_addr, View.takeAddr]
  rcases eq_or_ne j i with rfl | hj
  · simp [hlive, Inode.addr_setAddr hk hb]
  · simp [hj]

theorem slot_takeAddr {i k b : ℕ} (hwf : WellFormed L v) (hlive : (v.inode i).type ≠ 0)
    (hk : k < NDIRECT + 1) (hempty : v.slot (.addr i k) = 0) (hb : Fresh L v b) :
    (v.takeAddr i k b).slot = update v.slot (.addr i k) b := by
  have hlt : b < 2 ^ 32 := hb.lt.trans size_lt_uint
  funext a
  cases a with
  | addr j l =>
    rw [slot_takeAddr_addr hlive hk hlt]
    by_cases h : j = i ∧ l = k
    · rw [if_pos h, h.1, h.2, update_self]
    · rw [if_neg h, update_of_ne (by simpa using h)]
  | entry j l =>
  have hind : (v.takeAddr i k b).indirect j =
      if j = i ∧ NDIRECT = k then b else v.indirect j := slot_takeAddr_addr hlive hk hlt j NDIRECT
  rw [update_of_ne (by simp), View.slot_entry, View.slot_entry, hind]
  by_cases h : j = i ∧ NDIRECT = k
  · -- the new indirect block is zero
    obtain ⟨rfl, rfl⟩ := h
    have hnone : v.indirect j = 0 := hempty
    simp [hnone, View.takeAddr, View.alloc, getWord_zeroBlock]
  · have hne : v.indirect j ≠ b := hb.ne_slot hwf (.addr j NDIRECT)
    simp [h, View.takeAddr, View.alloc, update_of_ne hne]

theorem slot_takeEntry {i j b : ℕ} (hwf : WellFormed L v) (hind : v.indirect i ≠ 0)
    (hj : j < NINDIRECT) (hb : Fresh L v b) :
    (v.takeEntry i j b).slot = update v.slot (.entry i j) b := by
  have hlt : b < 2 ^ 32 := hb.lt.trans size_lt_uint
  funext a
  cases a with
  | addr k l => rw [update_of_ne (by simp)]; rfl
  | entry k l =>
  have hsame : (v.takeEntry i j b).indirect k = v.indirect k := rfl
  rw [View.slot_entry, hsame]
  by_cases hki : k = i
  · subst hki
    have hdata : (v.takeEntry k j b).data (v.indirect k) = setWord (v.data (v.indirect k)) j b :=
      update_self ..
    rw [hdata]
    by_cases hlj : l = j
    · subst hlj
      rw [update_self, getWord_setWord_self hj hlt, if_neg (by omega)]
    · rw [update_of_ne (by simpa using hlj), getWord_setWord_of_ne hlj, View.slot_entry]
  rw [update_of_ne (by simp [hki]), View.slot_entry]
  by_cases hk : v.indirect k = 0
  · rw [if_pos (.inl hk), if_pos (.inl hk)]
  have hne : v.indirect k ≠ v.indirect i := fun heq => by
    have := hwf.owned.inj (.addr k NDIRECT) (.addr i NDIRECT) hk heq
    exact hki (Slot.addr.inj this).1
  have hne' : v.indirect k ≠ b := hb.ne_slot hwf (.addr k NDIRECT)
  simp [View.takeEntry, View.alloc, update_of_ne hne, update_of_ne hne']

theorem WellFormed.take {v' : View} {a : Slot} {b : ℕ} (hwf : WellFormed L v)
    (hempty : v.slot a = 0) (hb : Fresh L v b) (hslot : v'.slot = update v.slot a b)
    (hbit : v'.bit = update v.bit b true) : WellFormed L v' where
  owned := by
    rw [hslot, hbit]
    exact hwf.owned.alloc hempty hb.ne_zero ⟨hb.data, hb.lt⟩ hb.free
  metadata c hc := by
    have hne : c ≠ b := by
      have := hb.data
      omega
    rw [hbit, update_of_ne hne]
    exact hwf.metadata c hc

/-! ### Writing a data block -/

theorem View.data_write_of_ne {b c : ℕ} (h : c ≠ b) (x : Block) :
    (v.write b x).data c = v.data c := update_of_ne h ..

theorem slot_write {a : Slot} (hwf : WellFormed L v) (ha : a.IsData) (x : Block) :
    (v.write (v.slot a) x).slot = v.slot := by
  funext c
  cases c with
  | addr j l => rfl
  | entry j l =>
  have hsame : (v.write (v.slot a) x).indirect j = v.indirect j := rfl
  rw [View.slot_entry, View.slot_entry, hsame]
  by_cases hj : v.indirect j = 0
  · rw [if_pos (.inl hj), if_pos (.inl hj)]
  have hother : v.indirect j ≠ v.slot a := fun heq => by
    have hslot := hwf.owned.inj (.addr j NDIRECT) a hj heq
    subst hslot
    exact absurd ha (Nat.lt_irrefl NDIRECT)
  rw [View.data_write_of_ne hother]

theorem WellFormed.write {a : Slot} (hwf : WellFormed L v) (ha : a.IsData) (x : Block) :
    WellFormed L (v.write (v.slot a) x) where
  owned := by
    rw [slot_write hwf ha]
    exact hwf.owned
  metadata := hwf.metadata

theorem block_write {a c : Slot} (hwf : WellFormed L v) (ha : a.IsData) (hne : v.slot a ≠ 0)
    (x : Block) : (v.write (v.slot a) x).block c = if c = a then x else v.block c := by
  unfold View.block
  rw [slot_write hwf ha]
  by_cases hca : c = a
  · subst hca
    rw [if_neg hne, if_pos rfl]
    exact update_self ..
  rw [if_neg hca]
  by_cases hc : v.slot c = 0
  · rw [if_pos hc, if_pos hc]
  · have hother : v.slot c ≠ v.slot a := fun heq => hca (hwf.owned.inj c a hc heq)
    rw [if_neg hc, if_neg hc, View.data_write_of_ne hother]

/-! ### Changing the size -/

/-- `ip->size = n`. -/
def View.setSize (v : View) (i : ℕ) (n : UInt32) : View :=
  { v with inode := update v.inode i { v.inode i with size := n } }

theorem slot_setSize (i : ℕ) (n : UInt32) : (v.setSize i n).slot = v.slot := by
  have hinode : ∀ j, ((v.setSize i n).inode j).type = (v.inode j).type ∧
      ((v.setSize i n).inode j).addrs = (v.inode j).addrs := by
    intro j
    rcases eq_or_ne j i with rfl | hj
    · simp [View.setSize]
    · simp [View.setSize, hj]
  have haddr : ∀ j k, (v.setSize i n).slot (.addr j k) = v.slot (.addr j k) := by
    intro j k
    simp only [View.slot_addr, Inode.addr, (hinode j).1, (hinode j).2]
  funext a
  cases a with
  | addr j k => exact haddr j k
  | entry j l =>
  have hind : (v.setSize i n).indirect j = v.indirect j := haddr j NDIRECT
  rw [View.slot_entry, View.slot_entry, hind]
  rfl

theorem WellFormed.setSize (hwf : WellFormed L v) (i : ℕ) (n : UInt32) :
    WellFormed L (v.setSize i n) where
  owned := by
    rw [slot_setSize]
    exact hwf.owned
  metadata := hwf.metadata

theorem block_setSize (i : ℕ) (n : UInt32) (a : Slot) : (v.setSize i n).block a = v.block a := by
  unfold View.block
  rw [slot_setSize]
  rfl

end Xv6.Fs
