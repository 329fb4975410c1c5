import Xv6.Disk
import Xv6.Lib.Splice

/-!
# Directory entries

A directory is a file that holds 16-byte entries: an inode number, zero for a free entry, and a
name of at most `DIRSIZ` bytes, padded with zeroes.

Names are compared with `strncmp` and stored with `strncpy`. Both depend only on the bytes before
the first zero, at most `DIRSIZ` of them: the `cname` of a buffer.
-/

namespace Xv6.Names

open Splice List

def DIRSIZ : ℕ := 14

/-- `sizeof(struct dirent)`. -/
def DESIZE : ℕ := 16

/-! ### Strings

A buffer is the list of its bytes; behind its end it reads as zero. -/

/-- Compare at most `n` bytes, up to a zero. -/
def strncmp (p q : List UInt8) : ℕ → ℤ
  | 0 => 0
  | n + 1 =>
    if p.headD 0 ≠ 0 ∧ p.headD 0 = q.headD 0 then strncmp p.tail q.tail n
    else (p.headD 0).toNat - (q.headD 0).toNat

/-- What `strncpy` stores in `n` bytes: the bytes up to a zero, then zeroes. -/
def strncpy (t : List UInt8) : ℕ → List UInt8
  | 0 => []
  | n + 1 => if t.headD 0 = 0 then replicate (n + 1) 0 else t.headD 0 :: strncpy t.tail n

def namecmp (s t : List UInt8) : ℤ := strncmp s t DIRSIZ

def cname (s : List UInt8) : List UInt8 := (s.take DIRSIZ).takeWhile (· ≠ 0)

theorem takeWhile_take_succ (s : List UInt8) (n : ℕ) : (s.take (n + 1)).takeWhile (· ≠ 0) =
      if s.headD 0 = 0 then [] else s.headD 0 :: (s.tail.take n).takeWhile (· ≠ 0) := by
  cases s with
  | nil => simp
  | cons c s =>
  by_cases hc : c = 0
  · simp [hc]
  · simp [hc]

theorem strncmp_eq_zero_iff (n : ℕ) : ∀ s t : List UInt8,
    strncmp s t n = 0 ↔ (s.take n).takeWhile (· ≠ 0) = (t.take n).takeWhile (· ≠ 0) := by
  induction n with
  | zero => simp [strncmp]
  | succ n ih =>
  intro s t
  rw [strncmp, takeWhile_take_succ, takeWhile_take_succ]
  generalize s.headD 0 = a
  generalize t.headD 0 = b
  have hab : (a.toNat : ℤ) - b.toNat = 0 ↔ a = b := by
    rw [← UInt8.toNat_inj]
    omega
  by_cases ha : a = 0
  · rw [if_neg (fun h => h.1 ha), if_pos ha, hab, ha]
    by_cases hb : b = 0
    · rw [if_pos hb, hb]
      exact iff_of_true rfl rfl
    · rw [if_neg hb]
      simp only [reduceCtorEq, iff_false]
      exact fun h => hb h.symm
  by_cases he : a = b
  · rw [if_pos ⟨ha, he⟩, ih, if_neg ha, if_neg (he ▸ ha), he]
    simp only [cons.injEq, true_and]
  rw [if_neg (fun h => he h.2), hab, if_neg ha]
  split
  · simp only [he, reduceCtorEq]
  · simp only [he, cons.injEq, false_and]

theorem namecmp_eq_zero_iff (s t : List UInt8) : namecmp s t = 0 ↔ cname s = cname t :=
  strncmp_eq_zero_iff DIRSIZ s t

theorem length_strncpy (n : ℕ) : ∀ t : List UInt8, (strncpy t n).length = n := by
  induction n with
  | zero => intro t; rfl
  | succ n ih =>
  intro t
  rw [strncpy]
  split
  · rw [length_replicate]
  · rw [length_cons, ih]

theorem take_strncpy (n : ℕ) : ∀ t : List UInt8,
    ((strncpy t n).take n).takeWhile (· ≠ 0) = (t.take n).takeWhile (· ≠ 0) := by
  induction n with
  | zero => intro t; rfl
  | succ n ih =>
  intro t
  rw [strncpy]
  split
  · next ht =>
    rw [takeWhile_take_succ, takeWhile_take_succ, if_pos ht, replicate_succ]
    exact if_pos rfl
  next ht =>
  rw [takeWhile_take_succ, takeWhile_take_succ, if_neg ht, if_neg (by exact ht)]
  simp only [headD_cons, tail_cons, ih]

theorem cname_strncpy (t : List UInt8) : cname (strncpy t DIRSIZ) = cname t :=
  take_strncpy DIRSIZ t

/-- `"."`. -/
def dot : List UInt8 := [46]

/-- `".."`. -/
def dotdot : List UInt8 := [46, 46]

/-! ### Entries -/

/-- `struct dirent`. -/
structure Dirent where
  inum : ℕ
  name : List UInt8
  deriving DecidableEq

namespace Dirent

/-- The sixteen bytes of an entry; `inum` is a `ushort`. -/
def encode (de : Dirent) : List UInt8 :=
  UInt8.ofNat de.inum :: UInt8.ofNat (de.inum / 256) :: de.name

def decode (b : List UInt8) : Dirent where
  inum := (b.headD 0).toNat + 256 * (b.tail.headD 0).toNat
  name := b.tail.tail

/-- A free entry: what `memset(&de, 0, sizeof(de))` leaves. -/
def free : Dirent := ⟨0, replicate DIRSIZ 0⟩

theorem decode_encode (de : Dirent) : decode de.encode = ⟨de.inum % 65536, de.name⟩ := by
  simp only [decode, encode, headD_cons, tail_cons, UInt8.toNat_ofNat', Dirent.mk.injEq, and_true]
  omega

theorem length_encode {de : Dirent} (h : de.name.length = DIRSIZ) : de.encode.length = DESIZE := by
  simp only [encode, length_cons, h]
  rfl

end Dirent

/-- Entry `e` of the bytes of a directory; free behind the end. -/
def entry (data : List UInt8) (e : ℕ) : Dirent := .decode (slice data (DESIZE * e) DESIZE)

def nentries (data : List UInt8) : ℕ := data.length / DESIZE

/-- Entry `e` is in use and has the name in the buffer `name`. -/
def Matches (data name : List UInt8) (e : ℕ) : Prop :=
  (entry data e).inum ≠ 0 ∧ namecmp name (entry data e).name = 0

instance (data name : List UInt8) (e : ℕ) : Decidable (Matches data name e) :=
  inferInstanceAs (Decidable (_ ∧ _))

/-- The first entry from `e` on with a name: its index and the inode it names. -/
def findFrom (data name : List UInt8) (e : ℕ) : Option (ℕ × ℕ) :=
  ((range' e (nentries data - e)).find? fun e => Matches data name e).map fun e =>
    (e, (entry data e).inum)

def find (data name : List UInt8) : Option (ℕ × ℕ) := findFrom data name 0

/-- The first free entry from `e` on, or the end. -/
def freeFrom (data : List UInt8) (e : ℕ) : ℕ :=
  ((range' e (nentries data - e)).find? fun e => (entry data e).inum = 0).getD
    (nentries data)

def firstFree (data : List UInt8) : ℕ := freeFrom data 0

/-- No entry from `e` on is in use. -/
def EmptyFrom (data : List UInt8) (e : ℕ) : Prop :=
  ∀ e', e ≤ e' → e' < nentries data → (entry data e').inum = 0

theorem range'_of_lt {e n : ℕ} (h : e < n) :
    range' e (n - e) = e :: range' (e + 1) (n - (e + 1)) := by
  rw [show n - e = n - (e + 1) + 1 by omega, range'_succ]

variable {data name : List UInt8} {e : ℕ}

theorem findFrom_of_lt (h : e < nentries data) : findFrom data name e =
      if Matches data name e then some (e, (entry data e).inum)
      else findFrom data name (e + 1) := by
  rw [findFrom, range'_of_lt h, find?_cons]
  by_cases hm : Matches data name e
  · simp [hm]
  · simp [hm, findFrom]

theorem findFrom_of_le (h : nentries data ≤ e) : findFrom data name e = none := by
  rw [findFrom, Nat.sub_eq_zero_of_le h]
  rfl

variable {data : List UInt8}

theorem freeFrom_of_lt (h : e < nentries data) :
    freeFrom data e = if (entry data e).inum = 0 then e else freeFrom data (e + 1) := by
  rw [freeFrom, range'_of_lt h, find?_cons]
  by_cases hm : (entry data e).inum = 0
  · simp [hm]
  · simp [hm, freeFrom]

theorem freeFrom_of_le (h : nentries data ≤ e) : freeFrom data e = nentries data := by
  rw [freeFrom, Nat.sub_eq_zero_of_le h]
  rfl

theorem emptyFrom_of_lt (h : e < nentries data) :
    EmptyFrom data e ↔ (entry data e).inum = 0 ∧ EmptyFrom data (e + 1) := by
  constructor
  · exact fun he => ⟨he e le_rfl h, fun e' hle => he e' (by omega)⟩
  rintro ⟨h₀, he⟩ e' hle hlt
  rcases eq_or_lt_of_le hle with rfl | hlt'
  · exact h₀
  · exact he e' hlt' hlt

theorem emptyFrom_of_le (h : nentries data ≤ e) : EmptyFrom data e :=
  fun e' hle hlt => absurd hlt (by omega)

theorem find_eq_some {e i : ℕ} (h : find data name = some (e, i)) :
    e < nentries data ∧ (entry data e).inum = i ∧ i ≠ 0 ∧
      cname name = cname (entry data e).name := by
  obtain ⟨e', hfind, he⟩ := Option.map_eq_some_iff.mp h
  obtain ⟨rfl, rfl⟩ := Prod.mk.inj he
  have hm := find?_some hfind
  rw [decide_eq_true_eq] at hm
  have hmem := mem_range'_1.mp (mem_of_find?_eq_some hfind)
  exact ⟨by omega, rfl, hm.1, (namecmp_eq_zero_iff _ _).mp hm.2⟩

theorem find_nil (name : List UInt8) : find [] name = none := findFrom_of_le (by decide)

theorem find_eq_none (h : find data name = none)
    (he : e < nentries data) (hused : (entry data e).inum ≠ 0) :
    cname name ≠ cname (entry data e).name := by
  have hfind := Option.map_eq_none_iff.mp h
  have hnot := find?_eq_none.mp hfind e (mem_range'_1.mpr (by omega))
  intro heq
  exact hnot (decide_eq_true ⟨hused, (namecmp_eq_zero_iff _ _).mpr heq⟩)

theorem firstFree_le (data : List UInt8) : firstFree data ≤ nentries data := by
  unfold firstFree freeFrom
  cases h : (range' 0 (nentries data - 0)).find? fun e => (entry data e).inum = 0 with
  | none => exact le_refl _
  | some e =>
  have := mem_range'_1.mp (mem_of_find?_eq_some h)
  rw [Option.getD_some]
  omega

theorem entry_of_nentries_le (hmod : data.length % DESIZE = 0)
    (h : nentries data ≤ e) : (entry data e).inum = 0 := by
  have hlen : data.length ≤ DESIZE * e := by
    have := Nat.div_add_mod data.length DESIZE
    calc data.length = DESIZE * nentries data := by rw [nentries]; omega
      _ ≤ DESIZE * e := Nat.mul_le_mul_left _ h
  rw [entry, slice, drop_eq_nil_of_le hlen]
  rfl

theorem inum_firstFree (hmod : data.length % DESIZE = 0) :
    (entry data (firstFree data)).inum = 0 := by
  unfold firstFree freeFrom
  cases h : (range' 0 (nentries data - 0)).find? fun e => (entry data e).inum = 0 with
  | none => exact entry_of_nentries_le hmod le_rfl
  | some e =>
    have hzero := find?_some h
    rwa [decide_eq_true_eq] at hzero

theorem entry_flatMap_encode {es : List Dirent} (hes : ∀ de ∈ es, de.name.length = DIRSIZ)
    {k : ℕ} {de : Dirent} (hk : es[k]? = some de) :
    entry (es.flatMap Dirent.encode) k = ⟨de.inum % 65536, de.name⟩ := by
  induction es generalizing k with
  | nil => cases hk
  | cons x es ih =>
  have hlen := Dirent.length_encode (hes x mem_cons_self)
  rw [flatMap_cons, entry, slice]
  cases k with
  | zero =>
    cases hk
    rw [Nat.mul_zero, drop_zero, take_left' hlen, Dirent.decode_encode]
  | succ k =>
  have hoff : DESIZE * (k + 1) = (Dirent.encode x).length + DESIZE * k := by
    rw [hlen, Nat.mul_succ, Nat.add_comm]
  rw [hoff, drop_length_add_append]
  exact ih (fun de hde => hes de (mem_cons_of_mem x hde)) hk

/-! ### Storing an entry -/

/-- The bytes of a directory after entry `e` was stored. -/
def putEntry (data : List UInt8) (e : ℕ) (de : Dirent) : List UInt8 :=
  splice data (DESIZE * e) de.encode

section Put

variable {data : List UInt8} {e : ℕ} {de : Dirent}

theorem offset_le (h : e ≤ nentries data) : DESIZE * e ≤ data.length :=
  (Nat.mul_le_mul_left _ h).trans (Nat.mul_div_le data.length DESIZE)

theorem length_putEntry (h : e ≤ nentries data) (hde : de.name.length = DIRSIZ) :
    (putEntry data e de).length = max data.length (DESIZE * e + DESIZE) := by
  rw [putEntry, length_splice (offset_le h), Dirent.length_encode hde]

theorem entry_putEntry_self (h : e ≤ nentries data) (hde : de.name.length = DIRSIZ)
    (hi : de.inum < 65536) : entry (putEntry data e de) e = de := by
  have hlen := Dirent.length_encode hde
  rw [entry, putEntry, ← hlen, slice_splice_self (hlen ▸ offset_le h), Dirent.decode_encode,
    Nat.mod_eq_of_lt hi]

theorem entry_putEntry_of_ne (h : e ≤ nentries data) (hde : de.name.length = DIRSIZ) {e' : ℕ}
    (hne : e' ≠ e) : entry (putEntry data e de) e' = entry data e' := by
  have hlen := Dirent.length_encode hde
  rw [entry, putEntry, slice_splice_of_disjoint (offset_le h), entry]
  rw [hlen, DESIZE]
  omega

theorem nentries_putEntry (hmod : data.length % DESIZE = 0) (h : e ≤ nentries data)
    (hde : de.name.length = DIRSIZ) : (putEntry data e de).length % DESIZE = 0 ∧
      nentries (putEntry data e de) = max (nentries data) (e + 1) := by
  have hlen := length_putEntry h hde
  rw [nentries, nentries, hlen]
  rw [nentries] at h
  rw [DESIZE] at *
  omega

end Put

/-! ### New directories -/

/-- The first entry of a new directory `i`. -/
def dotEntry (i : ℕ) : List UInt8 := putEntry [] 0 ⟨i, strncpy dot DIRSIZ⟩

/-- The entries of a new directory `i` in directory `d`. -/
def dotData (i d : ℕ) : List UInt8 := putEntry (dotEntry i) 1 ⟨d, strncpy dotdot DIRSIZ⟩

section Dots

variable {i d : ℕ}

theorem nentries_dotEntry (i : ℕ) : nentries (dotEntry i) = 1 := by
  rw [dotEntry, (nentries_putEntry rfl (Nat.zero_le _) rfl).2]
  rfl

theorem entry_dotEntry (hi : i < 65536) : entry (dotEntry i) 0 = ⟨i, strncpy dot DIRSIZ⟩ :=
  entry_putEntry_self (Nat.zero_le _) rfl hi

theorem firstFree_dotEntry (h₀ : i ≠ 0) (hi : i < 65536) : firstFree (dotEntry i) = 1 := by
  have hn := nentries_dotEntry i
  rw [firstFree, freeFrom_of_lt (by omega), entry_dotEntry hi, if_neg h₀, freeFrom_of_le (by omega),
    hn]

theorem cname_dot_ne : cname dotdot ≠ cname (strncpy dot DIRSIZ) := by decide

theorem find_dotEntry (hi : i < 65536) : find (dotEntry i) dotdot = none := by
  have hn := nentries_dotEntry i
  have hne : ¬ Matches (dotEntry i) dotdot 0 := by
    rw [Matches, entry_dotEntry hi, namecmp_eq_zero_iff]
    exact fun h => cname_dot_ne h.2
  rw [find, findFrom_of_lt (by omega), if_neg hne, findFrom_of_le (by omega)]

theorem length_dotData (i d : ℕ) : (dotData i d).length = 2 * DESIZE := by
  rw [dotData, length_putEntry (nentries_dotEntry i).ge rfl, dotEntry,
    length_putEntry (Nat.zero_le _) rfl]
  rfl

theorem entry_dotData_zero (hi : i < 65536) : entry (dotData i d) 0 = ⟨i, strncpy dot DIRSIZ⟩ := by
  rw [dotData, entry_putEntry_of_ne (nentries_dotEntry i).ge rfl Nat.zero_ne_one, entry_dotEntry hi]

theorem entry_dotData_one (hd : d < 65536) : entry (dotData i d) 1 = ⟨d, strncpy dotdot DIRSIZ⟩ :=
  entry_putEntry_self (nentries_dotEntry i).ge rfl hd

end Dots

end Xv6.Names
