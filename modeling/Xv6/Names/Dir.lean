import Xv6.Names.Calls
import Xv6.Names.Refs

/-!
# Directories on views

What the loops over a directory compute, for a locked directory of whole entries: `dirlookup` gets
the inode that `find` finds, `dirlink` stores an entry at `firstFree`, and `isdirempty` tests
`EmptyFrom`.

`dirlink` drops the inode it finds under a name already taken. When that is the directory itself,
the lock that `iput` wants is held.
-/

namespace Xv6.Names

open Splice Hoare

/-- The bytes of a directory: whole entries, and not more than a file can hold. -/
structure DirData (data : List UInt8) : Prop where
  mod : data.length % DESIZE = 0
  le : data.length ≤ MAXFILE * BSIZE

theorem DirData.length_eq {data : List UInt8} (h : DirData data) :
    data.length = DESIZE * nentries data := by
  have := Nat.div_add_mod data.length DESIZE
  rw [h.mod, Nat.add_zero] at this
  exact this.symm

theorem DirData.offset_lt {data : List UInt8} (h : DirData data) {e : ℕ} :
    DESIZE * e < data.length ↔ e < nentries data := by
  rw [h.length_eq]
  exact Nat.mul_lt_mul_left (by decide)

theorem DirData.fuel {data : List UInt8} (h : DirData data) (e : ℕ) :
    nentries data - e < data.length + 1 := by
  have hlen := h.length_eq
  rw [DESIZE] at hlen
  omega

variable {v : View} {dp : Ptr} {d : ℕ} {E : Stop → Prop}

section Loops

variable (hat : v.At dp d) (hl : v.locked dp = true) (hdir : DirData (v.inode d).data)

include hat hl hdir

theorem via_readEntry {e : ℕ} {R : ℤ × List UInt8 → View → Prop}
    (he : e < nentries (v.inode d).data)
    (h : ∀ b, Dirent.decode b = entry (v.inode d).data e → R (DESIZE, b) v) :
    Via Shows (readi dp (DESIZE * e) DESIZE) R E v := by
  refine via_readi hat hl ?_ hdir.le (h _ rfl)
  have hlen := hdir.length_eq
  rw [Dinode.size, hlen]
  calc DESIZE * e + DESIZE = DESIZE * (e + 1) := rfl
    _ ≤ DESIZE * nentries (v.inode d).data := Nat.mul_le_mul_left _ he

theorem via_round {α : Type} {e : ℕ} {k : ℤ × List UInt8 → KM α} {last : KM α}
    {R : α → View → Prop}
    (hin : e < nentries (v.inode d).data → ∀ b, Dirent.decode b = entry (v.inode d).data e →
      Via Shows (k (DESIZE, b)) R E v)
    (hend : nentries (v.inode d).data ≤ e → Via Shows last R E v) :
    Via Shows (do
      let ip ← inode dp
      if DESIZE * e < ip.size then readi dp (DESIZE * e) DESIZE >>= k else last) R E v := by
  refine Via.cont (via_inode hat hl ?_)
  rw [Dinode.size]
  refine Via.ite (fun hlt => ?_) fun hge => hend (not_lt.mp (mt hdir.offset_lt.mpr hge))
  have he := hdir.offset_lt.mp hlt
  exact Via.cont (via_readEntry (e := e) hat hl hdir he fun b hb => hin he b hb)

/-! ### The loops -/

theorem via_dirlookupLoop {name : List UInt8} {R : Option (Ptr × ℕ) → View → Prop}
    (hkept : v.Kept) : ∀ fuel e, nentries (v.inode d).data - e < fuel →
      (findFrom (v.inode d).data name e = none → R none v) →
      (∀ ip e' i, findFrom (v.inode d).data name e = some (e', i) → v.Gets ip i →
        R (some (ip, DESIZE * e')) (v.take ip i)) →
      (∀ e' i, findFrom (v.inode d).data name e = some (e', i) → v.Full i → E .igetNoInodes) →
      Via Shows (dirlookupLoop dp name fuel (DESIZE * e)) R E v := by
  intro fuel
  induction fuel with
  | zero => exact fun e hfuel => absurd hfuel (Nat.not_lt_zero _)
  | succ fuel ih =>
  intro e hfuel hnone hsome hE
  rw [dirlookupLoop]
  refine via_round hat hl hdir (fun he b hb => ?_) fun hend => ?_
  · rw [findFrom_of_lt he] at hnone hsome hE
    refine Via.ite (fun hr => absurd rfl hr) fun _ => ?_
    rw [hb]
    refine Via.ite (fun h0 => ?_) fun h0 => ?_
    · rw [if_neg (fun hm => hm.1 h0)] at hnone hsome hE
      exact ih (e + 1) (by omega) hnone hsome hE
    refine Via.ite (fun hm => ?_) fun hm => ?_
    · rw [if_pos ⟨h0, hm⟩] at hnone hsome hE
      exact Via.cont (via_iget (hkept _) (fun ip hg => Via.pure (hsome ip _ _ rfl hg))
        fun hn hf => hE _ _ rfl ⟨hn, hf⟩)
    · rw [if_neg (fun hm' => hm hm'.2)] at hnone hsome hE
      exact ih (e + 1) (by omega) hnone hsome hE
  · exact Via.pure (hnone (findFrom_of_le hend))

theorem via_dirlinkLoop {R : ℕ → View → Prop} :
    ∀ fuel e, e ≤ nentries (v.inode d).data → nentries (v.inode d).data - e < fuel →
      R (DESIZE * freeFrom (v.inode d).data e) v →
      Via Shows (dirlinkLoop dp fuel (DESIZE * e)) R E v := by
  intro fuel
  induction fuel with
  | zero => exact fun e _ hfuel => absurd hfuel (Nat.not_lt_zero _)
  | succ fuel ih =>
  intro e hle hfuel h
  rw [dirlinkLoop]
  refine via_round hat hl hdir (fun he b hb => ?_) fun hend => ?_
  · rw [freeFrom_of_lt he] at h
    refine Via.ite (fun hr => absurd rfl hr) fun _ => ?_
    rw [hb]
    refine Via.ite (fun h0 => ?_) fun h0 => ?_
    · rw [if_pos h0] at h
      exact Via.pure h
    · rw [if_neg h0] at h
      exact ih (e + 1) he (by omega) h
  · rw [freeFrom_of_le hend, ← le_antisymm hle hend] at h
    exact Via.pure h

theorem via_isdiremptyLoop {R : Bool → View → Prop} :
    ∀ fuel e, nentries (v.inode d).data - e < fuel →
      (∀ b, (b = true ↔ EmptyFrom (v.inode d).data e) → R b v) →
      Via Shows (isdiremptyLoop dp fuel (DESIZE * e)) R E v := by
  intro fuel
  induction fuel with
  | zero => exact fun e hfuel => absurd hfuel (Nat.not_lt_zero _)
  | succ fuel ih =>
  intro e hfuel h
  rw [isdiremptyLoop]
  refine via_round hat hl hdir (fun he b hb => ?_) fun hend => ?_
  · rw [emptyFrom_of_lt he] at h
    refine Via.ite (fun hr => absurd rfl hr) fun _ => ?_
    rw [hb]
    refine Via.ite (fun h0 => ?_) fun h0 => ?_
    · exact Via.pure (h false ⟨fun hf => absurd hf Bool.false_ne_true, fun hf => absurd hf.1 h0⟩)
    · refine ih (e + 1) (by omega) fun b hb => h b ?_
      rw [hb]
      exact ⟨fun hemp => ⟨not_not.mp h0, hemp⟩, fun hemp => hemp.2⟩
  · exact Via.pure (h true ⟨fun _ => emptyFrom_of_le hend, fun _ => rfl⟩)

theorem via_isdirempty {R : Bool → View → Prop}
    (h : ∀ b, (b = true ↔ EmptyFrom (v.inode d).data 2) → R b v) :
    Via Shows (isdirempty dp) R E v := by
  refine Via.cont (via_inode hat hl ?_)
  exact via_isdiremptyLoop hat hl hdir _ 2 (hdir.fuel 2) h

end Loops

/-! ### Looking up and storing a name -/

/-- The directory after `dirlink` stored a new entry. -/
def Dinode.addEntry (dip : Dinode) (name : List UInt8) (inum : ℕ) : Dinode :=
  { dip with data := putEntry dip.data (firstFree dip.data) ⟨inum, strncpy name DIRSIZ⟩ }

section Names

variable {name : List UInt8} {inum e i : ℕ} (hat : v.At dp d) (hl : v.locked dp = true)
  (htype : (v.inode d).type = T_DIR) (hdir : DirData (v.inode d).data) (hkept : v.Kept)

include hat hl htype hdir hkept

theorem via_dirlookup {R : Option (Ptr × ℕ) → View → Prop}
    (hnone : find (v.inode d).data name = none → R none v)
    (hsome : ∀ ip e i, find (v.inode d).data name = some (e, i) → v.Gets ip i →
      R (some (ip, DESIZE * e)) (v.take ip i))
    (hE : ∀ e i, find (v.inode d).data name = some (e, i) → v.Full i → E .igetNoInodes) :
    Via Shows (dirlookup dp name) R E v := by
  refine Via.cont (via_inode hat hl ?_)
  rw [if_neg (not_not.mpr htype)]
  exact via_dirlookupLoop hat hl hdir hkept _ 0 (hdir.fuel 0) hnone hsome hE

theorem via_dirlookup_some {R : Option (Ptr × ℕ) → View → Prop}
    (hsome : find (v.inode d).data name = some (e, i))
    (h : ∀ ip, v.Gets ip i → R (some (ip, DESIZE * e)) (v.take ip i))
    (hE : v.Full i → E .igetNoInodes) : Via Shows (dirlookup dp name) R E v := by
  refine via_dirlookup hat hl htype hdir hkept (fun hn => ?_) (fun ip e' i' hs hg => ?_)
    fun e' i' hs hf => ?_
  · rw [hsome] at hn
    cases hn
  · rw [hsome] at hs
    cases hs
    exact h ip hg
  · rw [hsome] at hs
    cases hs
    exact hE hf

variable {R : ℤ → View → Prop}

section

variable (hnone : find (v.inode d).data name = none)
  (h : DESIZE * firstFree (v.inode d).data + DESIZE ≤ MAXFILE * BSIZE →
    R 0 (v.setInode d ((v.inode d).addEntry name inum)))

include hnone h

theorem via_dirlink_add
    (hE : MAXFILE * BSIZE < DESIZE * firstFree (v.inode d).data + DESIZE → E .dirlink) :
    Via Shows (dirlink dp name inum) R E v := by
  have hlen : (⟨inum, strncpy name DIRSIZ⟩ : Dirent).encode.length = DESIZE :=
    Dirent.length_encode (length_strncpy DIRSIZ name)
  have hfree : DESIZE * firstFree (v.inode d).data ≤ (v.inode d).size :=
    offset_le (firstFree_le _)
  refine Via.cont (via_dirlookup hat hl htype hdir hkept (fun _ => ?_) (fun ip e i hs => ?_)
    fun e i hs => ?_)
  rotate_left
  · rw [hnone] at hs
    cases hs
  · rw [hnone] at hs
    cases hs
  refine Via.cont (via_inode hat hl ?_)
  refine Via.cont (via_dirlinkLoop hat hl hdir _ 0 (Nat.zero_le _) (hdir.fuel 0) ?_)
  refine Via.cont (via_writei hat hl hfree hdir.le (hlen ▸ by decide) (fun hfit => ?_)
    fun hno => ?_)
  · rw [hlen] at hfit ⊢
    rw [if_neg (not_not.mpr rfl)]
    exact Via.pure (h hfit)
  · rw [if_pos (by decide)]
    exact Via.throw (hE (hlen ▸ hno))

theorem via_dirlink_new (hE : E .dirlink) : Via Shows (dirlink dp name inum) R E v :=
  via_dirlink_add hat hl htype hdir hkept hnone h fun _ => hE

end

section Found

variable (hsome : find (v.inode d).data name = some (e, i))

include hsome

theorem via_dirlink_taken (hun : ∀ ip, v.Gets ip i → v.locked ip = false) (h : R (-1) v)
    (hE : v.Full i → E .igetNoInodes) : Via Shows (dirlink dp name inum) R E v := by
  refine Via.cont (via_dirlookup_some hat hl htype hdir hkept hsome (fun ip hg => ?_) hE)
  refine Via.seq (u := v) (via_iput hg.at_take (hun ip hg) fun _ => View.put_take hg hkept) ?_
  exact Via.pure h

theorem via_dirlink_found (honly : ∀ ip, v.locked ip = true → ip = dp) (hne : i ≠ d)
    (h : R (-1) v) (hE : v.Full i → E .igetNoInodes) : Via Shows (dirlink dp name inum) R E v := by
  refine via_dirlink_taken hat hl htype hdir hkept hsome (fun ip hg => ?_) h hE
  rw [Bool.eq_false_iff]
  intro hlock
  exact hg.ne_of_at hat hne.symm (honly ip hlock).symm

theorem via_dirlink_locked {ip : Ptr} (hip : v.At ip i) (hlock : v.locked ip = true)
    (hE : E .deadlock) : Via Shows (dirlink dp name inum) R E v := by
  refine Via.cont (via_dirlookup_some hat hl htype hdir hkept hsome (fun ip' hg => ?_) fun hf => ?_)
  · obtain rfl := hg.eq_of_at hip
    exact Via.cont (via_iput_locked hlock hE)
  · exact absurd ⟨ip, hip⟩ hf.1

theorem via_dirlink_full (hfull : v.Full i) (hE : E .igetNoInodes) :
    Via Shows (dirlink dp name inum) R E v := by
  refine Via.cont (via_dirlookup_some hat hl htype hdir hkept hsome (fun ip hg => ?_) fun _ => hE)
  rcases hg.self with hfree | hself
  · exact absurd hfree (hfull.2 ip)
  · exact absurd ⟨ip, hself⟩ hfull.1

end Found

theorem via_dirlink_self (hsome : find (v.inode d).data name = some (e, d)) (hE : E .deadlock) :
    Via Shows (dirlink dp name inum) R E v :=
  via_dirlink_locked hat hl htype hdir hkept hsome hat hl hE

end Names

end Xv6.Names
