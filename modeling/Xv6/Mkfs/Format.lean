import Mathlib.Data.List.TakeWhile
import Xv6.Fs.Lookup
import Xv6.Mkfs.Image

/-!
# `mkfs` and the kernel agree

What the kernel finds on an image. It reads the super block that `mkfs` computed, and under the name
of every host file it finds a file with the bytes of the host file. The root directory may have a
hole at its end (`whole_iff`), but `dirlookup` does not get there: it stops at the entry.

A host file whose name is `.` or `..` cannot be found: the root directory has these entries already.
-/

namespace Xv6.Mkfs

open LittleEndian Bitmap Hoare Splice Xv6.Fs Xv6.Names List

variable {v : View} {files : List HostFile} {img : Image}

def HostFile.entryName (f : HostFile) : List UInt8 := f.fsName.take DIRSIZ

theorem cname_fsName (f : HostFile) : cname f.fsName = f.entryName := by
  have hmem : ∀ c ∈ f.fsName.take DIRSIZ, c ≠ 0 := by
    intro c hc
    have hc' := mem_of_mem_take hc
    unfold HostFile.fsName at hc'
    split at hc'
    · exact f.name_ne c (mem_of_mem_tail hc')
    · exact f.name_ne c hc'
  rw [cname, HostFile.entryName, takeWhile_eq_self_iff]
  exact fun c hc => decide_eq_true (hmem c hc)

/-! ### Files -/

section Mounted

variable (h : Finished files img v) (hn : files.length + 2 ≤ NINODES)
include h hn

theorem Finished.wf : WellFormed stdLayout ((boot img).view stdLayout) := by
  rw [h.view_boot hn]
  exact h.built.sane.wf.setSize ..

theorem Finished.slot_eq : ((boot img).view stdLayout).slot = v.slot := by
  rw [h.view_boot hn]
  exact slot_setSize ..

theorem Finished.slot_ne_zero {i k : ℕ} (hk : k < (v.inode i).size.toNat) :
    ((boot img).view stdLayout).slot (fileSlot i (k / BSIZE)) ≠ 0 := by
  rw [h.slot_eq hn, (h.built.sane.filled i).data]
  exact lt_of_le_of_lt (Nat.div_mul_le_self k BSIZE) hk

theorem Finished.readi_run (devsw : Devsw) {i off n : ℕ} (hi : i < files.length + 2)
    (hdev : (v.inode i).type ≠ T_DEV) (hle : off + n ≤ (v.inode i).size.toNat) :
    readi stdLayout devsw i off n (boot img) = .ok ((n, slice (v.contents i) off n), boot img) := by
  have hN : NINODES ≤ inodeRoom := by decide
  have hin := h.inode_eq (by omega : i < inodeRoom)
  have hsize := size_le_rounded h.built.sane i
  have hmax := h.built.sane.size_le i
  have hU : MAXFILE * BSIZE < 2 ^ 32 := by decide
  have hslice : slice (((boot img).view stdLayout).contents i) off n =
      slice (v.contents i) off n := by
    have hbyte : (rounded v).byte i = v.byte i := funext fun k => byte_setSize ..
    rw [h.view_boot hn, View.contents, View.contents, slice_map_range, slice_map_range, hbyte,
      Nat.min_eq_left (by omega), Nat.min_eq_left (by omega)]
  have hlen : (slice (v.contents i) off n).length = n := by
    rw [View.contents, slice_map_range, length_map, length_range]
    omega
  have hlt : i < stdLayout.ninodes := lt_of_lt_of_le hi hn
  have hdev' : ((boot img).inode stdLayout i).type ≠ T_DEV := by
    rw [hin, type_rounded]
    exact hdev
  have hok : ¬ ReadRefused ((boot img).inode stdLayout i).size.toNat off n := by
    rw [hin]
    unfold ReadRefused
    omega
  have hrun : readi stdLayout devsw i off n (boot img) = _ := readi_range hlt (h.wf hn)
    (fun k _ hk _ => h.slot_ne_zero hn (by omega)) hdev' (by omega) (by omega) hok
  rwa [hslice, hlen] at hrun

theorem Finished.readi_file (devsw : Devsw) {j : ℕ} {f : HostFile} (hj : files[j]? = some f) :
    ((boot img).inode stdLayout (j + 2)).type = T_FILE ∧
      ((boot img).inode stdLayout (j + 2)).nlink = 1 ∧
      readi stdLayout devsw (j + 2) 0 ((boot img).inode stdLayout (j + 2)).size.toNat (boot img) =
        .ok ((f.bytes.length, f.bytes), boot img) := by
  have hlt : j < files.length := (List.getElem?_eq_some_iff.mp hj).1
  have hfile := h.built.file j f hj
  have hne : j + 2 ≠ Xv6.ROOTINO := by
    rw [Xv6.ROOTINO]
    omega
  have hN : NINODES ≤ inodeRoom := by decide
  have hin : (boot img).inode stdLayout (j + 2) = v.inode (j + 2) := by
    rw [h.inode_eq (by omega), inode_rounded_of_ne hne]
  have hsize := hfile.length_eq
  have hdev : (v.inode (j + 2)).type ≠ T_DEV := by
    rw [hfile.type_eq]
    decide
  have hrun := h.readi_run hn devsw (by omega) hdev
    (by omega : 0 + (v.inode (j + 2)).size.toNat ≤ _)
  rw [hfile.contents_eq, hsize, slice, drop_zero, take_length] at hrun
  rw [hin, hsize]
  exact ⟨hfile.type_eq, hfile.nlink_eq, hrun⟩

theorem Finished.canRead (devsw : Devsw) {k : ℕ} (hk : k < files.length + 2) :
    CanRead stdLayout devsw (boot img) Xv6.ROOTINO (rootData files) k := by
  have hroot := h.built.root
  have hsize : (v.inode Xv6.ROOTINO).size.toNat = 16 * (files.length + 2) := by
    rw [hroot.length_eq, length_rootData]
  have hle := size_le_rounded h.built.sane Xv6.ROOTINO
  have hD : DESIZE = 16 := rfl
  have hdev : (v.inode Xv6.ROOTINO).type ≠ T_DEV := by
    rw [hroot.type_eq]
    decide
  have hin := h.inode_eq root_lt_inodeRoom
  refine ⟨?_, ?_⟩
  · rw [hin, hD]
    omega
  · rw [← hroot.contents_eq]
    exact h.readi_run hn devsw (by rw [Xv6.ROOTINO]; omega) hdev (by rw [hD]; omega)

end Mounted

/-! ### The root directory -/

theorem getElem?_rootEntries {j : ℕ} {f : HostFile} (hj : files[j]? = some f) :
    (rootEntries files)[j + 2]? = some ⟨j + 2, strncpy f.fsName DIRSIZ⟩ := by
  simp [rootEntries, getElem?_zipIdx, hj]

theorem entry_rootData {k : ℕ} {de : Dirent} (hk : (rootEntries files)[k]? = some de)
    (hlt : de.inum < 65536) : entry (rootData files) k = de := by
  have hentry := entry_flatMap_encode (fun _ => length_name_of_mem) hk
  rwa [Nat.mod_eq_of_lt hlt] at hentry

theorem matches_rootData_iff {k : ℕ} {de : Dirent} (name : List UInt8)
    (hk : (rootEntries files)[k]? = some de) (hpos : 0 < de.inum) (hlt : de.inum < 65536) :
    Matches (rootData files) name k ↔ cname name = cname de.name := by
  rw [Matches, entry_rootData hk hlt, namecmp_eq_zero_iff]
  exact and_iff_right (Nat.ne_of_gt hpos)

section Lookup

variable (h : Finished files img v) (hn : files.length + 2 ≤ NINODES)
include h hn

theorem Finished.dirlookup_file (devsw : Devsw)
    (hdiff : files.Pairwise fun f g => f.entryName ≠ g.entryName)
    (hdots : ∀ f ∈ files, f.entryName ≠ dot ∧ f.entryName ≠ dotdot) {j : ℕ} {f : HostFile}
    (hj : files[j]? = some f) : dirlookup stdLayout devsw Xv6.ROOTINO f.fsName (boot img) =
      .ok (some (j + 2, DESIZE * (j + 2)), boot img) := by
  obtain ⟨hlt, hget⟩ := List.getElem?_eq_some_iff.mp hj
  have hN : NINODES < 65536 := by decide
  obtain ⟨hdot, hdotdot⟩ := hdots f (hget ▸ getElem_mem hlt)
  have htype : ((boot img).inode stdLayout Xv6.ROOTINO).type = T_DIR := by
    rw [h.inode_eq root_lt_inodeRoom, type_rounded, h.built.root.type_eq]
  have hentry := getElem?_rootEntries hj
  have hsmall : j + 2 < 65536 := by omega
  have hself : Matches (rootData files) f.fsName (j + 2) := by
    rw [matches_rootData_iff _ hentry (Nat.succ_pos _) hsmall, cname_strncpy]
  have hbefore : ∀ k < j + 2, ¬ Matches (rootData files) f.fsName k := by
    intro k hk hm
    match k, hk with
    | 0, _ =>
      have hfirst : (rootEntries files)[0]? = some ⟨Xv6.ROOTINO, strncpy dot DIRSIZ⟩ := rfl
      rw [matches_rootData_iff _ hfirst (by decide) (by decide), cname_fsName, cname_strncpy] at hm
      exact hdot hm
    | 1, _ =>
      have hsecond : (rootEntries files)[1]? = some ⟨Xv6.ROOTINO, strncpy dotdot DIRSIZ⟩ := rfl
      rw [matches_rootData_iff _ hsecond (by decide) (by decide), cname_fsName, cname_strncpy] at hm
      exact hdotdot hm
    | j' + 2, hk =>
      have hlt' : j' < files.length := by omega
      have hother := getElem?_rootEntries (getElem?_eq_getElem hlt')
      rw [matches_rootData_iff _ hother (Nat.succ_pos _) (show j' + 2 < 65536 by omega),
        cname_fsName, cname_strncpy, cname_fsName] at hm
      refine pairwise_iff_getElem.mp hdiff j' j hlt' hlt (by omega) ?_
      rw [hget]
      exact hm.symm
  have hrun := dirlookup_of_matches htype (fun k hk => h.canRead hn devsw (by omega)) hbefore hself
  rwa [entry_rootData hentry hsmall] at hrun

end Lookup

theorem Finished.readsb_eq (h : Finished files img v) : readsb (boot img) = stdSuperblock := by
  have hblock : (boot img).disk 1 = superBlock := h.rep.front 1 (by decide)
  rw [readsb, hblock]
  decide +kernel

/-- **`mkfs` and the kernel agree.** The kernel finds the super block, and every file under its name
with its bytes; no block is used twice, and the blocks in use are those below `freeblock`. -/
theorem mkfs_kernel_agree (h : mkfs files = .ok img) (hn : files.length ≤ NINODES - 2)
    (hdiff : files.Pairwise fun f g => f.entryName ≠ g.entryName)
    (hdots : ∀ f ∈ files, f.entryName ≠ dot ∧ f.entryName ≠ dotdot) (devsw : Devsw) :
    readsb (boot img) = stdLayout.toSuperblock ∧ (∀ f ∈ files, ∃ i off,
      dirlookup stdLayout devsw Xv6.ROOTINO f.fsName (boot img) = .ok (some (i, off), boot img) ∧
      ((boot img).inode stdLayout i).type = T_FILE ∧ ((boot img).inode stdLayout i).nlink = 1 ∧
      readi stdLayout devsw i 0 ((boot img).inode stdLayout i).size.toNat (boot img) =
        .ok ((f.bytes.length, f.bytes), boot img)) ∧
    (∀ a b, ((boot img).view stdLayout).slot a ≠ 0 → nmeta ≤ ((boot img).view stdLayout).slot a ∧
      (((boot img).view stdLayout).slot a = ((boot img).view stdLayout).slot b → a = b)) ∧
    ∀ b < BPB, getBit ((boot img).disk sb.bmapstart) b = decide (b < img.freeblock) := by
  have hN : NINODES = 200 := rfl
  have hr : inodeRoom = 208 := rfl
  have hn' : files.length + 2 ≤ NINODES := by omega
  obtain ⟨v, hfin⟩ := mkfs_finished (by omega) h
  refine ⟨hfin.readsb_eq, fun f hf => ?_, fun a b ha => ?_, fun b _ => ?_⟩
  · obtain ⟨j, hj⟩ := mem_iff_getElem?.mp hf
    obtain ⟨htype, hnlink, hread⟩ := hfin.readi_file hn' devsw hj
    exact ⟨j + 2, _, hfin.dirlookup_file hn' devsw hdiff hdots hj, htype, hnlink, hread⟩
  · exact ⟨((hfin.wf hn').bounds ha).1, (hfin.wf hn').owned.inj a b ha⟩
  · have hle : img.freeblock ≤ BPB := hfin.rep.le.trans (by decide)
    rw [← getBit_freeMap b hle, ← hfin.map]
    rfl

/-- Two files, `a` and `_b`. -/
def twoFiles : List HostFile :=
  [⟨[97], [[1, 2, 3], [4]], by simp, by decide⟩, ⟨[95, 98], [], by simp, by decide⟩]

theorem mkfs_kernel_agree_twoFiles : ∃ img, mkfs twoFiles = .ok img ∧
    ∀ f ∈ twoFiles, ∃ i off, dirlookup stdLayout noDevices Xv6.ROOTINO f.fsName (boot img) =
      .ok (some (i, off), boot img) ∧
      readi stdLayout noDevices i 0 ((boot img).inode stdLayout i).size.toNat (boot img) =
        .ok ((f.bytes.length, f.bytes), boot img) := by
  obtain ⟨img, h⟩ : ∃ img, mkfs twoFiles = .ok img :=
    mkfs_completes (by decide) ⟨by decide, by decide, by decide⟩
  obtain ⟨-, hfiles, -⟩ := mkfs_kernel_agree h (by decide) (by decide) (by decide) noDevices
  refine ⟨img, h, fun f hf => ?_⟩
  obtain ⟨i, off, hlookup, -, -, hread⟩ := hfiles f hf
  exact ⟨i, off, hlookup, hread⟩

/-- A host file called `_.`. -/
def dotFile : HostFile := ⟨[95, 46], [], by simp, by decide⟩

/-- Its name is that of the first entry, and the kernel finds the root directory. -/
theorem dotFile_not_found : ∃ img, mkfs [dotFile] = .ok img ∧ dotFile.entryName = dot ∧
    dirlookup stdLayout noDevices Xv6.ROOTINO dotFile.fsName (boot img) =
      .ok (some (Xv6.ROOTINO, 0), boot img) ∧
    ((boot img).inode stdLayout Xv6.ROOTINO).type = T_DIR := by
  obtain ⟨img, h⟩ : ∃ img, mkfs [dotFile] = .ok img :=
    mkfs_completes (by decide) ⟨by decide, by decide, by decide⟩
  obtain ⟨v, hfin⟩ := mkfs_finished (by decide) h
  have htype : ((boot img).inode stdLayout Xv6.ROOTINO).type = T_DIR := by
    rw [hfin.inode_eq root_lt_inodeRoom, type_rounded, hfin.built.root.type_eq]
  have hfirst : (rootEntries [dotFile])[0]? = some ⟨Xv6.ROOTINO, strncpy dot DIRSIZ⟩ := rfl
  have hmatch : Matches (rootData [dotFile]) dotFile.fsName 0 := by
    rw [matches_rootData_iff _ hfirst (by decide) (by decide)]
    rfl
  have hrun := dirlookup_of_matches htype
    (fun k hk => hfin.canRead (by decide) noDevices (lt_of_le_of_lt hk (by decide)))
    (fun k hk => absurd hk (Nat.not_lt_zero k)) hmatch
  rw [entry_rootData hfirst (by decide)] at hrun
  exact ⟨img, h, rfl, hrun, htype⟩

end Xv6.Mkfs
