import Xv6.Mkfs.Append

/-!
# What is in the image

The invariant of the loop over the host files, in terms of inodes and their contents: the root
directory holds the entries made so far, every file has its inode, whose contents are the bytes that
`read` returned, and the remaining inodes are free. It holds as long as there is room for inodes;
`mkfs` does not check that. A round of the loop fails only for a file that does not fit, or whose
name has a slash in it.
-/

namespace Xv6.Mkfs

open Function List

open LittleEndian Bitmap Hoare Splice Xv6.Fs Xv6.Names

/-- Inode `i` has some type, one link and some contents. -/
structure Holds (v : View) (i : ℕ) (type : Int16) (data : List UInt8) : Prop where
  type_eq : (v.inode i).type = type
  nlink_eq : (v.inode i).nlink = 1
  contents_eq : v.contents i = data

/-- What the kernel takes for granted: every file has the blocks for its size. -/
structure Sane (v : View) : Prop where
  wf : WellFormed stdLayout v
  filled : ∀ i, Filled v i (v.inode i).size.toNat
  size_le : ∀ i, (v.inode i).size.toNat ≤ MAXFILE * BSIZE

/-- Inodes other than `i` are as before. -/
def Keeps (i : ℕ) (v w : View) : Prop :=
  ∀ j, j ≠ i → w.inode j = v.inode j ∧ w.contents j = v.contents j

/-- What the image shows, the next inode and the next block. -/
structure Draft where
  view : View
  next : ℕ
  used : ℕ

/-- Between two calls of `iappend`, the image shows a draft. -/
def Shown (m : Image) (d : Draft) : Prop := Rep settled d.next m d.view ∧ m.freeblock = d.used

variable {v w u : View} {d : Draft} {i j k : ℕ} {type : Int16} {data : List UInt8}

theorem Holds.keeps (h : Holds v j type data) (hk : Keeps i v w) (hj : j ≠ i) :
    Holds w j type data := by
  obtain ⟨hinode, hcontents⟩ := hk j hj
  exact ⟨hinode ▸ h.type_eq, hinode ▸ h.nlink_eq, hcontents.trans h.contents_eq⟩

theorem Holds.length_eq (h : Holds v i type data) : (v.inode i).size.toNat = data.length := by
  have hlen := congrArg length h.contents_eq
  rwa [View.contents, length_map, length_range] at hlen

theorem Keeps.trans (h : Keeps i v w) (h' : Keeps i w u) : Keeps i v u :=
  fun j hj => ⟨(h' j hj).1.trans (h j hj).1, (h' j hj).2.trans (h j hj).2⟩

/-! ### Appending to a file -/

theorem map_source (p : List UInt8) : (range p.length).map (source p) = p := by
  refine ext_getElem? fun j => ?_
  rw [getElem?_map]
  by_cases hj : j < p.length
  · rw [getElem?_range hj, getElem?_eq_getElem hj]
    simp [source, hj]
  · rw [getElem?_eq_none (by simpa using hj), getElem?_eq_none (by simpa using hj)]
    rfl

theorem splice_length (xs ys : List UInt8) : splice xs xs.length ys = xs ++ ys := by
  unfold splice
  rw [take_length, drop_eq_nil_of_le (Nat.le_add_right _ _), append_nil]

theorem via_iappend (hi : i < inodeRoom) (hs : Sane d.view) (hh : Holds d.view i type data)
    (htype : type = T_FILE ∨ type = T_DIR) (p : List UInt8) :
    Via Shown (iappend i p) (fun _ e => e.next = d.next ∧ Sane e.view ∧
      Holds e.view i type (data ++ p) ∧ Keeps i d.view e.view ∧
      e.used + cost data.length = d.used + cost (data ++ p).length)
      (fun _ => Overflows d.used data.length p.length) d := by
  rintro m ⟨hm, hused⟩
  have hlive : (d.view.inode i).type ≠ 0 := by
    rw [hh.type_eq]
    rcases htype with rfl | rfl <;> decide
  have hspec := wp_iappend hm hi hs.wf hlive (hs.filled i) (hs.size_le i) p
  rw [hh.length_eq, hused] at hspec
  refine hspec.imp ?_
  rintro _ m' ⟨w, hw, happ, hcost⟩
  have hwr := happ.written
  have hself : Holds w i type (data ++ p) := by
    refine ⟨?_, ?_, ?_⟩
    · rw [hwr.inode_self]
      exact hh.type_eq
    · rw [hwr.inode_self]
      exact hh.nlink_eq
    · rw [hwr.contents_eq le_rfl, hh.contents_eq, hh.length_eq, map_source, splice_length]
  rw [hself.length_eq] at hcost
  refine ⟨⟨w, d.next, m'.freeblock⟩, ⟨hw, rfl⟩, rfl, ⟨hwr.wf, fun j => ?_, fun j => ?_⟩, hself,
    fun j hj => ⟨hwr.inode_ne j hj, hwr.contents_eq_of_ne hj⟩, hcost⟩
  · rcases eq_or_ne j i with rfl | hne
    · exact happ.filled
    rw [hwr.inode_ne j hne]
    refine ⟨fun bn => ?_, ?_⟩
    · rw [happ.slot_ne _ (by rwa [owner_fileSlot]), (hs.filled j).data]
    · rw [happ.slot_ne (.addr j NDIRECT) hne, (hs.filled j).indirect]
  · rcases eq_or_ne j i with rfl | hne
    · exact happ.size_le
    · rw [hwr.inode_ne j hne]
      exact hs.size_le j

theorem via_pieces (hi : i < inodeRoom) (hs : Sane d.view) (hh : Holds d.view i type [])
    (htype : type = T_FILE ∨ type = T_DIR) (ps : List (List UInt8)) :
    Via Shown (forEach (iappend i) ps) (fun _ e => e.next = d.next ∧ Sane e.view ∧
      Holds e.view i type ps.flatten ∧ Keeps i d.view e.view ∧
      e.used = d.used + cost ps.flatten.length) (fun _ => Overflows d.used 0 ps.flatten.length)
      d := by
  -- the pieces still to come, and those appended
  let I : List (List UInt8) → Draft → Prop := fun rest e => e.next = d.next ∧ Sane e.view ∧
    (∃ done, done ++ rest = ps ∧ Holds e.view i type done.flatten ∧
      e.used = d.used + cost done.flatten.length) ∧ Keeps i d.view e.view
  have hstep : ∀ p rest e, I (p :: rest) e → Via Shown (iappend i p) (fun _ => I rest)
      (fun _ => Overflows d.used 0 ps.flatten.length) e := by
    rintro p rest e ⟨hnext, hse, ⟨done, hdone, hhe, hused⟩, hkeep⟩
    refine (via_iappend hi hse hhe htype p).mono ?_ fun _ hover => ?_
    · rintro _ e' ⟨hnext', hse', hhe', hkeep', hused'⟩
      have hflat : (done ++ [p]).flatten = done.flatten ++ p := by
        rw [flatten_append, flatten_singleton]
      refine ⟨hnext'.trans hnext, hse', ⟨done ++ [p], ?_, ?_, ?_⟩, hkeep.trans hkeep'⟩
      · rw [append_assoc]
        exact hdone
      · rw [hflat]
        exact hhe'
      · rw [hflat]
        omega
    · have hlen : done.flatten.length + p.length ≤ ps.flatten.length := by
        rw [← hdone, flatten_append, flatten_cons, length_append, length_append]
        omega
      have hmono := cost_mono hlen
      have hzero : cost 0 = 0 := rfl
      unfold Overflows at hover ⊢
      rw [Nat.zero_add]
      omega
  have hstart : I ps d := ⟨rfl, hs, ⟨[], rfl, hh, rfl⟩, fun _ _ => ⟨rfl, rfl⟩⟩
  refine (Via.forEach hstep hstart).mono ?_ fun _ h => h
  rintro _ e ⟨hnext, hse, ⟨done, hdone, hhe, hused⟩, hkeep⟩
  rw [append_nil] at hdone
  exact ⟨hnext, hse, hdone ▸ hhe, hkeep, hdone ▸ hused⟩

/-! ### New inodes -/

/-- Inode `k` becomes a new one. -/
def addInode (v : View) (k : ℕ) (type : Int16) : View :=
  { v with inode := update v.inode k (newInode type) }

theorem inode_addInode_self : (addInode v k type).inode k = newInode type :=
  update_self ..

theorem inode_addInode_of_ne (h : j ≠ k) : (addInode v k type).inode j = v.inode j :=
  update_of_ne h ..

theorem slot_addInode (type : Int16) (hfree : v.inode k = freeInode) :
    (addInode v k type).slot = v.slot := by
  have haddr : ∀ i l, (addInode v k type).slot (.addr i l) = v.slot (.addr i l) := by
    intro i l
    rw [View.slot_addr, View.slot_addr]
    rcases eq_or_ne i k with rfl | hne
    · have hzero : (newInode type).addr l = 0 := by
        unfold Inode.addr newInode
        split <;> rfl
      rw [inode_addInode_self, hfree, hzero, ite_self]
      rfl
    · rw [inode_addInode_of_ne hne]
  funext a
  cases a with
  | addr i l => exact haddr i l
  | entry i l =>
  have hind : (addInode v k type).indirect i = v.indirect i := haddr i NDIRECT
  rw [View.slot_entry, View.slot_entry, hind]
  rfl

theorem Sane.addInode (hs : Sane v) (hfree : v.inode k = freeInode) : Sane (addInode v k type) := by
  have hslot := slot_addInode type hfree
  have hsize : ∀ i, ((Mkfs.addInode v k type).inode i).size = (v.inode i).size := by
    intro i
    rcases eq_or_ne i k with rfl | hne
    · rw [inode_addInode_self, hfree]
      rfl
    · rw [inode_addInode_of_ne hne]
  refine ⟨⟨?_, hs.wf.metadata⟩, fun i => ?_, fun i => ?_⟩
  · rw [hslot]
    exact hs.wf.owned
  · rw [hsize]
    exact ⟨fun bn => by rw [hslot, (hs.filled i).data], by rw [hslot, (hs.filled i).indirect]⟩
  · rw [hsize]
    exact hs.size_le i

theorem keeps_addInode (hfree : v.inode k = freeInode) : Keeps k v (addInode v k type) := by
  intro j hj
  have hinode : (addInode v k type).inode j = v.inode j := inode_addInode_of_ne hj
  refine ⟨hinode, ?_⟩
  unfold View.contents View.byte View.block
  rw [hinode, slot_addInode type hfree]
  rfl

theorem holds_addInode : Holds (addInode v k type) k type [] := by
  refine ⟨by rw [inode_addInode_self]; rfl, by rw [inode_addInode_self]; rfl, ?_⟩
  rw [View.contents, inode_addInode_self]
  rfl

theorem via_ialloc {E : Exit → Prop} (hk : d.next < inodeRoom) : Via Shown (ialloc type)
      (fun r e => r = d.next ∧ e = ⟨addInode d.view d.next type, d.next + 1, d.used⟩) E d := by
  rintro m ⟨hm, hused⟩
  have hrep : Rep settled (d.next + 1) { m with freeinode := m.freeinode + 1 } d.view :=
    ⟨hm.view, hm.nsect, congrArg (· + 1) hm.freeinode, hm.ge, hm.le, hm.zero, hm.front⟩
  unfold ialloc
  rw [wp_bind, wp_get, wp_bind, wp_set, wp_bind, hm.freeinode]
  rw [hm.freeinode] at hrep
  refine (wp_winode hrep hk fun _ _ => rfl).imp fun _ m' hm' => ?_
  exact ⟨⟨addInode d.view d.next type, d.next + 1, d.used⟩, ⟨hm'.2, hm'.1.trans hused⟩, rfl, rfl⟩

/-! ### Files -/

/-- The entries of the root directory when `files` have been added. -/
def rootEntries (files : List HostFile) : List Dirent :=
  ⟨Xv6.ROOTINO, strncpy dot DIRSIZ⟩ :: ⟨Xv6.ROOTINO, strncpy dotdot DIRSIZ⟩ ::
    files.zipIdx.map fun x => ⟨x.2 + 2, strncpy x.1.fsName DIRSIZ⟩

def rootData (files : List HostFile) : List UInt8 := (rootEntries files).flatMap Dirent.encode

theorem rootData_append (files : List HostFile) (f : HostFile) : rootData (files ++ [f]) =
    rootData files ++ Dirent.encode ⟨files.length + 2, strncpy f.fsName DIRSIZ⟩ := by
  unfold rootData rootEntries
  simp [zipIdx_append, flatMap_append]

variable {files : List HostFile}

theorem length_name_of_mem {e : Dirent} (he : e ∈ rootEntries files) : e.name.length = DIRSIZ := by
  rcases mem_cons.mp he with rfl | he
  · exact length_strncpy ..
  rcases mem_cons.mp he with rfl | he
  · exact length_strncpy ..
  obtain ⟨x, -, rfl⟩ := mem_map.mp he
  exact length_strncpy ..

theorem length_rootData (files : List HostFile) :
    (rootData files).length = 16 * (files.length + 2) := by
  have hlen : ∀ e ∈ rootEntries files, (Dirent.encode e).length = 16 := fun e he =>
    Dirent.length_encode (length_name_of_mem he)
  rw [rootData, length_flatMap, map_congr_left hlen, map_const', sum_replicate]
  simp [rootEntries, Nat.mul_comm]

/-- The first block not in use when `files` have been added. -/
def usedBy (files : List HostFile) : ℕ :=
  nmeta + cost (16 * (files.length + 2)) + (files.map fun f => cost f.bytes.length).sum

/-- There is room for `files`, and none of their names has a slash in it. -/
structure Fits (files : List HostFile) : Prop where
  name : ∀ f ∈ files, 47 ∉ f.name
  bytes : ∀ f ∈ files, f.bytes.length ≤ MAXFILE * BSIZE
  blocks : usedBy files ≤ FSSIZE

/-- What `files` have become. -/
structure Built (files : List HostFile) (v : View) : Prop where
  sane : Sane v
  root : Holds v Xv6.ROOTINO T_DIR (rootData files)
  file : ∀ j f, files[j]? = some f → Holds v (j + 2) T_FILE f.bytes
  free : ∀ i, files.length + 2 ≤ i → v.inode i = freeInode
  name : ∀ f ∈ files, 47 ∉ f.name

def Drafted (files : List HostFile) (d : Draft) : Prop :=
  Built files d.view ∧ d.next = files.length + 2 ∧ d.used = usedBy files

theorem usedBy_append (files rest : List HostFile) : usedBy files ≤ usedBy (files ++ rest) := by
  have hcost : cost (16 * (files.length + 2)) ≤ cost (16 * ((files ++ rest).length + 2)) :=
    cost_mono (by rw [length_append]; omega)
  unfold usedBy
  rw [map_append, sum_append]
  omega

theorem Fits.of_append {files rest : List HostFile} (h : Fits (files ++ rest)) : Fits files where
  name f hf := h.name f (mem_append_left _ hf)
  bytes f hf := h.bytes f (mem_append_left _ hf)
  blocks := (usedBy_append files rest).trans h.blocks

theorem via_appendEntry (hi : i < inodeRoom) (hs : Sane d.view) (hh : Holds d.view i T_DIR data)
    (inum : ℕ) (name : List UInt8) :
    Via Shown (appendEntry i inum name) (fun _ e => e.next = d.next ∧ Sane e.view ∧
      Holds e.view i T_DIR (data ++ Dirent.encode ⟨inum, strncpy name DIRSIZ⟩) ∧
      Keeps i d.view e.view ∧ e.used + cost data.length = d.used + cost (data.length + 16))
      (fun _ => Overflows d.used data.length 16) d := by
  have hlen : (Dirent.encode ⟨inum, strncpy name DIRSIZ⟩).length = 16 :=
    Dirent.length_encode (length_strncpy ..)
  have hspec := via_iappend hi hs hh (.inr rfl) (Dirent.encode ⟨inum, strncpy name DIRSIZ⟩)
  rwa [length_append, hlen] at hspec

theorem via_addFile (f : HostFile) (hd : Drafted files d) (hroom : files.length + 2 < inodeRoom) :
    Via Shown (addFile Xv6.ROOTINO f) (fun _ => Drafted (files ++ [f]))
      (fun _ => ¬ Fits (files ++ [f])) d := by
  obtain ⟨hb, hnext, hused⟩ := hd
  have hfree := hb.free d.next (le_of_eq hnext.symm)
  have hroot : Xv6.ROOTINO ≠ d.next := by
    rw [hnext]
    exact Nat.ne_of_lt (by rw [Xv6.ROOTINO]; omega)
  have hmem : f ∈ files ++ [f] := mem_append_right _ (mem_singleton_self f)
  have hlen : (files ++ [f]).length = files.length + 1 := length_append
  have hused' : usedBy (files ++ [f]) + cost (16 * (files.length + 2)) =
      usedBy files + cost (16 * (files.length + 2) + 16) + cost f.bytes.length := by
    unfold usedBy
    rw [map_append, sum_append, hlen, map_singleton, sum_singleton,
      show 16 * (files.length + 1 + 2) = 16 * (files.length + 2) + 16 by omega]
    omega
  unfold addFile
  refine Via.ite (fun hslash => Via.throw fun hfits => hfits.name f hmem hslash) fun hslash => ?_
  refine Via.bind (via_ialloc (by omega)) ?_
  rintro _ _ ⟨rfl, rfl⟩
  have hkeep₀ : Keeps d.next d.view (addInode d.view d.next T_FILE) := keeps_addInode hfree
  have hentry := via_appendEntry (d := ⟨addInode d.view d.next T_FILE, d.next + 1, d.used⟩)
    (by decide) (hb.sane.addInode hfree) (hb.root.keeps hkeep₀ hroot) d.next f.fsName
  rw [length_rootData] at hentry
  refine Via.bind (hentry.mono (fun _ _ h => h) fun _ hover hfits => ?_) ?_
  · -- the root directory is far from the largest size
    have hmax : MAXFILE * BSIZE = 71680 := rfl
    have hr : inodeRoom = 208 := rfl
    have hblocks := hfits.blocks
    unfold Overflows at hover
    dsimp only at hover
    omega
  rintro _ e ⟨hnext₁, hsane₁, hroot₁, hkeep₁, hused₁⟩
  have hnew₁ : Holds e.view d.next T_FILE [] := holds_addInode.keeps hkeep₁ hroot.symm
  dsimp only at hused₁
  refine (via_pieces (by omega) hsane₁ hnew₁ (.inl rfl) f.pieces).mono ?_ fun _ hover hfits => ?_
  · rintro _ e' ⟨hnext₂, hsane₂, hnew₂, hkeep₂, hused₂⟩
    -- the inodes apart from the root and the new one
    have hother : ∀ j, j ≠ Xv6.ROOTINO → j ≠ d.next → e'.view.inode j = d.view.inode j ∧
        e'.view.contents j = d.view.contents j := by
      intro j hj hj'
      obtain ⟨h₂, h₂'⟩ := hkeep₂ j hj'
      obtain ⟨h₁, h₁'⟩ := hkeep₁ j hj
      obtain ⟨h₀, h₀'⟩ := hkeep₀ j hj'
      exact ⟨h₂.trans (h₁.trans h₀), h₂'.trans (h₁'.trans h₀')⟩
    refine ⟨⟨hsane₂, ?_, fun j g hg => ?_, fun j hj => ?_, fun g hg => ?_⟩, ?_, ?_⟩
    · rw [rootData_append, ← hnext]
      exact hroot₁.keeps hkeep₂ hroot
    · rcases eq_or_ne j files.length with rfl | hne
      · rw [getElem?_append_right le_rfl, Nat.sub_self] at hg
        cases hg
        rw [← hnext]
        exact hnew₂
      have hlt : j < files.length := by
        have hj := (List.getElem?_eq_some_iff.mp hg).1
        omega
      rw [getElem?_append_left hlt] at hg
      have hh := hb.file j g hg
      obtain ⟨hinode, hcontents⟩ := hother (j + 2) (by rw [Xv6.ROOTINO]; omega) (by omega)
      exact ⟨hinode ▸ hh.type_eq, hinode ▸ hh.nlink_eq, hcontents.trans hh.contents_eq⟩
    · rw [(hother j (by rw [Xv6.ROOTINO]; omega) (by omega)).1]
      exact hb.free j (by omega)
    · rcases mem_append.mp hg with hg | hg
      · exact hb.name g hg
      · rwa [mem_singleton.mp hg]
    · rw [hnext₂, hnext₁, hnext, hlen]
    · change e'.used = e.used + cost f.bytes.length at hused₂
      omega
  · have hbytes := hfits.bytes f hmem
    have hblocks := hfits.blocks
    have hzero : cost 0 = 0 := rfl
    have hcost : cost (16 * (files.length + 2)) ≤ cost (16 * (files.length + 2) + 16) :=
      cost_mono (Nat.le_add_right _ _)
    change Overflows e.used 0 f.bytes.length at hover
    unfold Overflows at hover
    rw [Nat.zero_add] at hover
    omega

theorem via_files (hroom : files.length + 2 ≤ inodeRoom) (hd : Drafted [] d) :
    Via Shown (forEach (addFile Xv6.ROOTINO) files) (fun _ => Drafted files)
      (fun _ => ¬ Fits files) d := by
  let I : List HostFile → Draft → Prop := fun rest e =>
    ∃ done, done ++ rest = files ∧ Drafted done e
  have hstep : ∀ f rest e, I (f :: rest) e →
      Via Shown (addFile Xv6.ROOTINO f) (fun _ => I rest) (fun _ => ¬ Fits files) e := by
    rintro f rest e ⟨done, hdone, hde⟩
    have hsplit : done ++ [f] ++ rest = files := by
      rw [append_assoc]
      exact hdone
    have hlen : done.length + 2 < inodeRoom := by
      have := congrArg length hdone
      rw [length_append, length_cons] at this
      omega
    refine (via_addFile f hde hlen).mono (fun _ e' hde' => ⟨done ++ [f], hsplit, hde'⟩) ?_
    exact fun _ hnot hfits => hnot (.of_append (hsplit ▸ hfits))
  refine (Via.forEach hstep ⟨[], rfl, hd⟩).mono ?_ fun _ h => h
  rintro _ e ⟨done, hdone, hde⟩
  rw [append_nil] at hdone
  exact hdone ▸ hde

end Xv6.Mkfs
