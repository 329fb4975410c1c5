import Xv6.Names.Start

/-!
# A directory is a finite map

The map of a directory goes from names, as `namecmp` compares them, to inode numbers. `dirlink`
adds a name that is not there, in the first free entry, and refuses one that is.

To refuse a name, `dirlink` drops the inode found under it with `iput`, which takes the inode's
lock. If the caller holds that lock, as it does for the directory itself under the name `"."`, then
the call does not return.
-/

namespace Xv6.Names

open Splice Hoare Function

/-! ### Maps -/

/-- Whole entries, and no two entries in use with the same name. -/
structure WellFormed (data : List UInt8) : Prop extends DirData data where
  distinct : ∀ e e', (entry data e).inum ≠ 0 → (entry data e').inum ≠ 0 →
    namecmp (entry data e).name (entry data e').name = 0 → e = e'

/-- The map with a name added: it is found under every spelling, in the first free entry, and the
other names are found as before. -/
structure Linked (data data' name : List UInt8) (inum : ℕ) : Prop where
  wellFormed : WellFormed data'
  new : ∀ name', namecmp name name' = 0 → find data' name' = some (firstFree data, inum)
  other : ∀ name', namecmp name name' ≠ 0 → find data' name' = find data name'
  slot : (entry data (firstFree data)).inum = 0 ∧
    ∀ e < firstFree data, (entry data e).inum ≠ 0

section Maps

variable {data name : List UInt8} {inum e i : ℕ}

theorem lt_nentries_of_used (hmod : data.length % DESIZE = 0) (h : (entry data e).inum ≠ 0) :
    e < nentries data := by
  by_contra hle
  exact h (entry_of_nentries_le hmod (not_lt.mp hle))

theorem WellFormed.find_eq_some_iff (h : WellFormed data) : find data name = some (e, i) ↔
    i ≠ 0 ∧ (entry data e).inum = i ∧ cname name = cname (entry data e).name := by
  constructor
  · intro hf
    obtain ⟨-, hi, h0, hname⟩ := find_eq_some hf
    exact ⟨h0, hi, hname⟩
  rintro ⟨h0, rfl, hname⟩
  cases hf : find data name with
  | none => exact absurd hname (find_eq_none hf (lt_nentries_of_used h.mod h0) h0)
  | some q =>
  obtain ⟨e', i'⟩ := q
  obtain ⟨-, rfl, h0', hname'⟩ := find_eq_some hf
  have heq : namecmp (entry data e').name (entry data e).name = 0 :=
    (namecmp_eq_zero_iff _ _).mpr (hname'.symm.trans hname)
  rw [h.distinct e' e h0' h0 heq]

theorem inum_ne_zero_of_lt_freeFrom : ∀ k e', nentries data - e' = k → ∀ e, e' ≤ e →
    e < freeFrom data e' → (entry data e).inum ≠ 0 := by
  intro k
  induction k with
  | zero =>
    intro e' hk e hle hlt
    rw [freeFrom_of_le (by omega)] at hlt
    omega
  | succ k ih =>
  intro e' hk e hle hlt
  rw [freeFrom_of_lt (by omega)] at hlt
  split at hlt
  · omega
  next hused =>
  rcases eq_or_lt_of_le hle with rfl | hlt'
  · exact hused
  · exact ih (e' + 1) (by omega) e hlt' hlt

theorem WellFormed.linked (h : WellFormed data) (hnone : find data name = none) (h0 : inum ≠ 0)
    (hinum : inum < 65536) (hroom : DESIZE * firstFree data + DESIZE ≤ MAXFILE * BSIZE) :
    Linked data (putEntry data (firstFree data) ⟨inum, strncpy name DIRSIZ⟩) name inum := by
  set f := firstFree data with hf
  set data' := putEntry data f ⟨inum, strncpy name DIRSIZ⟩ with hdata'
  have hle : f ≤ nentries data := firstFree_le data
  have hlen : (⟨inum, strncpy name DIRSIZ⟩ : Dirent).name.length = DIRSIZ :=
    length_strncpy DIRSIZ name
  have hself : entry data' f = ⟨inum, strncpy name DIRSIZ⟩ := entry_putEntry_self hle hlen hinum
  have hother : ∀ e, e ≠ f → entry data' e = entry data e := fun e hne =>
    entry_putEntry_of_ne hle hlen hne
  have hfree : (entry data f).inum = 0 := inum_firstFree h.mod
  -- the names of the old entries are not the new one
  have hnew : ∀ e, (entry data e).inum ≠ 0 → cname name ≠ cname (entry data e).name :=
    fun e hused => find_eq_none hnone (lt_nentries_of_used h.mod hused) hused
  have hwf : WellFormed data' := by
    refine ⟨⟨(nentries_putEntry h.mod hle hlen).1, ?_⟩, fun e e' hused hused' heq => ?_⟩
    · rw [hdata', length_putEntry hle hlen]
      exact max_le h.le hroom
    rw [namecmp_eq_zero_iff] at heq
    rcases eq_or_ne e f with rfl | hne
    · by_contra hne
      rw [hother e' (Ne.symm hne)] at hused' heq
      rw [hself, cname_strncpy] at heq
      exact hnew e' hused' heq
    rw [hother e hne] at hused heq
    rcases eq_or_ne e' f with rfl | hne'
    · rw [hself, cname_strncpy] at heq
      exact absurd heq.symm (hnew e hused)
    · rw [hother e' hne'] at hused' heq
      exact h.distinct e e' hused hused' ((namecmp_eq_zero_iff _ _).mpr heq)
  refine ⟨hwf, fun name' hname => ?_, fun name' hname => ?_, hfree,
    fun e hlt => inum_ne_zero_of_lt_freeFrom _ 0 rfl e (Nat.zero_le e) hlt⟩
  · rw [hwf.find_eq_some_iff, hself, cname_strncpy]
    exact ⟨h0, rfl, ((namecmp_eq_zero_iff _ _).mp hname).symm⟩
  rw [Ne, namecmp_eq_zero_iff] at hname
  refine Option.ext fun q => ?_
  rw [hwf.find_eq_some_iff, h.find_eq_some_iff]
  rcases eq_or_ne q.1 f with heq | hne
  · rw [heq, hself, cname_strncpy, hfree]
    exact iff_of_false (fun hc => hname hc.2.2.symm) fun hc => hc.1 hc.2.1.symm
  · rw [hother q.1 hne]

end Maps

/-! ### The functions -/

variable {s : Kernel} {dp : Ptr} {d inum : ℕ} {name : List UInt8}

/-- `dirlookup` answers `r`, an entry and an inode number, unless that inode finds no place in the
cache. -/
def Finds (s : Kernel) (dp : Ptr) (name : List UInt8) (r : Option (ℕ × ℕ)) : Prop :=
  wp (dirlookup dp name) (fun x t => x.map Prod.snd = r.map (fun q => DESIZE * q.1) ∧
    ∀ ip off, x = some (ip, off) → ∃ q, r = some q ∧ t.view.At ip q.2)
    (fun e => e = .igetNoInodes ∧ ∃ q, r = some q ∧ s.view.Full q.2) s

/-- Inode `d` is a well-formed directory, referenced and locked through `dp`. -/
structure DirLocked (s : Kernel) (dp : Ptr) (d : ℕ) : Prop where
  coherent : Coherent s
  at_dir : s.view.At dp d
  locked : s.view.locked dp = true
  type_eq : (s.disk d).type = T_DIR
  wellFormed : WellFormed (s.disk d).data
  kept : s.view.Kept

theorem DirLocked.finds (h : DirLocked s dp d) (name : List UInt8) :
    Finds s dp name (find (s.disk d).data name) := by
  refine (via_dirlookup (R := fun x w => x.map Prod.snd =
      (find (s.disk d).data name).map (fun q => DESIZE * q.1) ∧
      ∀ ip off, x = some (ip, off) → ∃ q, find (s.disk d).data name = some q ∧ w.At ip q.2)
    h.at_dir h.locked h.type_eq h.wellFormed.toDirData h.kept (fun hn => ?_)
    (fun ip e i hf hg => ?_) (fun e i hf hfull => ⟨rfl, (e, i), hf, hfull⟩) s
    ⟨h.coherent, rfl⟩).imp ?_
  · change find (s.disk d).data name = none at hn
    rw [hn]
    exact ⟨rfl, fun _ _ heq => by cases heq⟩
  · change find (s.disk d).data name = some (e, i) at hf
    rw [hf]
    refine ⟨rfl, fun ip' off heq => ⟨(e, i), rfl, ?_⟩⟩
    cases heq
    exact hg.at_take
  · rintro x t ⟨w, ⟨-, rfl⟩, hx⟩
    exact hx

/-- What `dirlink` is to do to the map: refuse a name that is there and change nothing, or add it.
Afterwards `dirlookup` answers with the new map. -/
def LinksAsMap (s : Kernel) (dp : Ptr) (d : ℕ) (name : List UInt8) (inum : ℕ) : Prop :=
  ∃ r s', dirlink dp name inum s = .ok (r, s') ∧
    (r = -1 ∧ find (s.disk d).data name ≠ none ∧ s'.disk d = s.disk d ∨
      r = 0 ∧ find (s.disk d).data name = none ∧
        Linked (s.disk d).data (s'.disk d).data name inum) ∧
    ∀ name', Finds s' dp name' (find (s'.disk d).data name')

/-- The inode found can be had: there is a place for it in the cache, and it is not locked. -/
def Free (v : View) (i : ℕ) : Prop := ¬ v.Full i ∧ ∀ ip, v.At ip i → v.locked ip = false

theorem DirLocked.addEntry (h : DirLocked s dp d) {s' : Kernel} (hc : Coherent s')
    (hv : s'.view = s.view.setInode d ((s.disk d).addEntry name inum))
    (hwf : WellFormed ((s.disk d).addEntry name inum).data) : DirLocked s' dp d := by
  have hdisk : s'.disk = update s.disk d ((s.disk d).addEntry name inum) :=
    congrArg View.inode hv
  have hd : s'.disk d = (s.disk d).addEntry name inum := by
    rw [hdisk, update_self]
  refine ⟨hc, ?_, ?_, ?_, hd ▸ hwf, ?_⟩
  · rw [hv]
    exact h.at_dir
  · rw [hv]
    exact h.locked
  · rw [hd]
    exact h.type_eq
  intro i hu
  have hcached : s.view.Cached i := h.kept i ?_
  · rw [hv]
    exact hcached
  unfold View.Unlinked at hu ⊢
  change (s'.disk i).type ≠ 0 ∧ (s'.disk i).nlink = 0 at hu
  rcases eq_or_ne i d with rfl | hne
  · rw [hd] at hu
    exact hu
  · rw [hdisk, update_of_ne hne] at hu
    exact hu

theorem DirLocked.linksAsMap_new (h : DirLocked s dp d) (h0 : inum ≠ 0) (hinum : inum < 65536)
    (hnone : find (s.disk d).data name = none)
    (hroom : DESIZE * firstFree (s.disk d).data + DESIZE ≤ MAXFILE * BSIZE) :
    LinksAsMap s dp d name inum := by
  have hlinked := h.wellFormed.linked hnone h0 hinum hroom
  have hvia : Via Shows (dirlink dp name inum) (fun r w => r = 0 ∧
      w = s.view.setInode d ((s.disk d).addEntry name inum)) (fun _ => False) s.view :=
    via_dirlink_add h.at_dir h.locked h.type_eq h.wellFormed.toDirData h.kept hnone
      (fun _ => ⟨rfl, rfl⟩) fun hno => absurd hroom (not_le.mpr hno)
  obtain ⟨r, s', w, hrun, ⟨hc, rfl⟩, rfl, hw⟩ := hvia.exists_ok ⟨h.coherent, rfl⟩
  have hd : (s'.disk d) = (s.disk d).addEntry name inum := by
    have hdisk : s'.disk = update s.disk d ((s.disk d).addEntry name inum) :=
      congrArg View.inode hw
    rw [hdisk, update_self]
  have hdir := h.addEntry hc hw hlinked.wellFormed
  refine ⟨0, s', hrun, .inr ⟨rfl, hnone, ?_⟩, hdir.finds⟩
  rw [hd]
  exact hlinked

theorem DirLocked.linksAsMap_taken {e i : ℕ} (h : DirLocked s dp d)
    (hsome : find (s.disk d).data name = some (e, i)) (hfree : Free s.view i) :
    LinksAsMap s dp d name inum := by
  have hun : ∀ ip, s.view.Gets ip i → s.view.locked ip = false := by
    intro ip hg
    rcases hg.self with hnone | hat
    · rw [Bool.eq_false_iff]
      intro hl
      have hpos := ((h.coherent.entry ip).locked hl).1
      rw [Incore.held_eq_none.mp hnone] at hpos
      exact absurd hpos (Nat.lt_irrefl 0)
    · exact hfree.2 ip hat
  have hvia : Via Shows (dirlink dp name inum) (fun r w => r = -1 ∧ w = s.view) (fun _ => False)
      s.view :=
    via_dirlink_taken h.at_dir h.locked h.type_eq h.wellFormed.toDirData h.kept hsome hun
      ⟨rfl, rfl⟩ hfree.1
  obtain ⟨r, s', w, hrun, ⟨hc, rfl⟩, rfl, hw⟩ := hvia.exists_ok ⟨h.coherent, rfl⟩
  have hdisk : s'.disk = s.disk := congrArg View.inode hw
  have hdir : DirLocked s' dp d := by
    refine ⟨hc, ?_, ?_, ?_, ?_, ?_⟩
    · exact hw ▸ h.at_dir
    · exact hw ▸ h.locked
    · exact hdisk ▸ h.type_eq
    · exact hdisk ▸ h.wellFormed
    · exact hw ▸ h.kept
  refine ⟨-1, s', hrun, .inl ⟨rfl, ?_, congrFun hdisk d⟩, hdir.finds⟩
  rw [hsome]
  exact Option.some_ne_none _

theorem DirLocked.free_of_returns {e i : ℕ} {r : ℤ} {s' : Kernel} (h : DirLocked s dp d)
    (hsome : find (s.disk d).data name = some (e, i))
    (hrun : dirlink dp name inum s = .ok (r, s')) : Free s.view i := by
  refine ⟨fun hfull => ?_, fun ip hat => ?_⟩
  · have hnever : Via Shows (dirlink dp name inum) (fun _ _ => False) (fun _ => True) s.view :=
      via_dirlink_full h.at_dir h.locked h.type_eq h.wellFormed.toDirData h.kept hsome hfull trivial
    obtain ⟨w, -, hw⟩ := (hnever s ⟨h.coherent, rfl⟩).of_ok hrun
    exact hw
  rw [Bool.eq_false_iff]
  intro hlock
  have hnever : Via Shows (dirlink dp name inum) (fun _ _ => False) (fun _ => True) s.view :=
    via_dirlink_locked h.at_dir h.locked h.type_eq h.wellFormed.toDirData h.kept hsome hat hlock
      trivial
  obtain ⟨w, -, hw⟩ := (hnever s ⟨h.coherent, rfl⟩).of_ok hrun
  exact hw

/-- **A directory is a finite map** for `dirlink`, when the inode that it finds under the name, if
any, can be had. -/
theorem dirlink_map_iff (h : DirLocked s dp d) (h0 : inum ≠ 0) (hinum : inum < 65536)
    (hroom : find (s.disk d).data name = none →
      DESIZE * firstFree (s.disk d).data + DESIZE ≤ MAXFILE * BSIZE) : LinksAsMap s dp d name inum ↔
      ∀ e i, find (s.disk d).data name = some (e, i) → Free s.view i := by
  constructor
  · rintro ⟨r, s', hrun, -⟩ e i hsome
    exact h.free_of_returns hsome hrun
  intro hfree
  cases hfind : find (s.disk d).data name with
  | none => exact h.linksAsMap_new h0 hinum hfind (hroom hfind)
  | some q => exact h.linksAsMap_taken hfind (hfree q.1 q.2 hfind)

/-! ### The root directory -/

def lockedRoot : Kernel :=
  { boot with
    icache := fun ip => if ip = 0 then ⟨ROOTINO, 1, true, true, bootDisk ROOTINO⟩
      else ⟨0, 0, false, false, ⟨0, 0, 0, 0, []⟩⟩ }

theorem wellFormed_dotData : WellFormed (dotData ROOTINO ROOTINO) := by
  have hlen : (dotData ROOTINO ROOTINO).length % DESIZE = 0 := by decide +kernel
  have hpair : ∀ e < 2, ∀ e' < 2, namecmp (entry (dotData ROOTINO ROOTINO) e).name
      (entry (dotData ROOTINO ROOTINO) e').name = 0 → e = e' := by decide +kernel
  have hn : nentries (dotData ROOTINO ROOTINO) = 2 := by decide +kernel
  refine ⟨⟨hlen, by decide +kernel⟩, fun e e' hused hused' => ?_⟩
  exact hpair e (hn ▸ lt_nentries_of_used hlen hused) e' (hn ▸ lt_nentries_of_used hlen hused')

theorem dirLocked_lockedRoot : DirLocked lockedRoot 0 ROOTINO := by
  have hother : ∀ ip, ip ≠ 0 → lockedRoot.icache ip = ⟨0, 0, false, false, ⟨0, 0, 0, 0, []⟩⟩ :=
    fun ip hne => if_neg hne
  have href : ∀ ip, 0 < (lockedRoot.icache ip).ref → ip = 0 := by
    intro ip hpos
    by_contra hne
    rw [hother ip hne] at hpos
    exact absurd hpos (Nat.lt_irrefl 0)
  refine ⟨⟨fun ip => ?_, fun ip ip' h h' _ => (href ip h).trans (href ip' h').symm⟩, ⟨0, rfl⟩, rfl,
    rfl, wellFormed_dotData, fun i hu => ?_⟩
  · rcases eq_or_ne ip 0 with rfl | hne
    · exact ⟨fun _ _ => ⟨rfl, by decide⟩, fun _ => ⟨Nat.one_pos, rfl⟩, fun _ _ _ => rfl⟩
    · rw [hother ip hne]
      exact ⟨fun h => absurd h (Nat.lt_irrefl 0), fun h => absurd h Bool.false_ne_true,
        fun h => absurd h (Nat.lt_irrefl 0)⟩
  · have hnlink := hu.2
    rw [eq_root_of_bootDisk hu.1] at hnlink
    exact absurd hnlink (by decide)

/-- A new name. -/
theorem dirlink_map_iff_a : LinksAsMap lockedRoot 0 ROOTINO [97] 5 := by
  have hnone : find (lockedRoot.disk ROOTINO).data [97] = none := by decide +kernel
  refine (dirlink_map_iff dirLocked_lockedRoot (by decide) (by decide) fun _ => ?_).mpr
    fun e i hsome => ?_
  · decide +kernel
  · rw [hnone] at hsome
    cases hsome

/-- `dirlink(dp, ".", inum)` sleeps on the lock of `dp`, which its caller holds. -/
theorem dirlink_dot_sleeps : DirLocked lockedRoot 0 ROOTINO ∧
    find (lockedRoot.disk ROOTINO).data dot = some (0, ROOTINO) ∧
    dirlink 0 dot 5 lockedRoot = .error .deadlock := by
  have hsome : find (lockedRoot.disk ROOTINO).data dot = some (0, ROOTINO) := by decide +kernel
  have h := dirLocked_lockedRoot
  have hvia : Via Shows (dirlink 0 dot 5) (fun _ _ => False) (fun e => e = .deadlock)
      lockedRoot.view :=
    via_dirlink_self h.at_dir h.locked h.type_eq h.wellFormed.toDirData h.kept hsome rfl
  have hwp := hvia lockedRoot ⟨h.coherent, rfl⟩
  refine ⟨h, hsome, ?_⟩
  cases hrun : dirlink 0 dot 5 lockedRoot with
  | ok x =>
    obtain ⟨w, -, hw⟩ := hwp.of_ok hrun
    exact hw.elim
  | error e => rw [hwp.of_error hrun]

end Xv6.Names
