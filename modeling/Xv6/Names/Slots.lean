import Xv6.Names.Dir

/-!
# Well-formed directories

A directory as the function from slots to inode numbers, zero where the slot is free. Storing an
entry is an update of that function.

A directory is well formed if its first two slots are `"."`, for itself, and `".."`, no two slots in
use have the same name, and no other slot names the directory.
-/

namespace Xv6.Names

open Function

/-- The inode that entry `e` names. -/
def slots (data : List UInt8) (e : ℕ) : ℕ := (entry data e).inum

def NDIRENT : ℕ := MAXFILE * BSIZE / DESIZE

variable {data name : List UInt8} {d e i : ℕ}

theorem DirData.nentries_le (h : DirData data) : nentries data ≤ NDIRENT :=
  Nat.div_le_div_right h.le

theorem DirData.slots_of_le (h : DirData data) (he : nentries data ≤ e) : slots data e = 0 :=
  entry_of_nentries_le h.mod he

theorem DirData.lt_of_slots (h : DirData data) (he : slots data e ≠ 0) : e < nentries data := by
  by_contra hge
  exact he (h.slots_of_le (not_lt.mp hge))

/-! ### Storing an entry -/

theorem slots_putEntry {de : Dirent} (h : e ≤ nentries data) (hde : de.name.length = DIRSIZ)
    (hi : de.inum < 65536) : slots (putEntry data e de) = update (slots data) e de.inum := by
  funext e'
  rcases eq_or_ne e' e with rfl | hne
  · rw [update_self, slots, entry_putEntry_self h hde hi]
  · rw [update_of_ne hne, slots, entry_putEntry_of_ne h hde hne, slots]

theorem DirData.putEntry {de : Dirent} (h : DirData data) (he : e ≤ nentries data)
    (hde : de.name.length = DIRSIZ) (hfit : DESIZE * e + DESIZE ≤ MAXFILE * BSIZE) :
    DirData (putEntry data e de) where
  mod := (nentries_putEntry h.mod he hde).1
  le := by
    rw [length_putEntry he hde]
    exact max_le h.le hfit

theorem DirData.fits (h : DirData data) (he : e < nentries data) :
    DESIZE * e + DESIZE ≤ MAXFILE * BSIZE := by
  refine le_trans ?_ h.le
  rw [h.length_eq]
  exact Nat.mul_le_mul_left DESIZE he

/-! ### Well-formed directories -/

/-- The bytes of directory `d` are well formed. -/
structure DirOk (d : ℕ) (data : List UInt8) : Prop where
  whole : DirData data
  two : 2 ≤ nentries data
  dot : slots data 0 = d ∧ cname (entry data 0).name = dot
  dotdot : slots data 1 ≠ 0 ∧ cname (entry data 1).name = dotdot
  distinct : ∀ e e', slots data e ≠ 0 → slots data e' ≠ 0 →
    cname (entry data e).name = cname (entry data e').name → e = e'
  other : ∀ e, 2 ≤ e → slots data e ≠ d

theorem DirOk.find_self (h : DirOk d data) (hf : find data name = some (e, d)) :
    cname name = Names.dot ∨ cname name = Names.dotdot := by
  obtain ⟨-, hinum, -, hname⟩ := find_eq_some hf
  rcases Nat.lt_or_ge e 2 with hlt | hge
  · obtain rfl | rfl : e = 0 ∨ e = 1 := by omega
    · exact .inl (hname.trans h.dot.2)
    · exact .inr (hname.trans h.dotdot.2)
  · exact absurd hinum (h.other e hge)

theorem DirOk.two_le (h : DirOk d data) (hdot : cname (entry data e).name ≠ Names.dot)
    (hdotdot : cname (entry data e).name ≠ Names.dotdot) : 2 ≤ e := by
  by_contra hlt
  obtain rfl | rfl : e = 0 ∨ e = 1 := by omega
  · exact hdot h.dot.2
  · exact hdotdot h.dotdot.2

theorem DirOk.two_le_firstFree (h : DirOk d data) (hd : d ≠ 0) : 2 ≤ firstFree data := by
  have hfree : slots data (firstFree data) = 0 := inum_firstFree h.whole.mod
  by_contra hlt
  obtain h₀ | h₁ : firstFree data = 0 ∨ firstFree data = 1 := by omega
  · rw [h₀, h.dot.1] at hfree
    exact hd hfree
  · rw [h₁] at hfree
    exact h.dotdot.1 hfree

theorem DirOk.put {de : Dirent} (h : DirOk d data) (h₂ : 2 ≤ e) (he : e ≤ nentries data)
    (hde : de.name.length = DIRSIZ) (hi : de.inum < 65536) (hid : de.inum ≠ d)
    (hfit : DESIZE * e + DESIZE ≤ MAXFILE * BSIZE)
    (hnew : de.inum ≠ 0 → ∀ e', slots data e' ≠ 0 → cname de.name ≠ cname (entry data e').name) :
    DirOk d (putEntry data e de) := by
  have hslots := slots_putEntry he hde hi
  have hother : ∀ e', e' ≠ e → entry (putEntry data e de) e' = entry data e' :=
    fun e' hne => entry_putEntry_of_ne he hde hne
  have hself : entry (putEntry data e de) e = de := entry_putEntry_self he hde hi
  refine ⟨h.whole.putEntry he hde hfit, ?_, ?_, ?_, ?_, ?_⟩
  · rw [(nentries_putEntry h.whole.mod he hde).2]
    exact le_max_of_le_left h.two
  · rw [slots, hother 0 (by omega)]
    exact h.dot
  · rw [slots, hother 1 (by omega)]
    exact h.dotdot
  · intro a b ha hb hab
    rw [hslots, update_apply] at ha hb
    rcases eq_or_ne a e with rfl | hane
    · rcases eq_or_ne b a with rfl | hbne
      · rfl
      rw [if_pos rfl] at ha
      rw [if_neg hbne] at hb
      rw [hself, hother b hbne] at hab
      exact absurd hab (hnew ha b hb)
    rw [if_neg hane] at ha
    rcases eq_or_ne b e with rfl | hbne
    · rw [if_pos rfl] at hb
      rw [hself, hother a hane] at hab
      exact absurd hab.symm (hnew hb a ha)
    · rw [if_neg hbne] at hb
      rw [hother a hane, hother b hbne] at hab
      exact h.distinct a b ha hb hab
  · intro e' he'
    rw [hslots, update_apply]
    split
    · exact hid
    · exact h.other e' he'

theorem DirOk.add (h : DirOk d data) (hd : d ≠ 0) (hnew : find data name = none)
    (hfit : DESIZE * firstFree data + DESIZE ≤ MAXFILE * BSIZE) (hi : i < 65536) (hid : i ≠ d) :
    DirOk d (putEntry data (firstFree data) ⟨i, strncpy name DIRSIZ⟩) := by
  refine h.put (h.two_le_firstFree hd) (firstFree_le data) (length_strncpy DIRSIZ name) hi hid hfit
    fun _ e he => ?_
  rw [cname_strncpy]
  exact find_eq_none hnew (h.whole.lt_of_slots he) he

theorem DirOk.clear (h : DirOk d data) (hd : d ≠ 0) (h₂ : 2 ≤ e) (he : e < nentries data) :
    DirOk d (putEntry data e Dirent.free) :=
  h.put h₂ he.le rfl (by decide) hd.symm (h.whole.fits he) fun h₀ => absurd rfl h₀

theorem DirOk.new (hi₀ : i ≠ 0) (hi : i < 65536) (hd₀ : d ≠ 0) (hd : d < 65536) :
    DirOk i (dotData i d) := by
  have hlen := length_dotData i d
  have hn : nentries (dotData i d) = 2 := by
    rw [nentries, hlen]
    rfl
  have hwhole : DirData (dotData i d) := by
    constructor
    · rw [hlen]
      rfl
    · rw [hlen]
      decide
  have h₀ := entry_dotData_zero (d := d) hi
  have h₁ := entry_dotData_one (i := i) hd
  have hslot : ∀ e, slots (dotData i d) e ≠ 0 → e = 0 ∨ e = 1 := by
    intro e he
    have := hwhole.lt_of_slots he
    omega
  have hdot : cname (strncpy Names.dot DIRSIZ) = Names.dot := by decide
  have hdotdot : cname (strncpy Names.dotdot DIRSIZ) = Names.dotdot := by decide
  have hne : cname (strncpy Names.dot DIRSIZ) ≠ cname (strncpy Names.dotdot DIRSIZ) := by decide
  refine ⟨hwhole, hn.ge, ?_, ?_, ?_, ?_⟩
  · rw [slots, h₀]
    exact ⟨rfl, hdot⟩
  · rw [slots, h₁]
    exact ⟨hd₀, hdotdot⟩
  · intro a b ha hb hab
    rcases hslot a ha with rfl | rfl
    · rcases hslot b hb with rfl | rfl
      · rfl
      · rw [h₀, h₁] at hab
        exact absurd hab hne
    rcases hslot b hb with rfl | rfl
    · rw [h₀, h₁] at hab
      exact absurd hab.symm hne
    · rfl
  · intro e he
    rw [hwhole.slots_of_le (hn.le.trans he)]
    exact hi₀.symm

end Xv6.Names
