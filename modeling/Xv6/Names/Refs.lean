import Mathlib.Data.Finset.Union
import Xv6.Names.View

/-!
# Taking and dropping references

How the changes to a view combine. A call takes references along a path and drops them again; as
long as no inode loses its last reference and its links that way, the view is the same as before.
`View.Kept` excludes that case: every inode without links is referenced by somebody else.

`View.Room H` says that `iget` has an entry for each of the inodes `H` at the same time.
-/

namespace Xv6.Names

open Function Finset

namespace View

variable {v : View} {ip ip' : Ptr} {i j : ℕ}

def withTable (v : View) (t : ℕ → Dinode) : View := { v with inode := t }

def Kept (v : View) : Prop := ∀ i, v.Unlinked i → v.Cached i

def Quiet (v : View) : Prop := ∀ ip, v.locked ip = false

/-- There is no entry left for inode `i`. -/
def Full (v : View) (i : ℕ) : Prop := ¬ v.Cached i ∧ ∀ ip, v.cache ip ≠ none

/-! ### Fields -/

@[simp] theorem inode_lock : (v.lock ip).inode = v.inode := rfl
@[simp] theorem locked_lock_self : (v.lock ip).locked ip = true := update_self ..
@[simp] theorem locked_unlock_self : (v.unlock ip).locked ip = false := update_self ..
@[simp] theorem inode_setInode {d : Dinode} : (v.setInode i d).inode = update v.inode i d := rfl

@[simp] theorem setInode_setInode {x y : Dinode} :
    (v.setInode i x).setInode i y = v.setInode i y := by
  unfold setInode
  rw [update_idem]

theorem locked_lock_of_ne (h : ip' ≠ ip) : (v.lock ip).locked ip' = v.locked ip' :=
  update_of_ne h ..

theorem cache_take_self : (v.take ip i).cache ip = some (Held.inc i (v.cache ip)) :=
  update_self ..

theorem cache_take_of_ne (h : ip' ≠ ip) : (v.take ip i).cache ip' = v.cache ip' :=
  update_of_ne h ..

theorem At.inum_eq (h : v.At ip i) (h' : v.At ip j) : i = j := by
  obtain ⟨n, hn⟩ := h
  obtain ⟨m, hm⟩ := h'
  rw [hn] at hm
  cases hm
  rfl

theorem At.take (h : v.At ip i) (ip' : Ptr) (j : ℕ) : (v.take ip' j).At ip i := by
  rcases eq_or_ne ip ip' with rfl | hne
  · obtain ⟨n, hn⟩ := h
    exact ⟨n + 1, by rw [cache_take_self, hn]; rfl⟩
  · obtain ⟨n, hn⟩ := h
    exact ⟨n, by rw [cache_take_of_ne hne, hn]⟩

theorem Gets.at_take (h : v.Gets ip i) : (v.take ip i).At ip i := by
  rcases h.self with h | h
  · exact ⟨0, by rw [cache_take_self, h]; rfl⟩
  · exact h.take ip i

theorem At.of_take (h : (v.take ip' j).At ip i) : v.At ip i ∨ (ip = ip' ∧ i = j) := by
  rcases eq_or_ne ip ip' with rfl | hne
  · obtain ⟨n, hn⟩ := h
    rw [cache_take_self] at hn
    cases hc : v.cache ip with
    | none =>
      rw [hc] at hn
      cases hn
      exact .inr ⟨rfl, rfl⟩
    | some h =>
    rw [hc] at hn
    cases hn
    exact .inl ⟨h.more, hc⟩
  · obtain ⟨n, hn⟩ := h
    rw [cache_take_of_ne hne] at hn
    exact .inl ⟨n, hn⟩

theorem cached_take (h : v.Gets ip i) : (v.take ip i).Cached j ↔ v.Cached j ∨ j = i := by
  constructor
  · rintro ⟨ip', hat⟩
    rcases hat.of_take with hat | ⟨-, rfl⟩
    · exact .inl ⟨ip', hat⟩
    · exact .inr rfl
  · rintro (⟨ip', hat⟩ | rfl)
    · exact ⟨ip', hat.take ip i⟩
    · exact ⟨ip, h.at_take⟩

theorem Kept.take (h : v.Kept) (hg : v.Gets ip i) : (v.take ip i).Kept :=
  fun j hj => (cached_take hg).mpr (.inl (h j hj))

/-! ### Dropping what was taken -/

theorem cache_drop_take (v : View) (ip : Ptr) (i : ℕ) : (v.take ip i).drop ip = v := by
  ext1
  case cache =>
    funext ip'
    rcases eq_or_ne ip' ip with rfl | hne
    · change update _ _ _ _ = _
      rw [update_self, cache_take_self]
      cases v.cache ip' <;> rfl
    · change update _ _ _ _ = _
      rw [update_of_ne hne, cache_take_of_ne hne]
  all_goals rfl

theorem put_take (h : v.Gets ip i) (hk : v.Kept) : (v.take ip i).put ip i = v := by
  have hnot : ¬ ((v.take ip i).cache ip = some ⟨i, 0⟩ ∧ (v.take ip i).Unlinked i) := by
    rintro ⟨hc, hu⟩
    obtain ⟨ip', hat⟩ := hk i hu
    obtain ⟨n, hn⟩ := h.only ip' hat ▸ hat
    rw [cache_take_self, hn] at hc
    cases hc
  rw [put, if_neg hnot, cache_drop_take]

theorem take_comm (hne : ip ≠ ip') : (v.take ip i).take ip' j = (v.take ip' j).take ip i := by
  ext1
  case cache =>
    change update (update _ _ _) _ _ = update (update _ _ _) _ _
    rw [cache_take_of_ne hne.symm, cache_take_of_ne hne, update_comm hne]
  all_goals rfl

theorem Gets.ne_of_at (h : v.Gets ip' j) (hat : v.At ip i) (hij : i ≠ j) : ip ≠ ip' := by
  rintro rfl
  rcases h.self with hs | hs
  · obtain ⟨n, hn⟩ := hat
    rw [hs] at hn
    cases hn
  · exact hij (hat.inum_eq hs)

theorem Gets.eq_of_at (h : v.Gets ip' j) (hat : v.At ip j) : ip = ip' := h.only ip hat

theorem Gets.swap (h : v.Gets ip i) (h' : (v.take ip i).Gets ip' j) (hij : i ≠ j) :
    ip ≠ ip' ∧ v.Gets ip' j ∧ (v.take ip' j).Gets ip i := by
  have hne := h'.ne_of_at h.at_take hij
  refine ⟨hne, ⟨?_, fun ip'' hat => h'.only ip'' (hat.take ip i)⟩, ?_, fun ip'' hat => ?_⟩
  · rcases h'.self with hs | hs
    · exact .inl (by rwa [cache_take_of_ne hne.symm] at hs)
    · rcases hs.of_take with hs | ⟨-, hji⟩
      · exact .inr hs
      · exact absurd hji.symm hij
  · rw [cache_take_of_ne hne]
    exact h.self.imp id fun hs => hs.take ip' j
  · rcases hat.of_take with hat | ⟨-, hi⟩
    · exact h.only ip'' hat
    · exact absurd hi hij

theorem put_take_take (h : v.Gets ip i) (hk : v.Kept) (h' : (v.take ip i).Gets ip' j) :
    v.Gets ip' j ∧ ((v.take ip i).take ip' j).put ip i = v.take ip' j := by
  rcases eq_or_ne i j with rfl | hij
  · obtain rfl : ip = ip' := h'.eq_of_at h.at_take
    refine ⟨h, ?_⟩
    have hnot : ¬ (((v.take ip i).take ip i).cache ip = some ⟨i, 0⟩ ∧
        ((v.take ip i).take ip i).Unlinked i) := by
      rintro ⟨hc, -⟩
      rw [cache_take_self, cache_take_self] at hc
      exact absurd (congrArg Held.more (Option.some.inj hc)) (Nat.succ_ne_zero _)
    rw [put, if_neg hnot, cache_drop_take]
  · obtain ⟨hne, hg, hg'⟩ := h.swap h' hij
    exact ⟨hg, by rw [take_comm hne, put_take hg' (hk.take hg)]⟩

/-! ### Locks -/

theorem unlock_lock (h : v.locked ip = false) : (v.lock ip).unlock ip = v := by
  ext1
  case locked =>
    change update (update v.locked ip true) ip false = v.locked
    rw [update_idem, ← h, update_eq_self]
  all_goals rfl

theorem unlock_take (v : View) (ip ip' : Ptr) (i : ℕ) :
    (v.take ip' i).unlock ip = (v.unlock ip).take ip' i := rfl

theorem gets_lock : (v.lock ip').Gets ip i ↔ v.Gets ip i :=
  ⟨fun h => ⟨h.self, h.only⟩, fun h => ⟨h.self, h.only⟩⟩

theorem eq_withTable {w : View} {t : ℕ → Dinode} (hv : v.Quiet) (hw : w.Quiet)
    (hinode : w.inode = t) (hcache : w.cache = v.cache) (hftable : w.ftable = v.ftable)
    (hprocs : w.procs = v.procs) : w = v.withTable t := by
  ext1
  · exact hinode
  · exact hcache
  · funext ip
    exact (hw ip).trans (hv ip).symm
  · exact hftable
  · exact hprocs

/-! ### Running out of entries -/

def cached (v : View) : Finset ℕ :=
  univ.biUnion fun ip => (v.cache ip).elim ∅ fun h => {h.inum}

theorem mem_cached : i ∈ v.cached ↔ v.Cached i := by
  simp only [cached, mem_biUnion, mem_univ, true_and]
  refine exists_congr fun ip => ?_
  unfold At
  cases v.cache ip with
  | none => simp
  | some h =>
    simp only [Option.elim_some, mem_singleton, Option.some.injEq]
    exact ⟨fun hi => ⟨h.more, hi ▸ rfl⟩, fun ⟨n, hn⟩ => hn ▸ rfl⟩

def nfree (v : View) : ℕ := (univ.filter fun ip => v.cache ip = none).card

/-- There are enough entries for the inodes `H`. -/
def Room (v : View) (H : Finset ℕ) : Prop := (H \ v.cached).card ≤ v.nfree

instance (v : View) (H : Finset ℕ) : Decidable (v.Room H) := inferInstanceAs (Decidable (_ ≤ _))

theorem full_iff : v.Full i ↔ ¬ v.Room {i} := by
  unfold Full Room
  rw [← mem_cached]
  by_cases hi : i ∈ v.cached
  · have hempty : ({i} : Finset ℕ) \ v.cached = ∅ := by
      rw [sdiff_eq_empty_iff_subset]
      exact singleton_subset_iff.mpr hi
    simp [hi, hempty]
  have hself : ({i} : Finset ℕ) \ v.cached = {i} :=
    sdiff_eq_self_of_disjoint (disjoint_singleton_left.mpr hi)
  rw [hself, card_singleton, nfree, Nat.not_le, Nat.lt_one_iff, card_eq_zero, filter_eq_empty_iff]
  simp [hi]

theorem cached_take_eq (h : v.Gets ip i) : (v.take ip i).cached = insert i v.cached := by
  ext j
  rw [mem_cached, cached_take h, mem_insert, mem_cached, or_comm]

theorem nfree_take_of_at (h : v.At ip i) : (v.take ip i).nfree = v.nfree := by
  unfold nfree
  congr 1
  ext ip'
  rcases eq_or_ne ip' ip with rfl | hne
  · obtain ⟨n, hn⟩ := h
    simp [cache_take_self, hn]
  · simp [cache_take_of_ne hne]

theorem nfree_take_of_none (h : v.cache ip = none) : (v.take ip i).nfree + 1 = v.nfree := by
  have heq : (univ.filter fun ip' => (v.take ip i).cache ip' = none) =
      (univ.filter fun ip' => v.cache ip' = none).erase ip := by
    ext ip'
    rcases eq_or_ne ip' ip with rfl | hne
    · simp [cache_take_self]
    · simp [cache_take_of_ne hne, hne]
  unfold nfree
  rw [heq]
  exact card_erase_add_one (by simp [h])

theorem room_take (h : v.Gets ip i) (H : Finset ℕ) :
    (v.take ip i).Room H ↔ v.Room (insert i H) := by
  unfold Room
  rw [cached_take_eq h]
  rcases h.self with hs | hs
  · have hi : i ∉ v.cached := by
      rw [mem_cached]
      rintro ⟨ip', hat⟩
      obtain ⟨n, hn⟩ := h.only ip' hat ▸ hat
      rw [hs] at hn
      cases hn
    have heq : insert i H \ v.cached = insert i (H \ insert i v.cached) := by
      ext j
      by_cases hj : j = i
      · simp [hj, hi]
      · simp [hj]
    have hnot : i ∉ H \ insert i v.cached := by simp
    rw [heq, card_insert_of_notMem hnot, ← nfree_take_of_none (i := i) hs]
    omega
  · have hi : i ∈ v.cached := mem_cached.mpr ⟨ip, hs⟩
    rw [insert_eq_self.mpr hi, insert_sdiff_of_mem _ hi, nfree_take_of_at hs]

end View

end Xv6.Names
