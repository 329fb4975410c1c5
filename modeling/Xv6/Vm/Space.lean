import Xv6.Lib.Footprint
import Xv6.Vm.Memory

/-!
# Address spaces

The pages of an address space are its page directory, the page tables that the directory points to,
and the pages that the present entries below `KERNBASE` point to. They are counted with
multiplicity: a space that nobody shares has every page once.
-/

namespace Xv6.Vm

open Footprint Tally Function Finset

/-- Virtual pages below `KERNBASE`. -/
def USERPAGES : ℕ := 2 ^ 19

def VPAGES : ℕ := 2 ^ 20

def heap : Heap Mem ℕ (ℕ → ℕ) := ⟨fun s x => s.freelist.count x, Mem.word⟩

/-- The entry of virtual page `n`, zero if there is no page table for it. -/
def entry (s : Mem) (d n : ℕ) : ℕ :=
  if Present (s.word d (n / 1024)) then s.word (pageOf (s.word d (n / 1024))) (n % 1024) else 0

/-- One, if an entry points to page `x`. -/
def hit (x w : ℕ) : ℕ := if Present w ∧ pageOf w = x then 1 else 0

/-- How often `x` is a page table of directory `d`. -/
def tables (s : Mem) (d x : ℕ) : ℕ := tally (range NPDENTRIES) (hit x) (s.word d)

/-- How many entries below `KERNBASE` point to `x`. -/
def users (s : Mem) (d x : ℕ) : ℕ := tally (range USERPAGES) (hit x) (entry s d)

/-- The pages of the address space with directory `d`. -/
def space (s : Mem) (d : ℕ) : ℕ → ℕ := fun x => only d x + tables s d x + users s d x

variable {s s' : Mem} {d x i n w p perm : ℕ}

/-! ### Entries -/

theorem hit_pos (h : Present w) : hit (pageOf w) w = 1 := if_pos ⟨h, rfl⟩

theorem hit_of_not_present (h : ¬ Present w) : hit x w = 0 := if_neg fun hc => h hc.1

theorem present_mkEntry : Present (mkEntry p perm) := by
  unfold Present mkEntry
  omega

theorem pageOf_mkEntry (h : perm < 4096) : pageOf (mkEntry p perm) = p := by
  unfold pageOf mkEntry
  omega

theorem hit_mkEntry (h : perm < 4096) : hit x (mkEntry p perm) = only p x := by
  unfold hit only
  rw [pageOf_mkEntry h]
  simp only [present_mkEntry, true_and, eq_comm]

theorem not_present_zero : ¬ Present 0 := by decide

/-! ### What a space depends on -/

/-- Page `x` is the directory or one of the page tables. -/
def IsTable (s : Mem) (d x : ℕ) : Prop :=
  x = d ∨ ∃ i < NPDENTRIES, Present (s.word d i) ∧ pageOf (s.word d i) = x

theorem tables_pos (hi : i < NPDENTRIES) (h : Present (s.word d i)) :
    1 ≤ tables s d (pageOf (s.word d i)) :=
  (hit_pos h).symm.le.trans (le_tally (mem_range.mpr hi))

theorem IsTable.space_ne_zero (h : IsTable s d x) : space s d x ≠ 0 := by
  unfold space
  rcases h with rfl | ⟨i, hi, hp, rfl⟩
  · rw [only_self]
    omega
  · have := tables_pos hi hp
    omega

theorem space_self_ne_zero (s : Mem) (d : ℕ) : space s d d ≠ 0 :=
  IsTable.space_ne_zero (.inl rfl)

theorem div_lt_NPDENTRIES (h : n < VPAGES) : n / 1024 < NPDENTRIES := by
  unfold VPAGES at h
  unfold NPDENTRIES
  omega

theorem USERPAGES_le : USERPAGES ≤ VPAGES := by decide

theorem lt_USERPAGES {sz : ℕ} (hsz : sz ≤ KERNBASE) (h : PGSIZE * n < sz) : n < USERPAGES := by
  unfold KERNBASE at hsz
  unfold PGSIZE at h
  unfold USERPAGES
  omega

theorem isTable_of_present (hn : n < VPAGES) (h : Present (s.word d (n / 1024))) :
    IsTable s d (pageOf (s.word d (n / 1024))) :=
  .inr ⟨_, div_lt_NPDENTRIES hn, h, rfl⟩

theorem entry_congr (h : ∀ x, IsTable s d x → s'.word x = s.word x) (hn : n < VPAGES) :
    entry s' d n = entry s d n := by
  unfold entry
  rw [h d (.inl rfl)]
  split
  · next hp => rw [h _ (isTable_of_present hn hp)]
  · rfl

theorem users_congr (h : ∀ n < USERPAGES, entry s' d n = entry s d n) : users s' d = users s d := by
  funext x
  exact tally_congr fun n hn => by rw [h n (mem_range.mp hn)]

theorem space_congr (h : ∀ x, IsTable s d x → s'.word x = s.word x) : space s' d = space s d := by
  have husers := users_congr fun n hn => entry_congr h (lt_of_lt_of_le hn USERPAGES_le)
  funext x
  unfold space tables
  rw [h d (.inl rfl), husers]

theorem isLocal_space (d : ℕ) : heap.IsLocal fun s => space s d :=
  fun _ _ h => space_congr fun _ hx => h _ hx.space_ne_zero

/-! ### Spaces without sharing -/

/-- The page tables are distinct pages, and none of them is the directory. -/
structure Distinct (s : Mem) (d : ℕ) : Prop where
  ne_dir : ∀ i < NPDENTRIES, Present (s.word d i) → pageOf (s.word d i) ≠ d
  inj : ∀ i j, i < NPDENTRIES → j < NPDENTRIES → Present (s.word d i) → Present (s.word d j) →
    pageOf (s.word d i) = pageOf (s.word d j) → i = j

section Sole

variable (hs : ∀ x, space s d x ≤ 1)
include hs

theorem table_ne_dir (hi : i < NPDENTRIES) (h : Present (s.word d i)) :
    pageOf (s.word d i) ≠ d := by
  intro heq
  have hle := hs d
  have hpos := tables_pos hi h
  rw [heq] at hpos
  unfold space at hle
  rw [only_self] at hle
  omega

theorem table_inj {j : ℕ} (hi : i < NPDENTRIES) (hj : j < NPDENTRIES) (h : Present (s.word d i))
    (h' : Present (s.word d j)) (heq : pageOf (s.word d i) = pageOf (s.word d j)) : i = j := by
  by_contra hne
  have hle := hs (pageOf (s.word d i))
  have htwo := add_le_tally (g := hit (pageOf (s.word d i))) (h := s.word d)
    (mem_range.mpr hi) (mem_range.mpr hj) hne
  have hhit : hit (pageOf (s.word d i)) (s.word d j) = 1 := by
    rw [heq]
    exact hit_pos h'
  rw [hit_pos h, hhit] at htwo
  unfold space tables at hle
  omega

theorem not_isTable_of_entry (hn : n < USERPAGES) (h : Present (entry s d n)) :
    ¬ IsTable s d (pageOf (entry s d n)) := by
  have hle := hs (pageOf (entry s d n))
  have hpos : 1 ≤ users s d (pageOf (entry s d n)) :=
    (hit_pos h).symm.le.trans (le_tally (mem_range.mpr hn))
  unfold space at hle
  rintro (heq | ⟨i, hi, hp, heq⟩)
  · rw [heq, only_self] at hle
    rw [heq] at hpos
    omega
  · have htab := tables_pos hi hp
    rw [heq] at htab
    omega

theorem distinct_of_sole : Distinct s d :=
  ⟨fun _ hi h => table_ne_dir hs hi h, fun _ _ hi hj h h' heq => table_inj hs hi hj h h' heq⟩

end Sole

/-! ### Stores -/

theorem word_fill_self (f : ℕ → ℕ) : (s.fill x f).word x = f := update_self ..

theorem word_fill_of_ne {y : ℕ} (f : ℕ → ℕ) (h : y ≠ x) : (s.fill x f).word y = s.word y :=
  update_of_ne h ..

theorem space_fill (hx : ¬ IsTable s d x) (f : ℕ → ℕ) :
    space (s.fill x f) d = space s d ∧ ∀ n < VPAGES, entry (s.fill x f) d n = entry s d n := by
  have hword : ∀ y, IsTable s d y → (s.fill x f).word y = s.word y := by
    intro y hy
    refine word_fill_of_ne f ?_
    rintro rfl
    exact hx hy
  exact ⟨space_congr hword, fun n hn => entry_congr hword hn⟩

theorem Distinct.install (hs : Distinct s d) (hperm : perm < 4096) (h : ¬ Present (s.word d i))
    (hp : s.word p = fun _ => 0) (hne : p ≠ d) :
    ∀ n < VPAGES, entry (s.store d i (mkEntry p perm)) d n = entry s d n := by
  have hdir : (s.store d i (mkEntry p perm)).word d =
      update (s.word d) i (mkEntry p perm) := word_fill_self _
  have hother : ∀ y, y ≠ d → (s.store d i (mkEntry p perm)).word y = s.word y :=
    fun y hy => word_fill_of_ne _ hy
  intro n hn
  unfold entry
  rcases eq_or_ne (n / 1024) i with heq | hneq
  · rw [hdir, heq, update_self, if_pos present_mkEntry, if_neg h, pageOf_mkEntry hperm,
      hother p hne, hp]
  rw [hdir, update_of_ne hneq]
  split
  · next hpres => rw [hother _ (hs.ne_dir _ (div_lt_NPDENTRIES hn) hpres)]
  · rfl

theorem space_install {perm : ℕ} (hperm : perm < 4096) (hs : ∀ x, space s d x ≤ 1)
    (hi : i < NPDENTRIES) (h : ¬ Present (s.word d i)) (hp : s.word p = fun _ => 0) (hne : p ≠ d) :
    space (s.store d i (mkEntry p perm)) d = space s d + only p ∧
      ∀ n < VPAGES, entry (s.store d i (mkEntry p perm)) d n = entry s d n := by
  have hentry := (distinct_of_sole hs).install hperm h hp hne
  set s' := s.store d i (mkEntry p perm) with hs'
  have hdir : s'.word d = update (s.word d) i (mkEntry p perm) := word_fill_self _
  refine ⟨funext fun x => ?_, hentry⟩
  have husers : users s' d = users s d :=
    users_congr fun n hn => hentry n (lt_of_lt_of_le hn USERPAGES_le)
  have htally := tally_update (g := hit x) (h := s.word d) (mem_range.mpr hi) (mkEntry p perm)
  rw [hit_of_not_present h, hit_mkEntry hperm] at htally
  simp only [space, tables, Pi.add_apply]
  rw [husers, hdir]
  omega

theorem Distinct.setEntry (hs : Distinct s d) (hn : n < VPAGES)
    (h : Present (s.word d (n / 1024))) (w : ℕ) :
    (s.store (pageOf (s.word d (n / 1024))) (n % 1024) w).word d = s.word d ∧
      ∀ m < VPAGES, entry (s.store (pageOf (s.word d (n / 1024))) (n % 1024) w) d m =
        if m = n then w else entry s d m := by
  set t := pageOf (s.word d (n / 1024)) with ht
  have htd : t ≠ d := hs.ne_dir _ (div_lt_NPDENTRIES hn) h
  have hdir : (s.store t (n % 1024) w).word d = s.word d := word_fill_of_ne _ (Ne.symm htd)
  have htab : (s.store t (n % 1024) w).word t = update (s.word t) (n % 1024) w :=
    word_fill_self _
  refine ⟨hdir, fun m hm => ?_⟩
  unfold entry
  rw [hdir]
  by_cases hsame : m / 1024 = n / 1024
  · rw [hsame, if_pos h, if_pos h, ← ht, htab]
    rcases eq_or_ne m n with rfl | hne
    · rw [update_self, if_pos rfl]
    · rw [update_of_ne (by omega), if_neg hne]
  have hne : m ≠ n := fun heq => hsame (by rw [heq])
  rw [if_neg hne]
  split
  · next hp =>
    have hpage : pageOf (s.word d (m / 1024)) ≠ t := fun heq =>
      hsame (hs.inj _ _ (div_lt_NPDENTRIES hm) (div_lt_NPDENTRIES hn) hp h heq)
    rw [Mem.store, word_fill_of_ne _ hpage]
  · rfl

theorem entry_setEntry (hs : ∀ x, space s d x ≤ 1) (hn : n < VPAGES)
    (h : Present (s.word d (n / 1024))) (w : ℕ) :
    (s.store (pageOf (s.word d (n / 1024))) (n % 1024) w).word d = s.word d ∧
      ∀ m < VPAGES, entry (s.store (pageOf (s.word d (n / 1024))) (n % 1024) w) d m =
        if m = n then w else entry s d m :=
  (distinct_of_sole hs).setEntry hn h w

theorem space_setEntry (hs : ∀ x, space s d x ≤ 1) (hn : n < USERPAGES)
    (h : Present (s.word d (n / 1024))) (w x : ℕ) :
    space (s.store (pageOf (s.word d (n / 1024))) (n % 1024) w) d x + hit x (entry s d n) =
      space s d x + hit x w := by
  obtain ⟨hdir, hentry⟩ := entry_setEntry hs (lt_of_lt_of_le hn USERPAGES_le) h w
  have htally := tally_update (g := hit x) (h := entry s d) (mem_range.mpr hn) w
  have husers : users (s.store (pageOf (s.word d (n / 1024))) (n % 1024) w) d x =
      tally (range USERPAGES) (hit x) (update (entry s d) n w) := by
    refine tally_congr fun m hm => ?_
    rw [hentry m (lt_of_lt_of_le (mem_range.mp hm) USERPAGES_le), update_apply]
  have hold : users s d x = tally (range USERPAGES) (hit x) (entry s d) := rfl
  simp only [space, tables]
  rw [hdir, husers, hold]
  omega

theorem space_setEntry_kernel (hs : ∀ x, space s d x ≤ 1) (hn : n < VPAGES)
    (hge : USERPAGES ≤ n) (h : Present (s.word d (n / 1024))) (w : ℕ) :
    space (s.store (pageOf (s.word d (n / 1024))) (n % 1024) w) d = space s d := by
  obtain ⟨hdir, hentry⟩ := entry_setEntry hs hn h w
  have husers : users (s.store (pageOf (s.word d (n / 1024))) (n % 1024) w) d = users s d :=
    users_congr fun m hm => by
      rw [hentry m (lt_of_lt_of_le hm USERPAGES_le), if_neg (by omega)]
  funext x
  simp only [space, tables]
  rw [hdir, husers]

end Xv6.Vm
