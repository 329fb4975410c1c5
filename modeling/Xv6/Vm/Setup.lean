import Xv6.Vm.Paging
import Mathlib.Algebra.BigOperators.Intervals

/-!
# Making and freeing address spaces

`setupkvm` and `freevm`. A new space has the kernel's mappings and nothing else; a space that is
freed gives back its user pages, its page tables and its directory. A `setupkvm` that runs out of
memory has given everything back.
-/

namespace Xv6.Vm

open Footprint Tally Hoare

variable {M : Machine} {s s' : Mem} {O O' R : ℕ → ℕ} {d n p m perm : ℕ} {E : Panic → Prop}

/-! ### Writing outside the tables -/

theorem kept_of_word_eq (h : s'.word = s.word) (d n : ℕ) : Kept s s' d n := by
  refine ⟨?_, fun _ _ => by rw [h]⟩
  unfold entry
  rw [h]

theorem space_of_word_eq (h : s'.word = s.word) (d : ℕ) : space s' d = space s d :=
  space_congr fun x _ => congrFun h x

theorem kept_fill (hp : space s d p = 0) (f : ℕ → ℕ) :
    space (s.fill p f) d = space s d ∧ ∀ n < VPAGES, Kept s (s.fill p f) d n := by
  have hnot : ¬ IsTable s d p := fun hc => hc.space_ne_zero hp
  obtain ⟨hspace, hentry⟩ := space_fill hnot f
  refine ⟨hspace, fun n hn => ⟨hentry n hn, fun hu hpres => word_fill_of_ne f ?_⟩⟩
  rintro rfl
  exact space_page_ne_zero hu hpres hp

theorem kept_of_moves {q : ℕ} (hm : heap.Moves s O s' O') (hs : heap.Sole s (O + space s q)) :
    space s' q = space s q ∧ ∀ n < VPAGES, Kept s s' q n := by
  have htab : ∀ x, IsTable s q x → s'.word x = s.word x :=
    fun x hx => hm.content_eq hs hx.space_ne_zero
  exact ⟨hm.local_eq (isLocal_space q) hs, fun n hn => ⟨entry_congr htab hn,
    fun hu hp => hm.content_eq hs (space_page_ne_zero hu hp)⟩⟩

theorem wp_kfree_page {r : ℕ} (hg : Good M s (space s d + only r)) :
    wp (kfree M r) (fun _ s' => heap.Moves s (space s d + only r) s' (space s' d) ∧
      ∀ m < VPAGES, Kept s s' d m) E s := by
  have hown : (space s d + only r) r ≠ 0 := by
    rw [Pi.add_apply, only_self]
    omega
  refine (wp_kfree (hg.allocatable hown) (space s d)).imp ?_
  rintro - s' ⟨hm, hword⟩
  obtain ⟨hspace, hkept⟩ := kept_fill hg.not_both fun _ => junk
  refine ⟨?_, fun m hv => (hkept m hv).trans (kept_of_word_eq hword d m)⟩
  rw [space_of_word_eq hword, hspace]
  exact hm

theorem Tidy.dir_ne_zero (h : Tidy s (space s d)) : d ≠ 0 := by
  rintro rfl
  have := h.zero
  have := space_self_ne_zero s 0
  omega

/-! ### Freeing -/

/-- The tables behind the directory entries from `i` on. -/
def tablesFrom (s : Mem) (d i x : ℕ) : ℕ := tally (Finset.Ico i NPDENTRIES) (hit x) (s.word d)

theorem tablesFrom_zero (s : Mem) (d x : ℕ) : tablesFrom s d 0 x = tables s d x := by
  unfold tablesFrom tables
  rw [Finset.range_eq_Ico]

theorem tablesFrom_succ {i : ℕ} (hi : i < NPDENTRIES) (x : ℕ) :
    tablesFrom s d i x = tablesFrom s d (i + 1) x + hit x (s.word d i) := by
  unfold tablesFrom tally
  rw [Finset.sum_eq_sum_Ico_succ_bot hi, Nat.add_comm]

theorem tablesFrom_all (s : Mem) (d x : ℕ) : tablesFrom s d NPDENTRIES x = 0 := by
  unfold tablesFrom
  rw [Finset.Ico_self]
  exact tally_eq_zero nofun

theorem hit_eq_only {w : ℕ} (h : Present w) (x : ℕ) : hit x w = only (pageOf w) x := by
  unfold hit only
  simp only [h, true_and, eq_comm]

/-- What is left to free after `i` turns of the loop of `freevm`. -/
def leftover (s : Mem) (d i : ℕ) : ℕ → ℕ := fun x => only d x + tablesFrom s d i x

theorem leftover_succ {i : ℕ} (hi : i < NPDENTRIES) (h : Present (s.word d i)) :
    leftover s d i = leftover s d (i + 1) + only (pageOf (s.word d i)) := by
  funext x
  rw [Pi.add_apply, leftover, leftover, tablesFrom_succ hi, hit_eq_only h, Nat.add_assoc]

theorem wp_freeTable {t : Mem} {i : ℕ} (hi : i < NPDENTRIES) (hg : Good M t (leftover s d i))
    (hdir : t.word d = s.word d) :
    wp (do
      let pde ← load d i
      if Present pde then kfree M (pageOf pde) else pure ())
      (fun _ t' => heap.Moves t (leftover s d i) t' (leftover s d (i + 1)) ∧
        t'.word d = s.word d) E t := by
  rw [wp_bind, wp_load, hdir, wp_ite]
  split
  · next hp =>
    have hsucc := leftover_succ hi hp
    set q := pageOf (s.word d i)
    have hown : leftover s d i q ≠ 0 := by
      rw [hsucc, Pi.add_apply, only_self]
      omega
    have hqd : d ≠ q := by
      intro heq
      have hle := hg.le_one q
      rw [hsucc, Pi.add_apply, only_self, leftover, heq, only_self] at hle
      omega
    refine (wp_kfree (hg.allocatable hown) (leftover s d (i + 1))).imp ?_
    rintro - t' ⟨hm, hword⟩
    rw [hsucc]
    refine ⟨hm, ?_⟩
    rw [hword, word_fill_of_ne _ hqd, hdir]
  next hp =>
  have hsame : leftover s d (i + 1) = leftover s d i := by
    funext x
    simp only [leftover, tablesFrom_succ hi, hit_of_not_present hp, Nat.add_zero]
  rw [wp_pure, hsame]
  exact ⟨.refl _ _, hdir⟩

theorem wp_freevm (hg : Good M s (space s d)) :
    wp (freevm M d) (fun _ s' => heap.Moves s (space s d) s' 0) E s := by
  unfold freevm
  rw [wp_ite, if_neg hg.dir_ne_zero, wp_bind]
  refine (wp_deallocuvm (le_refl _) (by decide) hg).imp ?_
  rintro - s₁ ⟨-, hm, -, hgone⟩
  have hstart : space s₁ d = leftover s₁ d 0 := by
    funext x
    have hzero : users s₁ d x = 0 := tally_eq_zero fun n hn => by
      refine hit_of_not_present (hgone n (Nat.zero_le _) ?_)
      have := Finset.mem_range.mp hn
      unfold USERPAGES at this
      unfold PGSIZE KERNBASE
      omega
    rw [leftover, tablesFrom_zero, space, hzero, Nat.add_zero]
  rw [hstart] at hm
  rw [wp_bind]
  refine (wp_forUpTo (I := fun i t => heap.Moves s (space s d) t (leftover s₁ d i) ∧
    t.word d = s₁.word d) ⟨hm, rfl⟩ ?_).imp ?_
  · rintro i hi t ⟨hmt, hdir⟩
    refine (wp_freeTable hi (hg.moves hmt) hdir).imp ?_
    rintro - t' ⟨hstep, hdir'⟩
    exact ⟨hmt.trans hstep, hdir'⟩
  rintro - t ⟨hmt, -⟩
  have hlast : leftover s₁ d NPDENTRIES = 0 + only d := by
    funext x
    rw [Pi.add_apply, leftover, tablesFrom_all, Pi.zero_apply, Nat.zero_add, Nat.add_zero]
  rw [hlast] at hmt
  have hown : (0 + only d) d ≠ 0 := by
    rw [Pi.add_apply, only_self]
    omega
  refine (wp_kfree ((hg.moves hmt).allocatable hown) 0).imp ?_
  rintro - s' ⟨hstep, -⟩
  exact hmt.trans hstep

/-! ### The kernel's mappings -/

/-- The first virtual page of an element of `kmap`. -/
def Kmap.first (k : Kmap) : ℕ := k.virt / PGSIZE

def Kmap.last (k : Kmap) : ℕ := (k.virt + k.size - 1) / PGSIZE

/-- The entry it makes for virtual page `m`. -/
def Kmap.entry (k : Kmap) (m : ℕ) : ℕ := mkEntry (k.phys + (m - k.first)) k.perm

/-- The entry of virtual page `m` after the elements of a list; `base` before. -/
def kernelEntry : List Kmap → ℕ → ℕ → ℕ
  | [], base, _ => base
  | k :: ks, base, m => if k.first ≤ m ∧ m ≤ k.last then k.entry m else kernelEntry ks base m

def Separate (ks : List Kmap) : Prop :=
  ks.Pairwise fun k k' => k.last < k'.first ∨ k'.last < k.first

theorem separate_xv6 {data kend : ℕ} (hdata : 256 < data) (hlt : data < 0xE000)
    (hkend : 0 < kend) : Separate (xv6 data kend hdata hlt hkend).kmap := by
  unfold Separate xv6
  simp only [List.pairwise_cons, List.mem_cons, List.not_mem_nil, or_false, forall_eq_or_imp,
    forall_eq, Kmap.first, Kmap.last, KERNBASE, PGSIZE, List.Pairwise.nil, and_true,
    IsEmpty.forall_iff, implies_true]
  refine ⟨⟨?_, ?_, ?_⟩, ⟨?_, ?_⟩, ?_⟩ <;> left <;> omega

theorem Kmap.first_le_last (k : Kmap) : k.first ≤ k.last := by
  have := k.size_pos
  exact Nat.div_le_div_right (by omega)

theorem Kmap.last_lt (k : Kmap) : k.last < VPAGES := by
  have := k.fits
  have := k.size_pos
  unfold Kmap.last PGSIZE VPAGES
  omega

theorem Kmap.le_first (k : Kmap) : USERPAGES ≤ k.first := by
  have := k.virt_ge
  unfold KERNBASE at this
  unfold Kmap.first PGSIZE USERPAGES
  omega

theorem kernelEntry_of_not_mem {base : ℕ} {ks : List Kmap}
    (h : ∀ k ∈ ks, ¬ (k.first ≤ m ∧ m ≤ k.last)) : kernelEntry ks base m = base := by
  induction ks with
  | nil => rfl
  | cons k ks ih =>
    rw [kernelEntry, if_neg (h k List.mem_cons_self)]
    exact ih fun k' hk' => h k' (List.mem_cons_of_mem k hk')

theorem kernelEntry_user {base : ℕ} (ks : List Kmap) (hm : m < USERPAGES) :
    kernelEntry ks base m = base :=
  kernelEntry_of_not_mem fun k _ hc => by
    have := k.le_first
    omega

theorem mkEntry_not_user (hperm : perm ≤ PTE_W) : ¬ IsUser (mkEntry p perm) := by
  unfold PTE_W at hperm
  unfold IsUser mkEntry
  omega

theorem kernelEntry_not_user (ks : List Kmap) : ¬ IsUser (kernelEntry ks 0 m) := by
  induction ks with
  | nil => exact (by decide : ¬ IsUser 0)
  | cons k ks ih =>
  rw [kernelEntry]
  split
  · exact mkEntry_not_user k.perm_le
  · exact ih

theorem word_store_dir {t j : ℕ} (hs : ∀ x, space s d x ≤ 1) (hn : n < VPAGES)
    (h : At s d n t j) (w : ℕ) : (s.store t j w).word d = s.word d := by
  have hdir := (entry_setEntry hs hn h.present w).1
  rwa [← h.table, ← h.index] at hdir

/-- The pages from `n` to `n + r` of the kernel's part. The page tables for user memory are not
touched, and the loop does not fail if there is a page for every table. -/
theorem wp_mapLoop_kernel {r : ℕ} (hn : USERPAGES ≤ n) (hlast : n + r < VPAGES)
    (hnew : ∀ i ≤ r, ¬ Present (entry s d (n + i))) (ht : Tidy s (space s d)) :
    wp (mapLoop d perm (PGSIZE * (n + r)) (r + 1) (PGSIZE * n) p) (fun ok s' =>
      heap.Moves s (space s d) s' (space s' d) ∧
      (∀ i < 512, s'.word d i = s.word d i) ∧ (Plenty s d → ok = true ∧ Plenty s' d) ∧
      (ok = true → ∀ m < VPAGES, entry s' d m =
        if n ≤ m ∧ m ≤ n + r then mkEntry (p + (m - n)) perm else entry s d m)) E s := by
  have hslots : ∀ {k}, USERPAGES ≤ k → ∀ i < 512, i ≠ k / 1024 := by
    intro k hk i hi
    unfold USERPAGES at hk
    omega
  induction r generalizing n p s with
  | zero =>
    rw [Nat.add_zero] at hlast
    refine wp_mapLoop_succ hlast ht (hnew 0 (le_refl _)) (fun s' hw hfail => ?_)
      fun s₁ t j hw hat => ?_
    · exact ⟨hw.moves, fun i hi => hw.slot_eq i (hslots hn i hi), fun hp => absurd hp hfail, nofun⟩
    have hm := hw.moves
    have hle := (ht.moves hm).le_one
    have hdir := word_store_dir hle hlast hat (mkEntry p perm)
    obtain ⟨hother, hentry, -⟩ := kept_setEntry hle hlast hat (mkEntry p perm)
    have hspace := space_setEntry_kernel hle hlast hn hat.present (mkEntry p perm)
    rw [← hat.table, ← hat.index] at hspace
    simp only [Nat.add_zero, if_true, wp_pure]
    rw [hspace]
    refine ⟨hm.trans (moves_setEntry hlast hat _), fun i hi => ?_, fun hp => ⟨trivial, ?_⟩,
      fun _ m hm => ?_⟩
    · rw [hdir, hw.slot_eq i (hslots hn i hi)]
    · exact (hw.plenty hp).of_eq rfl rfl hdir
    · rcases eq_or_ne m n with rfl | hne
      · rw [hentry, if_pos ⟨le_refl _, le_refl _⟩, Nat.sub_self, Nat.add_zero]
      · rw [(hother m hm hne).entry_eq, hw.same m hm, if_neg (by omega)]
  | succ r ih =>
  have hvn : n < VPAGES := by omega
  refine wp_mapLoop_succ hvn ht (hnew 0 (Nat.zero_le _)) (fun s' hw hfail => ?_)
    fun s₁ t j hw hat => ?_
  · exact ⟨hw.moves, fun i hi => hw.slot_eq i (hslots hn i hi), fun hp => absurd hp hfail, nofun⟩
  have hm := hw.moves
  have hle := (ht.moves hm).le_one
  have hdir := word_store_dir hle hvn hat (mkEntry p perm)
  obtain ⟨hother, hentry, -⟩ := kept_setEntry hle hvn hat (mkEntry p perm)
  have hspace := space_setEntry_kernel hle hvn hn hat.present (mkEntry p perm)
  rw [← hat.table, ← hat.index] at hspace
  set s₂ := s₁.store t j (mkEntry p perm)
  have hm₂ : heap.Moves s (space s d) s₂ (space s₂ d) := by
    rw [hspace]
    exact hm.trans (moves_setEntry hvn hat _)
  have hsame : ∀ m < VPAGES, m ≠ n → entry s₂ d m = entry s d m := fun m hm hne => by
    rw [(hother m hm hne).entry_eq, hw.same m hm]
  have hne : PGSIZE * n ≠ PGSIZE * (n + (r + 1)) := by
    unfold PGSIZE
    omega
  have hnext : PGSIZE * n + PGSIZE = PGSIZE * (n + 1) := (Nat.mul_succ _ _).symm
  have hend : n + (r + 1) = n + 1 + r := by omega
  rw [wp_ite, if_neg hne, hnext, hend]
  refine (ih (by omega) (by omega) (fun i hi => ?_) (ht.moves hm₂)).imp ?_
  · rw [hsame _ (by omega) (by omega), Nat.add_assoc, Nat.add_comm 1 i]
    exact hnew (i + 1) (by omega)
  rintro ok s' ⟨hm', hslot, hplenty, hall⟩
  refine ⟨hm₂.trans hm', fun i hi => ?_, fun hp => ?_, fun hok m hm => ?_⟩
  · rw [hslot i hi, hdir, hw.slot_eq i (hslots hn i hi)]
  · exact hplenty ((hw.plenty hp).of_eq rfl rfl hdir)
  rw [hall hok m hm]
  rcases eq_or_ne m n with rfl | hmn
  · rw [if_neg (by omega), if_pos (by omega), hentry, Nat.sub_self, Nat.add_zero]
  rw [hsame m hm hmn]
  by_cases hin : n + 1 ≤ m ∧ m ≤ n + 1 + r
  · rw [if_pos hin, if_pos (by omega)]
    congr 1
    omega
  · rw [if_neg hin, if_neg (by omega)]

theorem wp_mappages_kernel (k : Kmap)
    (hnew : ∀ m, k.first ≤ m → m ≤ k.last → ¬ Present (entry s d m)) (ht : Tidy s (space s d)) :
    wp (mappages d k.virt k.size k.phys k.perm) (fun ok s' =>
      heap.Moves s (space s d) s' (space s' d) ∧
      (∀ i < 512, s'.word d i = s.word d i) ∧ (Plenty s d → ok = true ∧ Plenty s' d) ∧
      (ok = true → ∀ m < VPAGES, entry s' d m =
        if k.first ≤ m ∧ m ≤ k.last then k.entry m else entry s d m)) E s := by
  have hle := k.first_le_last
  obtain ⟨r, hr⟩ := Nat.exists_eq_add_of_le hle
  have hprog : mappages d k.virt k.size k.phys k.perm =
      mapLoop d k.perm (PGSIZE * (k.first + r)) (r + 1) (PGSIZE * k.first) k.phys := by
    have hdiff : (PGSIZE * (k.first + r) - PGSIZE * k.first) / PGSIZE = r := by
      rw [← Nat.mul_sub, Nat.add_sub_cancel_left]
      exact Nat.mul_div_cancel_left r (by decide)
    have hlo : PGROUNDDOWN k.virt = PGSIZE * k.first := Nat.mul_comm _ _
    have hhi : PGROUNDDOWN (k.virt + k.size - 1) = PGSIZE * (k.first + r) := by
      rw [← hr]
      exact Nat.mul_comm _ _
    simp only [mappages, hlo, hhi, hdiff]
  rw [hprog]
  have hlast := k.last_lt
  refine (wp_mapLoop_kernel k.le_first (by omega) (fun i hi => ?_) ht).imp ?_
  · exact hnew _ (by omega) (by omega)
  rintro ok s' ⟨hm, hslot, hplenty, hall⟩
  refine ⟨hm, hslot, hplenty, fun hok m hm => ?_⟩
  rw [hall hok m hm, hr]
  rfl

theorem wp_mapKernel (ks : List Kmap) (hsep : Separate ks)
    (hnew : ∀ k ∈ ks, ∀ m, k.first ≤ m → m ≤ k.last → ¬ Present (entry s d m))
    (ht : Tidy s (space s d)) :
    wp (mapKernel d ks) (fun ok s' => heap.Moves s (space s d) s' (space s' d) ∧
      (∀ i < 512, s'.word d i = s.word d i) ∧ (Plenty s d → ok = true ∧ Plenty s' d) ∧
      (ok = true → ∀ m < VPAGES, entry s' d m = kernelEntry ks (entry s d m) m)) E s := by
  induction ks generalizing s with
  | nil => exact ⟨.refl _ _, fun _ _ => rfl, fun hp => ⟨rfl, hp⟩, fun _ _ _ => rfl⟩
  | cons k ks ih =>
  obtain ⟨hk, hsep⟩ := List.pairwise_cons.mp hsep
  rw [mapKernel, wp_bind]
  refine (wp_mappages_kernel k (hnew k List.mem_cons_self) ht).imp ?_
  rintro ok s₁ ⟨hm₁, hslot₁, hplenty₁, hall₁⟩
  cases ok with
  | false => exact ⟨hm₁, hslot₁, fun hp => absurd (hplenty₁ hp).1 nofun, nofun⟩
  | true =>
  have hall₁ := hall₁ rfl
  have hother : ∀ k' ∈ ks, ∀ m, k'.first ≤ m → m ≤ k'.last → ¬ (k.first ≤ m ∧ m ≤ k.last) := by
    rintro k' hk' m hlo hhi ⟨hlo', hhi'⟩
    rcases hk k' hk' with h | h <;> omega
  simp only [if_true]
  refine (ih hsep (fun k' hk' m hlo hhi => ?_) (ht.moves hm₁)).imp ?_
  · have hvm : m < VPAGES := lt_of_le_of_lt hhi k'.last_lt
    rw [hall₁ m hvm, if_neg (hother k' hk' m hlo hhi)]
    exact hnew k' (List.mem_cons_of_mem k hk') m hlo hhi
  rintro ok s' ⟨hm', hslot, hplenty, hall⟩
  refine ⟨hm₁.trans hm', fun i hi => by rw [hslot i hi, hslot₁ i hi],
    fun hp => hplenty (hplenty₁ hp).2, fun hok m hm => ?_⟩
  rw [hall hok m hm, hall₁ m hm, kernelEntry]
  split
  · next hin =>
    exact kernelEntry_of_not_mem fun k' hk' hc => hother k' hk' m hc.1 hc.2 hin
  · rfl

theorem space_empty (h : s.word d = fun _ => 0) : space s d = only d ∧ ∀ m, entry s d m = 0 := by
  have hentry : ∀ m, entry s d m = 0 := fun m => by
    rw [entry, h, if_neg not_present_zero]
  refine ⟨funext fun x => ?_, hentry⟩
  have htab : tables s d x = 0 := tally_eq_zero fun i _ => by
    rw [h]
    exact hit_of_not_present not_present_zero
  have husers : users s d x = 0 := tally_eq_zero fun i _ => by
    rw [hentry]
    exact hit_of_not_present not_present_zero
  rw [space, htab, husers, Nat.add_zero]

theorem wp_setupkvm (hsep : Separate M.kmap) (hg : Good M s 0) :
    wp (setupkvm M) (fun r s' => ((r = 0 ∧ heap.Moves s 0 s' 0) ∨
      (r ≠ 0 ∧ heap.Moves s 0 s' (space s' r) ∧ (∀ i < 512, s'.word r i = 0) ∧
        ∀ m < VPAGES, entry s' r m = kernelEntry M.kmap 0 m)) ∧
      (s.fails = [] → NPDENTRIES < s.freelist.length → r ≠ 0)) E s := by
  unfold setupkvm
  rw [wp_bind]
  refine (wp_kalloc hg.toTidy).imp ?_
  rintro r s₁ ⟨hword, ⟨rfl, hm⟩ | ⟨hr, hm⟩, hpos⟩
  · rw [wp_ite, if_pos rfl]
    exact ⟨.inl ⟨rfl, hm⟩, fun hf hlen => (hpos hf (by omega)).1⟩
  rw [wp_ite, if_neg hr, wp_bind, wp_fill, wp_bind]
  set s₂ := s₁.fill r fun _ => 0
  obtain ⟨hspace, hempty⟩ := space_empty (s := s₂) (d := r) (word_fill_self _)
  have hm₂ : heap.Moves s 0 s₂ (space s₂ r) := by
    rw [hspace]
    rw [zero_add] at hm
    exact hm.trans (moves_fill (by rw [only_self]; omega) _)
  refine (wp_mapKernel M.kmap hsep (fun k _ m _ _ => ?_) (hg.moves hm₂).toTidy).imp ?_
  · rw [hempty m]
    exact not_present_zero
  rintro ok s₃ ⟨hm₃, hslot, hok, hall⟩
  cases ok with
  | true =>
    refine ⟨.inr ⟨hr, hm₂.trans hm₃, fun i hi => ?_, fun m hm => ?_⟩, fun _ _ => hr⟩
    · rw [hslot i hi, word_fill_self]
    · rw [hall rfl m hm, hempty]
  | false =>
  simp only [Bool.false_eq_true, if_false, wp_bind]
  refine (wp_freevm (hg.moves (hm₂.trans hm₃))).imp ?_
  rintro - s₄ hm₄
  refine ⟨.inl ⟨rfl, (hm₂.trans hm₃).trans hm₄⟩, fun hf hlen => ?_⟩
  obtain ⟨-, hf₁, hlen₁⟩ := hpos hf (by omega)
  have hplenty : Plenty s₂ r := by
    refine ⟨hf₁, (Finset.card_filter_le _ _).trans ?_⟩
    rw [Finset.card_range]
    change NPDENTRIES ≤ s₁.freelist.length
    omega
  exact absurd (hok hplenty).1 Bool.false_ne_true

end Xv6.Vm
