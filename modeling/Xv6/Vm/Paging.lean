import Xv6.Vm.Space

/-!
# What `vm.c` does to pages

Every function is specified by the pages it owns before and after: those of one address space, and
at times a page in a variable. What is not said to change stays: `Kept` for an entry and the page
behind it, `Heap.Moves` for the pages of everybody else.
-/

namespace Xv6.Vm

open Footprint Tally Hoare Function Finset

/-- No page is owned twice or owned and free, and none is the null pointer. -/
structure Tidy (s : Mem) (O : ℕ → ℕ) : Prop where
  sole : heap.Sole s O
  zero : heap.free s 0 + O 0 = 0

variable {M : Machine} {s s' : Mem} {O O' R : ℕ → ℕ} {d n p m perm : ℕ} {E : Panic → Prop}

theorem Tidy.moves (h : Tidy s O) (hm : heap.Moves s O s' O') : Tidy s' O' :=
  ⟨h.sole.moves hm, (hm.conserve 0).trans h.zero⟩

theorem Tidy.left (h : Tidy s (O + R)) : Tidy s O := by
  refine ⟨h.sole.left, ?_⟩
  have := h.zero
  simp only [Pi.add_apply] at this
  omega

theorem Tidy.le_one (h : Tidy s O) (x : ℕ) : O x ≤ 1 := le_of_add_le_right (h.sole x)

theorem Tidy.not_both (h : Tidy s (O + only p)) : O p = 0 := by
  have := h.sole p
  simp only [Pi.add_apply, only_self] at this
  omega

/-- Moreover every page that is free or owned can be freed. -/
structure Good (M : Machine) (s : Mem) (O : ℕ → ℕ) : Prop extends Tidy s O where
  alloc : ∀ x, heap.free s x + O x ≠ 0 → M.Allocatable x

theorem Good.moves (h : Good M s O) (hm : heap.Moves s O s' O') : Good M s' O' :=
  ⟨h.toTidy.moves hm, fun x hx => h.alloc x (by rwa [← hm.conserve x])⟩

theorem Good.left (h : Good M s (O + R)) : Good M s O := by
  refine ⟨h.toTidy.left, fun x hx => h.alloc x ?_⟩
  rw [Pi.add_apply]
  omega

theorem Good.toZero (h : Good M s O) : Good M s 0 :=
  Good.left (R := O) (by rwa [zero_add])

theorem Good.allocatable (h : Good M s O) {x : ℕ} (hx : O x ≠ 0) : M.Allocatable x :=
  h.alloc x (by omega)

theorem Tidy.free_eq_zero (h : Tidy s O) {x : ℕ} (hx : O x ≠ 0) : heap.free s x = 0 := by
  have := h.sole x
  omega

/-! ### Pages -/

theorem free_eq (s : Mem) (x : ℕ) : heap.free s x = s.freelist.count x := rfl

theorem count_cons_only (r x : ℕ) (l : List ℕ) : (r :: l).count x = l.count x + only r x := by
  rw [List.count_cons, only]
  by_cases h : x = r
  · rw [if_pos h, if_pos (beq_iff_eq.mpr h.symm)]
  · rw [if_neg h, if_neg fun hc => h (beq_iff_eq.mp hc).symm]

theorem wp_kalloc (ht : Tidy s O) : wp kalloc (fun r s' => s'.word = s.word ∧
      ((r = 0 ∧ heap.Moves s O s' O) ∨ (r ≠ 0 ∧ heap.Moves s O s' (O + only r))) ∧
      (s.fails = [] → 0 < s.freelist.length →
        r ≠ 0 ∧ s'.fails = [] ∧ s'.freelist.length + 1 = s.freelist.length)) E s := by
  unfold kalloc
  rw [wp_bind, wp_get, wp_ite]
  split
  case isTrue hfail =>
    exact ⟨rfl, .inl ⟨rfl, fun _ => rfl, fun _ _ => rfl⟩, fun hf => by simp [hf] at hfail⟩
  cases hlist : s.freelist with
  | nil =>
    refine ⟨rfl, .inl ⟨rfl, fun x => by rw [free_eq, free_eq, hlist], fun _ _ => rfl⟩, ?_⟩
    exact fun _ hpos => absurd hpos (Nat.lt_irrefl 0)
  | cons r next =>
  have hcount : ∀ x, s.freelist.count x = next.count x + only r x := fun x => by
    rw [hlist, count_cons_only]
  have hr : r ≠ 0 := by
    rintro rfl
    have hzero := ht.zero
    have hone := hcount 0
    rw [only_self] at hone
    rw [free_eq] at hzero
    omega
  refine ⟨rfl, .inr ⟨hr, fun x => ?_, fun _ _ => rfl⟩, fun hf _ => ⟨hr, ?_, rfl⟩⟩
  · change next.count x + (O x + only r x) = s.freelist.count x + O x
    have := hcount x
    omega
  · exact congrArg List.tail hf

theorem wp_kfree (hp : M.Allocatable p) (O : ℕ → ℕ) :
    wp (kfree M p) (fun _ s' => heap.Moves s (O + only p) s' O ∧
      s'.word = (s.fill p fun _ => junk).word) E s := by
  unfold kfree
  rw [wp_ite, if_pos hp, wp_bind]
  refine ⟨⟨fun x => ?_, fun x hx => ?_⟩, rfl⟩
  · change (p :: s.freelist).count x + O x = s.freelist.count x + (O x + only p x)
    rw [count_cons_only]
    omega
  have hne : x ≠ p := by
    rintro rfl
    simp only [Pi.add_apply, only_self] at hx
    omega
  exact word_fill_of_ne _ hne

theorem wp_load {i : ℕ} {Q : ℕ → Mem → Prop} : wp (load p i) Q E s ↔ Q (s.word p i) s := Iff.rfl

theorem wp_store {i w : ℕ} {Q : Unit → Mem → Prop} :
    wp (store p i w) Q E s ↔ Q () (s.store p i w) := Iff.rfl

theorem wp_fill {f : ℕ → ℕ} {Q : Unit → Mem → Prop} : wp (fill p f) Q E s ↔ Q () (s.fill p f) :=
  Iff.rfl

theorem moves_fill (hp : O p ≠ 0) (f : ℕ → ℕ) : heap.Moves s O (s.fill p f) O := by
  refine ⟨fun _ => rfl, fun x hx => word_fill_of_ne f ?_⟩
  rintro rfl
  omega

theorem moves_fill_taken {O' : ℕ → ℕ} (h : heap.Moves s O s' (O' + only p)) (f : ℕ → ℕ) :
    heap.Moves s O (s'.fill p f) (O' + only p) := by
  refine h.trans (moves_fill ?_ f)
  rw [Pi.add_apply, only_self]
  omega

/-! ### Walking -/

theorem PDX_eq {va : ℕ} (h : va < 2 ^ 32) : PDX va = va / PGSIZE / 1024 := by
  unfold PDX PGSIZE
  omega

theorem PTX_eq (va : ℕ) : PTX va = va / PGSIZE % 1024 := by
  unfold PTX PGSIZE
  omega

theorem vpage_lt {va : ℕ} (h : va < 2 ^ 32) : va / PGSIZE < VPAGES := by
  unfold PGSIZE VPAGES
  omega

/-- Entry `n` is word `j` of page table `t`. -/
structure At (s : Mem) (d n t j : ℕ) : Prop where
  present : Present (s.word d (n / 1024))
  table : t = pageOf (s.word d (n / 1024))
  index : j = n % 1024

variable {t j : ℕ}

theorem At.word_eq (h : At s d n t j) : s.word t j = entry s d n := by
  rw [h.table, h.index, entry, if_pos h.present]

theorem wp_walkpgdir {va : ℕ} {Q : Option (ℕ × ℕ) → Mem → Prop} (hva : va < 2 ^ 32)
    (hnone : ¬ Present (s.word d (va / PGSIZE / 1024)) → Q none s)
    (hsome : ∀ t j, At s d (va / PGSIZE) t j → Q (some (t, j)) s) :
    wp (walkpgdir d va false) Q E s := by
  unfold walkpgdir
  rw [PDX_eq hva, PTX_eq, wp_bind, wp_load, wp_ite]
  split
  · next h => exact hsome _ _ ⟨h, rfl, rfl⟩
  · next h => exact hnone h

def SameEntries (s s' : Mem) (d : ℕ) : Prop := ∀ n < VPAGES, entry s' d n = entry s d n

/-- There is a page for every page table that the directory lacks. -/
def Plenty (s : Mem) (d : ℕ) : Prop :=
  s.fails = [] ∧
    ((range NPDENTRIES).filter fun i => ¬ Present (s.word d i)).card ≤ s.freelist.length

theorem Plenty.install (h : Plenty s d) {i w : ℕ} (hi : i < NPDENTRIES)
    (hnot : ¬ Present (s.word d i)) (hw : Present w) (hf : s'.fails = [])
    (hlen : s'.freelist.length + 1 = s.freelist.length)
    (hword : s'.word d = update (s.word d) i w) : Plenty s' d := by
  refine ⟨hf, ?_⟩
  have herase : ((range NPDENTRIES).filter fun k => ¬ Present (s'.word d k)) =
      ((range NPDENTRIES).filter fun k => ¬ Present (s.word d k)).erase i := by
    ext k
    rw [mem_erase, mem_filter, mem_filter, hword]
    rcases eq_or_ne k i with rfl | hne
    · rw [update_self]
      exact iff_of_false (fun hc => hc.2 hw) fun hc => hc.1 rfl
    · rw [update_of_ne hne]
      exact (and_iff_right hne).symm
  have hmem : i ∈ (range NPDENTRIES).filter fun k => ¬ Present (s.word d k) :=
    mem_filter.mpr ⟨mem_range.mpr hi, hnot⟩
  have hcard := card_erase_add_one hmem
  have hle := h.2
  rw [herase]
  omega

theorem Plenty.pos (h : Plenty s d) {i : ℕ} (hi : i < NPDENTRIES)
    (hnot : ¬ Present (s.word d i)) : 0 < s.freelist.length :=
  lt_of_lt_of_le (card_pos.mpr ⟨i, mem_filter.mpr ⟨mem_range.mpr hi, hnot⟩⟩) h.2

theorem Plenty.of_eq (h : Plenty s d) (hf : s'.fails = s.fails) (hl : s'.freelist = s.freelist)
    (hword : s'.word d = s.word d) : Plenty s' d := by
  unfold Plenty
  rw [hf, hl, hword]
  exact h

structure Walked (s s' : Mem) (d n : ℕ) : Prop where
  moves : heap.Moves s (space s d) s' (space s' d)
  same : SameEntries s s' d
  word_eq : ∀ x, heap.free s x = 0 → x ≠ d → s'.word x = s.word x
  slot_eq : ∀ i, i ≠ n / 1024 → s'.word d i = s.word d i
  plenty : Plenty s d → Plenty s' d

theorem wp_walkpgdir_alloc {va : ℕ} (hva : va < 2 ^ 32) (ht : Tidy s (space s d)) :
    wp (walkpgdir d va true) (fun r s' => Walked s s' d (va / PGSIZE) ∧
      (r = none → ¬ Plenty s d) ∧ ∀ t j, r = some (t, j) → At s' d (va / PGSIZE) t j) E s := by
  unfold walkpgdir
  rw [PDX_eq hva, PTX_eq, wp_bind, wp_load, wp_ite]
  split
  · next h =>
    refine ⟨⟨.refl _ _, fun _ _ => rfl, fun _ _ _ => rfl, fun _ _ => rfl, id⟩,
      fun h => absurd h (Option.some_ne_none _), fun t j heq => ?_⟩
    cases heq
    exact ⟨h, rfl, rfl⟩
  next h =>
  rw [wp_ite, if_neg (by decide), wp_bind]
  have hslot := div_lt_NPDENTRIES (vpage_lt hva)
  refine (wp_kalloc ht).imp ?_
  rintro r s₁ ⟨hword, hr, hpos⟩
  have hplenty := fun hp : Plenty s d => hpos hp.1 (hp.pos hslot h)
  have hsame : ∀ x, IsTable s d x → s₁.word x = s.word x := fun x _ => congrFun hword x
  have hspace := space_congr hsame
  have hentry : SameEntries s s₁ d := fun n hn => entry_congr hsame hn
  rcases hr with ⟨rfl, hm⟩ | ⟨hr, hm⟩
  · rw [wp_ite, if_pos rfl]
    refine ⟨⟨?_, hentry, fun x _ _ => congrFun hword x, fun _ _ => by rw [hword],
      fun hp => absurd rfl (hplenty hp).1⟩, fun _ hp => absurd rfl (hplenty hp).1,
      fun _ _ h => by cases h⟩
    rw [hspace]
    exact hm
  have ht₁ := ht.moves hm
  have hnew : space s₁ d r = 0 := by
    rw [hspace]
    exact ht₁.not_both
  have hnot : ¬ IsTable s₁ d r := fun htab => htab.space_ne_zero hnew
  have hrd : r ≠ d := fun heq => hnot (.inl heq)
  obtain ⟨hspace₂, hentry₂⟩ := space_fill hnot fun _ => 0
  rw [wp_ite, if_neg hr, wp_bind, wp_fill, wp_bind, wp_store, wp_pure]
  have hdir : (s₁.fill r fun _ => 0).word d = s.word d :=
    (word_fill_of_ne _ hrd.symm).trans (congrFun hword d)
  have hle : ∀ x, space (s₁.fill r fun _ => 0) d x ≤ 1 := fun x => by
    rw [hspace₂, hspace]
    exact ht.le_one x
  obtain ⟨hspace₃, hentry₃⟩ := space_install (by decide : PTE_W + PTE_U < 4096) hle
    (div_lt_NPDENTRIES (vpage_lt hva)) (by rwa [hdir]) (word_fill_self _) hrd
  have hdir₃ : ((s₁.fill r fun _ => 0).store d (va / PGSIZE / 1024)
      (mkEntry r (PTE_W + PTE_U))).word d = update (s.word d) (va / PGSIZE / 1024)
        (mkEntry r (PTE_W + PTE_U)) := by
    rw [Mem.store, word_fill_self, hdir]
  refine ⟨⟨?_, fun n hn => ?_, fun x hx hxd => ?_, fun i hi => ?_, fun hp => ?_⟩,
    fun h => absurd h (Option.some_ne_none _), fun t j heq => ?_⟩
  · rw [hspace₃, hspace₂, hspace]
    have hself : (space s d + only r) d ≠ 0 := by
      rw [Pi.add_apply]
      have := space_self_ne_zero s d
      omega
    have hown : (space s d + only r) r ≠ 0 := by
      rw [Pi.add_apply, only_self]
      omega
    exact (hm.trans (moves_fill hown _)).trans (moves_fill hself _)
  · rw [hentry₃ n hn, hentry₂ n hn, hentry n hn]
  · have hxr : x ≠ r := by
      rintro rfl
      have hcount := hm.conserve x
      have hsole := ht₁.sole x
      rw [Pi.add_apply, only_self] at hcount hsole
      omega
    rw [Mem.store, word_fill_of_ne _ hxd, word_fill_of_ne _ hxr, hword]
  · rw [hdir₃, update_of_ne hi]
  · exact hp.install hslot h present_mkEntry (hplenty hp).2.1 (hplenty hp).2.2 hdir₃
  · cases heq
    refine ⟨?_, ?_, rfl⟩
    · rw [hdir₃, update_self]
      exact present_mkEntry
    · rw [hdir₃, update_self, pageOf_mkEntry (by decide)]

/-! ### What stays -/

/-- Entry `n` is as before and, below `KERNBASE`, so is the page behind it. -/
structure Kept (s s' : Mem) (d n : ℕ) : Prop where
  entry_eq : entry s' d n = entry s d n
  word_eq : n < USERPAGES → Present (entry s d n) →
    s'.word (pageOf (entry s d n)) = s.word (pageOf (entry s d n))

theorem Kept.refl (s : Mem) (d n : ℕ) : Kept s s d n := ⟨rfl, fun _ _ => rfl⟩

theorem Kept.trans {s'' : Mem} (h : Kept s s' d n) (h' : Kept s' s'' d n) : Kept s s'' d n := by
  refine ⟨h'.entry_eq.trans h.entry_eq, fun hn hp => ?_⟩
  have hword := h'.word_eq hn
  rw [h.entry_eq] at hword
  exact (hword hp).trans (h.word_eq hn hp)

theorem users_pos (hn : n < USERPAGES) (h : Present (entry s d n)) :
    1 ≤ users s d (pageOf (entry s d n)) :=
  (hit_pos h).symm.le.trans (le_tally (mem_range.mpr hn))

theorem space_page_ne_zero (hn : n < USERPAGES) (h : Present (entry s d n)) :
    space s d (pageOf (entry s d n)) ≠ 0 := by
  have := users_pos hn h
  unfold space
  omega

theorem entry_inj (hs : ∀ x, space s d x ≤ 1) (hn : n < USERPAGES) (hm : m < USERPAGES)
    (h : Present (entry s d n)) (h' : Present (entry s d m))
    (heq : pageOf (entry s d n) = pageOf (entry s d m)) : n = m := by
  by_contra hne
  have hle := hs (pageOf (entry s d n))
  have htwo := add_le_tally (g := hit (pageOf (entry s d n))) (h := entry s d)
    (mem_range.mpr hn) (mem_range.mpr hm) hne
  have hhit : hit (pageOf (entry s d n)) (entry s d m) = 1 := by
    rw [heq]
    exact hit_pos h'
  rw [hit_pos h, hhit] at htwo
  unfold space users at hle
  omega

theorem kept_of_word (ht : Tidy s (space s d)) (hsame : SameEntries s s' d)
    (hword : ∀ x, heap.free s x = 0 → x ≠ d → s'.word x = s.word x) :
    ∀ n < VPAGES, Kept s s' d n := by
  refine fun n hn => ⟨hsame n hn, fun hu hp => hword _ ?_ ?_⟩
  · exact ht.free_eq_zero (space_page_ne_zero hu hp)
  · exact fun heq => not_isTable_of_entry ht.le_one hu hp (.inl heq)

theorem At.isTable (h : At s d n t j) (hn : n < VPAGES) : IsTable s d t := by
  rw [h.table]
  exact isTable_of_present hn h.present

theorem kept_setEntry (hs : ∀ x, space s d x ≤ 1) (hn : n < VPAGES) (h : At s d n t j) (w : ℕ) :
    (∀ m < VPAGES, m ≠ n → Kept s (s.store t j w) d m) ∧ entry (s.store t j w) d n = w ∧
      ∀ x, ¬ IsTable s d x → (s.store t j w).word x = s.word x := by
  have hother : ∀ x, ¬ IsTable s d x → (s.store t j w).word x = s.word x := by
    intro x hx
    refine word_fill_of_ne _ ?_
    rintro rfl
    exact hx (h.isTable hn)
  have hentry := (entry_setEntry hs hn h.present w).2
  rw [← h.table, ← h.index] at hentry
  refine ⟨fun m hm hne => ⟨?_, fun hu hp => ?_⟩, ?_, hother⟩
  · rw [hentry m hm, if_neg hne]
  · exact hother _ (not_isTable_of_entry hs hu hp)
  · rw [hentry n hn, if_pos rfl]

theorem moves_setEntry (hn : n < VPAGES) (h : At s d n t j) (w : ℕ) :
    heap.Moves s (space s d) (s.store t j w) (space s d) :=
  moves_fill (h.isTable hn).space_ne_zero _

/-! ### Mapping -/

section Map

variable {last fuel : ℕ} {Q : Bool → Mem → Prop}

theorem wp_mapLoop_succ (hn : n < VPAGES) (ht : Tidy s (space s d)) (hnew : ¬ Present (entry s d n))
    (hnone : ∀ s', Walked s s' d n → ¬ Plenty s d → Q false s')
    (hsome : ∀ s₁ t j, Walked s s₁ d n → At s₁ d n t j → wp (if PGSIZE * n = last then pure true
        else mapLoop d perm last fuel (PGSIZE * n + PGSIZE) (p + 1)) Q E
        (s₁.store t j (mkEntry p perm))) :
    wp (mapLoop d perm last (fuel + 1) (PGSIZE * n) p) Q E s := by
  have hdiv : PGSIZE * n / PGSIZE = n := Nat.mul_div_cancel_left n (by decide)
  have hva : PGSIZE * n < 2 ^ 32 := by
    unfold VPAGES at hn
    unfold PGSIZE
    omega
  rw [mapLoop, wp_bind]
  refine (wp_walkpgdir_alloc hva ht).imp ?_
  rintro r s₁ ⟨hw, hfail, hat⟩
  rw [hdiv] at hw
  cases r with
  | none => exact hnone s₁ hw (hfail rfl)
  | some tj =>
  obtain ⟨t, j⟩ := tj
  have hat := hat t j rfl
  rw [hdiv] at hat
  have hpte : ¬ Present (s₁.word t j) := by
    rwa [hat.word_eq, hw.same n hn]
  dsimp only
  rw [wp_bind, wp_load, wp_ite, if_neg hpte, wp_bind, wp_store]
  exact hsome s₁ t j hw hat

end Map

theorem mappages_page (d n p perm : ℕ) :
    mappages d (PGSIZE * n) PGSIZE p perm = mapLoop d perm (PGSIZE * n) 1 (PGSIZE * n) p := by
  have hdown : PGROUNDDOWN (PGSIZE * n) = PGSIZE * n := by
    unfold PGROUNDDOWN PGSIZE
    omega
  have hlast : PGROUNDDOWN (PGSIZE * n + PGSIZE - 1) = PGSIZE * n := by
    unfold PGROUNDDOWN PGSIZE
    omega
  simp only [mappages, hdown, hlast, Nat.sub_self, Nat.zero_div, Nat.zero_add]

theorem wp_mappages_page (hn : n < USERPAGES) (hperm : perm < 4096)
    (ht : Tidy s (space s d + only p)) (hnew : ¬ Present (entry s d n)) :
    wp (mappages d (PGSIZE * n) PGSIZE p perm) (fun ok s' => s'.word p = s.word p ∧
      (∀ m < VPAGES, m ≠ n → Kept s s' d m) ∧
      (ok = true → heap.Moves s (space s d + only p) s' (space s' d) ∧
        entry s' d n = mkEntry p perm) ∧
      (ok = false → heap.Moves s (space s d) s' (space s' d) ∧ Kept s s' d n)) E s := by
  have hvn : n < VPAGES := lt_of_lt_of_le hn USERPAGES_le
  have hfree : heap.free s p = 0 := ht.free_eq_zero (by
    rw [Pi.add_apply, only_self]
    omega)
  have hpd : p ≠ d := by
    rintro rfl
    exact space_self_ne_zero s p ht.not_both
  rw [mappages_page]
  refine wp_mapLoop_succ hvn ht.left hnew (fun s' hw _ => ?_) fun s₁ t j hw hat => ?_
  · have hkept := kept_of_word ht.left hw.same hw.word_eq
    exact ⟨hw.word_eq p hfree hpd, fun m hm _ => hkept m hm, nofun,
      fun _ => ⟨hw.moves, hkept n hvn⟩⟩
  have hkept := kept_of_word ht.left hw.same hw.word_eq
  have hm := hw.moves
  have ht₁ : Tidy s₁ (space s₁ d + only p) := ht.moves (hm.add _)
  have hle := ht₁.left.le_one
  obtain ⟨hother, hentry, hpages⟩ := kept_setEntry hle hvn hat (mkEntry p perm)
  have hnot : ¬ IsTable s₁ d p := fun hc => hc.space_ne_zero ht₁.not_both
  rw [wp_ite, if_pos rfl, wp_pure]
  refine ⟨(hpages p hnot).trans (hw.word_eq p hfree hpd),
    fun m hm hne => (hkept m hm).trans (hother m hm hne), fun _ => ⟨?_, hentry⟩, nofun⟩
  have hcount : space (s₁.store t j (mkEntry p perm)) d = space s₁ d + only p := by
    funext x
    have hstep := space_setEntry hle hn hat.present (mkEntry p perm) x
    rw [← hat.table, ← hat.index, (hkept n hvn).entry_eq, hit_of_not_present hnew,
      hit_mkEntry hperm, Nat.add_zero] at hstep
    exact hstep
  rw [hcount]
  exact (hm.add _).trans ((moves_setEntry hvn hat _).add _)

/-! ### Unmapping -/

theorem wp_clearEntry (hn : n < USERPAGES) (hg : Good M s (space s d)) (hat : At s d n t j) :
    wp (clearEntry M t j) (fun _ s' => heap.Moves s (space s d) s' (space s' d) ∧
      (∀ m < VPAGES, m ≠ n → Kept s s' d m) ∧ ¬ Present (entry s' d n)) E s := by
  have hvn : n < VPAGES := lt_of_lt_of_le hn USERPAGES_le
  unfold clearEntry
  rw [wp_bind, wp_load, hat.word_eq, wp_ite]
  split
  · next hp =>
    set q := pageOf (entry s d n) with hq
    have hown : space s d q ≠ 0 := space_page_ne_zero hn hp
    have hpos : q ≠ 0 := by
      intro hz
      have := hg.zero
      rw [← hz] at this
      omega
    have hqtab : ¬ IsTable s d q := not_isTable_of_entry hg.le_one hn hp
    rw [wp_ite, if_neg hpos, wp_bind]
    refine (wp_kfree (hg.allocatable hown) fun x => space s d x - only q x).imp ?_
    rintro - s₁ ⟨hm, hword⟩
    rw [wp_store]
    have hsplit : (fun x => space s d x - only q x) + only q = space s d := by
      funext x
      rw [Pi.add_apply]
      rcases eq_or_ne x q with rfl | hne
      · rw [only_self]
        omega
      · rw [only_of_ne hne]
        omega
    rw [hsplit] at hm
    have hsame : ∀ x, x ≠ q → s₁.word x = s.word x := fun x hx => by
      rw [hword]
      exact word_fill_of_ne _ hx
    have htabs : ∀ x, IsTable s d x → s₁.word x = s.word x := fun x hx => hsame x (by
      rintro rfl
      exact hqtab hx)
    have hspace := space_congr htabs
    have hle₁ : ∀ x, space s₁ d x ≤ 1 := fun x => by
      rw [hspace]
      exact hg.le_one x
    have hat₁ : At s₁ d n t j := by
      refine ⟨?_, ?_, hat.index⟩
      · rw [htabs d (.inl rfl)]
        exact hat.present
      · rw [htabs d (.inl rfl)]
        exact hat.table
    have hentry₁ : ∀ m < VPAGES, entry s₁ d m = entry s d m := fun m hm => entry_congr htabs hm
    have hkept₁ : ∀ m < VPAGES, m ≠ n → Kept s s₁ d m := by
      refine fun m hm hne => ⟨hentry₁ m hm, fun hu hpm => hsame _ fun heq => hne ?_⟩
      exact entry_inj hg.le_one hu hn hpm hp heq
    obtain ⟨hother, hentry, -⟩ := kept_setEntry hle₁ hvn hat₁ 0
    refine ⟨?_, fun m hm hne => (hkept₁ m hm hne).trans (hother m hm hne), ?_⟩
    · have hcount : space (s₁.store t j 0) d = fun x => space s d x - only q x := by
        funext x
        have hstep := space_setEntry hle₁ hn hat₁.present 0 x
        have hhit : hit x (entry s d n) = only q x := by
          unfold hit only
          simp only [hp, true_and, ← hq, eq_comm]
        rw [← hat₁.table, ← hat₁.index, hentry₁ n hvn, hhit, hit_of_not_present not_present_zero,
          hspace] at hstep
        omega
      rw [hcount]
      refine hm.trans ⟨fun _ => rfl, fun x hx => word_fill_of_ne _ ?_⟩
      rintro rfl
      have htab := hat.isTable hvn
      have hne : x ≠ q := by
        rintro rfl
        exact hqtab htab
      have := htab.space_ne_zero
      rw [only_of_ne hne] at hx
      omega
    · rw [hentry]
      exact not_present_zero
  · next hp =>
    exact ⟨.refl _ _, fun m _ _ => .refl _ _ _, hp⟩

theorem wp_deallocLoop {oldsz : ℕ} (hold : oldsz ≤ KERNBASE) :
    ∀ (fuel i : ℕ) (s : Mem), oldsz < PGSIZE * (i + fuel) → i ≤ USERPAGES → Good M s (space s d) →
      wp (deallocLoop M d oldsz fuel (PGSIZE * i)) (fun _ s' =>
        heap.Moves s (space s d) s' (space s' d) ∧
        (∀ m < VPAGES, ¬ (i ≤ m ∧ PGSIZE * m < oldsz) → Kept s s' d m) ∧
        ∀ m, i ≤ m → PGSIZE * m < oldsz → ¬ Present (entry s' d m)) E s := by
  intro fuel
  induction fuel with
  | zero =>
    intro i s hfuel _ _
    refine ⟨.refl _ _, fun _ _ _ => .refl _ _ _, fun m him hlt => ?_⟩
    unfold PGSIZE at hfuel hlt
    omega
  | succ fuel ih =>
  intro i s hfuel hi hg
  rw [deallocLoop]
  split
  · next hlt =>
    have hiu := lt_USERPAGES hold hlt
    have hvi : i < VPAGES := lt_of_lt_of_le hiu USERPAGES_le
    have hdiv : PGSIZE * i / PGSIZE = i := Nat.mul_div_cancel_left i (by decide)
    have hva : PGSIZE * i < 2 ^ 32 := by
      unfold KERNBASE at hold
      omega
    rw [wp_bind]
    refine wp_walkpgdir hva (fun hnone => ?_) fun t j hat => ?_
    · -- no page table: nothing is mapped up to the next directory entry
      rw [hdiv] at hnone
      have hnext : PGADDR (PDX (PGSIZE * i) + 1) 0 0 = PGSIZE * ((i / 1024 + 1) * 1024) := by
        rw [PDX_eq hva, hdiv]
        unfold PGADDR PGSIZE
        unfold USERPAGES at hiu
        omega
      have habsent : ∀ m, i ≤ m → m < (i / 1024 + 1) * 1024 → entry s d m = 0 := by
        intro m him hm
        have hsame : m / 1024 = i / 1024 := by omega
        rw [entry, hsame, if_neg hnone]
      dsimp only
      rw [hnext]
      refine (ih _ s ?_ ?_ hg).imp ?_
      · unfold PGSIZE at *
        omega
      · unfold USERPAGES at *
        omega
      rintro - s' ⟨hm, hkept, hgone⟩
      refine ⟨hm, fun m hv hnot => ?_, fun m him hml => ?_⟩
      · refine hkept m hv fun hc => hnot ⟨?_, hc.2⟩
        omega
      by_cases hin : (i / 1024 + 1) * 1024 ≤ m
      · exact hgone m hin hml
      have hvm : m < VPAGES := by
        unfold USERPAGES at hiu
        unfold VPAGES
        omega
      rw [(hkept m hvm fun hc => hin hc.1).entry_eq, habsent m him (by omega)]
      exact not_present_zero
    · rw [hdiv] at hat
      dsimp only
      rw [wp_bind]
      refine (wp_clearEntry hiu hg hat).imp ?_
      rintro - s₁ ⟨hm₁, hkept₁, hgone₁⟩
      have hnext : PGSIZE * i + PGSIZE = PGSIZE * (i + 1) :=
        (Nat.mul_succ _ _).symm
      rw [hnext]
      refine (ih _ s₁ ?_ (by omega) (hg.moves hm₁)).imp ?_
      · rwa [Nat.add_right_comm, Nat.add_assoc]
      rintro - s' ⟨hm, hkept, hgone⟩
      refine ⟨hm₁.trans hm, fun m hv hnot => ?_, fun m him hml => ?_⟩
      · have hne : m ≠ i := by
          rintro rfl
          exact hnot ⟨le_refl _, hlt⟩
        exact (hkept₁ m hv hne).trans (hkept m hv fun hc => hnot ⟨by omega, hc.2⟩)
      · rcases eq_or_lt_of_le him with rfl | him
        · rwa [(hkept i hvi fun hc => by omega).entry_eq]
        · exact hgone m him hml
  next hge =>
  refine ⟨.refl _ _, fun _ _ _ => .refl _ _ _, fun m him hml => ?_⟩
  have := Nat.mul_le_mul_left PGSIZE him
  omega

theorem PGROUNDUP_eq {sz : ℕ} (h : sz ≤ KERNBASE) :
    PGROUNDUP sz = PGSIZE * ((sz + 4095) / 4096) := by
  unfold KERNBASE at h
  unfold PGROUNDUP PGSIZE
  omega

theorem wp_deallocuvm {oldsz newsz : ℕ} (hold : oldsz ≤ KERNBASE) (hnew : newsz < oldsz)
    (hg : Good M s (space s d)) : wp (deallocuvm M d oldsz newsz) (fun r s' => r = newsz ∧
      heap.Moves s (space s d) s' (space s' d) ∧
      (∀ m < VPAGES, ¬ (newsz ≤ PGSIZE * m ∧ PGSIZE * m < oldsz) → Kept s s' d m) ∧
      ∀ m, newsz ≤ PGSIZE * m → PGSIZE * m < oldsz → ¬ Present (entry s' d m)) E s := by
  unfold deallocuvm
  rw [wp_ite, if_neg (by omega), wp_bind, PGROUNDUP_eq (by omega)]
  refine (wp_deallocLoop hold _ _ s ?_ ?_ hg).imp ?_
  · unfold PGSIZE
    omega
  · unfold KERNBASE at hold
    unfold USERPAGES
    omega
  rintro - s' ⟨hm, hkept, hgone⟩
  refine ⟨rfl, hm, fun m hv hnot => hkept m hv fun hc => hnot ⟨?_, hc.2⟩,
    fun m hge hlt => hgone m ?_ hlt⟩
  · have := hc.1
    unfold PGSIZE
    omega
  · unfold PGSIZE at hge
    omega

end Xv6.Vm
