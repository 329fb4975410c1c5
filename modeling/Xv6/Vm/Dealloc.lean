import Xv6.Vm.Grow

/-!
# Where a page table is missing

`deallocuvm` goes from page to page, but from a page without a page table it jumps to the first one
of the next directory entry, wherever in the four megabytes it was and wherever `oldsz` is. The loop
is here as the source has it, on 32-bit addresses: it subtracts a page from the address it jumps to,
since the loop adds one.
-/

namespace Xv6.Vm

open Hoare Function List

section Loop

variable (M : Machine) (pgdir oldsz : ℕ)

/-- The loop of `deallocuvm`; `none` if it has not ended after so many rounds. -/
def deallocLoop32 : ℕ → ℕ → VmM (Option Unit)
  | 0, _ => return none
  | fuel + 1, a =>
    if a < oldsz then do
      match ← walkpgdir pgdir a false with
      | none =>
        let a := (PGADDR (PDX a + 1) 0 0 + 2 ^ 32 - PGSIZE) % 2 ^ 32
        deallocLoop32 fuel ((a + PGSIZE) % 2 ^ 32)
      | some (t, j) => do
        clearEntry M t j
        deallocLoop32 fuel ((a + PGSIZE) % 2 ^ 32)
    else return some ()

/-- `deallocuvm`, within so many rounds. -/
def deallocuvm32 (fuel newsz : ℕ) : VmM (Option ℕ) := do
  if newsz ≥ oldsz then return some oldsz
  else do
    let done ← deallocLoop32 M pgdir oldsz fuel (PGROUNDUP newsz)
    return done.map fun _ => newsz

/-- Free and clear virtual page `n`, if there is one. -/
def visit (n : ℕ) : VmM Unit := do
  match ← walkpgdir pgdir (PGSIZE * n) false with
  | none => return ()
  | some (t, j) => clearEntry M t j

/-- Every page from `lo` to `hi`, one by one. -/
def visitAll (lo hi : ℕ) : VmM Unit := forEach (visit M pgdir) (range' lo (hi - lo))

end Loop

variable {M : Machine} {s s' : Mem} {d n i oldsz newsz fuel : ℕ}

theorem bind_congr_run {α β : Type} {p q : VmM α} (f : α → VmM β) (h : p s = q s) :
    (p >>= f) s = (q >>= f) s := by
  change (p s >>= fun x => f x.1 x.2) = (q s >>= fun x => f x.1 x.2)
  rw [h]

/-! ### The jump -/

theorem jump_eq {a : ℕ} (ha : a < KERNBASE) :
    ((PGADDR (PDX a + 1) 0 0 + 2 ^ 32 - PGSIZE) % 2 ^ 32 + PGSIZE) % 2 ^ 32 =
      PGSIZE * (1024 * (a / PGSIZE / 1024 + 1)) ∧
    PGADDR (PDX a + 1) 0 0 = PGSIZE * (1024 * (a / PGSIZE / 1024 + 1)) := by
  unfold KERNBASE at ha
  rw [PDX_eq (by omega)]
  unfold PGADDR PGSIZE
  omega

theorem next_eq {a : ℕ} (ha : a < KERNBASE) : (a + PGSIZE) % 2 ^ 32 = a + PGSIZE := by
  unfold KERNBASE at ha
  unfold PGSIZE
  omega

theorem deallocLoop_eq (hold : oldsz ≤ KERNBASE) : ∀ fuel a,
    deallocLoop M d oldsz fuel a = (do let _ ← deallocLoop32 M d oldsz fuel a; return ())
  | 0, _ => rfl
  | fuel + 1, a => by
    unfold deallocLoop deallocLoop32
    split
    · next hlt =>
      have ha := lt_of_lt_of_le hlt hold
      rw [bind_assoc]
      congr
      funext r
      cases r with
      | none =>
        dsimp only
        rw [(jump_eq ha).1, (jump_eq ha).2]
        exact deallocLoop_eq hold fuel _
      | some tj =>
        dsimp only
        rw [next_eq ha, bind_assoc, deallocLoop_eq hold fuel]
    · rfl

theorem walkpgdir_run (hn : n < VPAGES) :
    (¬ Present (s.word d (n / 1024)) ∧ walkpgdir d (PGSIZE * n) false s = .ok (none, s)) ∨
      ∃ t j, At s d n t j ∧ walkpgdir d (PGSIZE * n) false s = .ok (some (t, j), s) := by
  have hdiv : PGSIZE * n / PGSIZE = n := Nat.mul_div_cancel_left n (by decide)
  have hva : PGSIZE * n < 2 ^ 32 := by
    unfold VPAGES at hn
    unfold PGSIZE
    omega
  obtain ⟨r, s', hrun, hr⟩ := wp_ok.mp (wp_walkpgdir (E := fun _ => False) (d := d) hva
    (Q := fun r s' => s' = s ∧ ((r = none ∧ ¬ Present (s.word d (n / 1024))) ∨
      ∃ t j, r = some (t, j) ∧ At s d n t j))
    (fun h => ⟨rfl, .inl ⟨rfl, by rwa [hdiv] at h⟩⟩)
    (fun t j h => ⟨rfl, .inr ⟨t, j, rfl, by rwa [hdiv] at h⟩⟩))
  rcases hr with ⟨rfl, ⟨rfl, h⟩ | ⟨t, j, rfl, h⟩⟩
  · exact .inl ⟨h, hrun⟩
  · exact .inr ⟨t, j, h, hrun⟩

theorem visit_of_absent (hn : n < VPAGES) (h : ¬ Present (s.word d (n / 1024))) :
    visit M d n s = .ok ((), s) := by
  rcases walkpgdir_run hn with ⟨_, hrun⟩ | ⟨t, j, hat, _⟩
  · rw [visit, bind_of_ok hrun]
    rfl
  · exact absurd hat.present h

theorem visit_of_at {t j : ℕ} (hn : n < VPAGES) (hat : At s d n t j) :
    visit M d n s = clearEntry M t j s := by
  rcases walkpgdir_run hn with ⟨h, _⟩ | ⟨t', j', hat', hrun⟩
  · exact absurd hat.present h
  · rw [visit, bind_of_ok hrun, hat.table, hat.index, hat'.table, hat'.index]

theorem forEach_visit_of_absent {l : List ℕ} (h : ¬ Present (s.word d i))
    (hl : ∀ n ∈ l, n < VPAGES ∧ n / 1024 = i) : forEach (visit M d) l s = .ok ((), s) := by
  induction l with
  | nil => rfl
  | cons n l ih =>
    obtain ⟨hn, rfl⟩ := hl n mem_cons_self
    rw [forEach, bind_of_ok (visit_of_absent hn h)]
    exact ih fun m hm => hl m (mem_cons_of_mem n hm)

theorem visitAll_jump {k hi : ℕ} (hk : k = 1024 * (i / 1024 + 1)) (hhi : hi ≤ VPAGES)
    (h : ¬ Present (s.word d (i / 1024))) : visitAll M d i hi s = visitAll M d k hi s := by
  have hsplit : range' i (hi - i) = range' i (min hi k - i) ++ range' k (hi - k) := by
    rcases le_total hi k with hle | hle
    · rw [min_eq_left hle, Nat.sub_eq_zero_of_le hle, range'_zero, append_nil]
    · have happ := range'_append_1 (s := i) (m := k - i) (n := hi - k)
      rw [Nat.add_sub_cancel' (by omega)] at happ
      rw [min_eq_right hle, happ, show k - i + (hi - k) = hi - i by omega]
  rw [visitAll, hsplit, forEach_append, bind_of_ok (forEach_visit_of_absent h fun n hn => ?_)]
  · rfl
  · rw [mem_range'_1] at hn
    omega

theorem visitAll_cons {hi : ℕ} (h : i < hi) :
    visitAll M d i hi = (do visit M d i; visitAll M d (i + 1) hi) := by
  unfold visitAll
  rw [show hi - i = hi - (i + 1) + 1 by omega, range'_succ]
  rfl

theorem deallocLoop32_eq (hold : oldsz ≤ KERNBASE) : ∀ (fuel i : ℕ) (s : Mem),
    pages oldsz - i < fuel →
    deallocLoop32 M d oldsz fuel (PGSIZE * i) s =
      (do visitAll M d i (pages oldsz); return some ()) s := by
  have hpages := (pages_le_USERPAGES hold).trans USERPAGES_le
  intro fuel
  induction fuel with
  | zero => exact fun i s h => absurd h (Nat.not_lt_zero _)
  | succ fuel ih =>
    intro i s hfuel
    unfold deallocLoop32
    split
    · next hlt =>
      have hi : i < pages oldsz := lt_pages_iff.mpr hlt
      have ha := lt_of_lt_of_le hlt hold
      rcases walkpgdir_run (hi.trans_le hpages) with ⟨habs, hrun⟩ | ⟨t, j, hat, hrun⟩
      · rw [bind_of_ok hrun]
        dsimp only
        rw [(jump_eq ha).1, Nat.mul_div_cancel_left i (by decide), ih _ _ (by omega)]
        exact bind_congr_run _ (visitAll_jump rfl hpages habs).symm
      · rw [bind_of_ok hrun, visitAll_cons hi, bind_assoc]
        dsimp only
        rw [next_eq ha, ← Nat.mul_succ, show deallocLoop32 M d oldsz fuel (PGSIZE * i.succ) = _ from
          funext fun s' => ih (i + 1) s' (by omega)]
        exact bind_congr_run _ (visit_of_at (hi.trans_le hpages) hat).symm
    next hge =>
    have hle : pages oldsz - i = 0 := Nat.sub_eq_zero_of_le (pages_le_iff.mpr (not_lt.mp hge))
    rw [visitAll, hle]
    rfl

theorem deallocuvm32_eq (hold : oldsz ≤ KERNBASE) (hnew : newsz < oldsz)
    (hfuel : pages oldsz < fuel) :
    deallocuvm32 M d oldsz fuel newsz s =
      (do visitAll M d (pages newsz) (pages oldsz); return some newsz) s := by
  unfold deallocuvm32
  rw [if_neg (not_le.mpr hnew), PGROUNDUP_eq (hnew.le.trans hold)]
  exact (bind_congr_run _ (deallocLoop32_eq hold fuel (pages newsz) s (by omega))).trans
    (by rw [bind_assoc]; rfl)

/-! ### What the visits do -/

/-- Present entries below `KERNBASE` point to different pages that `kfree` accepts, none of which
is the directory or a page table, as `kfree` overwrites what it frees. -/
structure UserPages (M : Machine) (s : Mem) (d : ℕ) : Prop where
  allocatable : ∀ n < USERPAGES, Present (entry s d n) → M.Allocatable (pageOf (entry s d n))
  inj : ∀ m < USERPAGES, ∀ n < USERPAGES, Present (entry s d m) → Present (entry s d n) →
    pageOf (entry s d m) = pageOf (entry s d n) → m = n
  not_isTable : ∀ n < USERPAGES, Present (entry s d n) → ¬ IsTable s d (pageOf (entry s d n))

def mapped (s : Mem) (d : ℕ) (l : List ℕ) : List ℕ :=
  (l.filter fun n => Present (entry s d n)).map fun n => pageOf (entry s d n)

/-- From `s` to `s'`, the present pages of a list were freed and their entries cleared, and nothing
else was done. -/
structure Cleared (s s' : Mem) (d : ℕ) (l : List ℕ) : Prop where
  freelist : s'.freelist = (mapped s d l).reverse ++ s.freelist
  fails : s'.fails = s.fails
  freed : ∀ x ∈ mapped s d l, s'.word x = fun _ => junk
  cleared : ∀ n ∈ l, Present (entry s d n) → ∀ t j, At s d n t j → s'.word t j = 0
  kept : ∀ x j, x ∉ mapped s d l → (∀ n ∈ l, Present (entry s d n) → ¬ At s d n x j) →
    s'.word x j = s.word x j

variable {l : List ℕ}

theorem mem_mapped {x : ℕ} :
    x ∈ mapped s d l ↔ ∃ n ∈ l, Present (entry s d n) ∧ pageOf (entry s d n) = x := by
  simp only [mapped, mem_map, mem_filter, decide_eq_true_eq, and_assoc]

theorem mapped_append (l' : List ℕ) : mapped s d (l ++ l') = mapped s d l ++ mapped s d l' := by
  rw [mapped, filter_append, map_append]
  rfl

namespace UserPages

variable (h : UserPages M s d) (hl : ∀ n ∈ l, n < USERPAGES)

include h

theorem not_at {m t j : ℕ} (hm : m < USERPAGES) (hn : n < USERPAGES) (hp : Present (entry s d m))
    (hat : At s d n t j) (hne : m ≠ n) : ¬ At s d m t j := by
  intro hat'
  have heq : entry s d n = entry s d m := hat.word_eq.symm.trans hat'.word_eq
  exact hne (h.inj m hm n hn hp (heq ▸ hp) (by rw [heq]))

theorem dir_ne {t j : ℕ} (hn : n < USERPAGES) (hat : At s d n t j) : t ≠ d := by
  intro htd
  -- the entry at which the directory is seen as a page table that holds itself
  have hlt : 1025 * (n / 1024) < USERPAGES := by
    unfold USERPAGES at hn ⊢
    omega
  have hdiv : 1025 * (n / 1024) / 1024 = n / 1024 := by
    unfold USERPAGES at hn
    omega
  have hmod : 1025 * (n / 1024) % 1024 = n / 1024 := by
    unfold USERPAGES at hn
    omega
  have hself : entry s d (1025 * (n / 1024)) = s.word d (n / 1024) := by
    rw [entry, hdiv, hmod, if_pos hat.present, ← hat.table, htd]
  refine h.not_isTable _ hlt (hself ▸ hat.present) (.inl ?_)
  rw [hself, ← hat.table, htd]

include hl

theorem not_mem_mapped {x : ℕ} (hx : IsTable s d x) : x ∉ mapped s d l := by
  intro hmem
  obtain ⟨n, hn, hp, rfl⟩ := mem_mapped.mp hmem
  exact h.not_isTable n (hl n hn) hp hx

theorem word_dir (hc : Cleared s s' d l) (i : ℕ) : s'.word d i = s.word d i :=
  hc.kept d i (h.not_mem_mapped hl (.inl rfl)) fun n hn _ hat => h.dir_ne (hl n hn) hat rfl

theorem word_of_not_mem (hc : Cleared s s' d l) (hn : n < USERPAGES)
    (hnl : ¬ (n ∈ l ∧ Present (entry s d n))) {t j : ℕ} (hat : At s d n t j) :
    s'.word t j = entry s d n := by
  have ht := h.not_mem_mapped hl (hat.isTable (hn.trans_le USERPAGES_le))
  rw [hc.kept t j ht fun m hm hp => h.not_at (hl m hm) hn hp hat ?_, hat.word_eq]
  rintro rfl
  exact hnl ⟨hm, hp⟩

end UserPages

theorem Cleared.skip (hc : Cleared s s' d l) (hn : ¬ Present (entry s d n)) :
    Cleared s s' d (l ++ [n]) := by
  have hmapped : mapped s d (l ++ [n]) = mapped s d l := by
    have hnil : mapped s d [n] = [] := by
      rw [mapped, filter_singleton, decide_eq_false hn]
      rfl
    rw [mapped_append, hnil, append_nil]
  refine ⟨hmapped ▸ hc.freelist, hc.fails, hmapped ▸ hc.freed, fun m hm hp => ?_,
    fun x j hx hat => hc.kept x j (hmapped ▸ hx) fun m hm => hat m (mem_append_left _ hm)⟩
  rcases mem_append.mp hm with hm | hm
  · exact hc.cleared m hm hp
  · cases mem_singleton.mp hm
    exact absurd hp hn

theorem clearEntry_of_present {t j : ℕ} (hp : Present (s.word t j))
    (hq : M.Allocatable (pageOf (s.word t j))) :
    clearEntry M t j s = .ok ((), ({ s.fill (pageOf (s.word t j)) fun _ => junk with
      freelist := pageOf (s.word t j) :: s.freelist } : Mem).store t j 0) := by
  have hne : pageOf (s.word t j) ≠ 0 := (M.kend_pos.trans_le hq.1).ne'
  unfold clearEntry kfree
  rw [bind_of_ok (show load t j s = .ok (s.word t j, s) from rfl), if_pos hp, if_neg hne, if_pos hq]
  rfl

theorem UserPages.clear (h : UserPages M s d) (hl : ∀ n ∈ l, n < USERPAGES)
    (hc : Cleared s s' d l) (hn : n < USERPAGES) (hp : Present (entry s d n)) {t j : ℕ}
    (hat : At s d n t j) :
    Cleared s (({ s'.fill (pageOf (entry s d n)) fun _ => junk with
      freelist := pageOf (entry s d n) :: s'.freelist } : Mem).store t j 0) d (l ++ [n]) := by
  have htab := hat.isTable (hn.trans_le USERPAGES_le)
  have hqtab := h.not_isTable n hn hp
  have hmapped : mapped s d (l ++ [n]) = mapped s d l ++ [pageOf (entry s d n)] := by
    rw [mapped_append, mapped, mapped, filter_singleton, decide_eq_true hp]
    rfl
  generalize pageOf (entry s d n) = q at hqtab hmapped ⊢
  generalize hs₂ : (({ s'.fill q fun _ => junk with
    freelist := q :: s'.freelist } : Mem).store t j 0) = s₂
  have hword : ∀ x k, s₂.word x k =
      if x = t ∧ k = j then 0 else if x = q then junk else s'.word x k := by
    intro x k
    subst hs₂
    have htq : t ≠ q := ne_of_mem_of_not_mem (s := {x | IsTable s d x}) htab hqtab
    simp only [Mem.store, Mem.fill, update_apply]
    grind
  refine ⟨?_, by rw [← hs₂]; exact hc.fails, fun x hx => funext fun k => ?_,
    fun m hm hpm t' j' hat' => ?_, fun x k hx hnot => ?_⟩
  · rw [hmapped, reverse_append, ← hs₂]
    exact congrArg (q :: ·) hc.freelist
  · have hxt : x ≠ t := by
      rintro rfl
      rcases mem_append.mp (hmapped ▸ hx) with hx | hx
      · exact h.not_mem_mapped hl htab hx
      · exact hqtab (mem_singleton.mp hx ▸ htab)
    rw [hword, if_neg fun hc => hxt hc.1]
    split
    · rfl
    next hxq =>
    rw [hmapped, mem_append, mem_singleton, or_iff_left hxq] at hx
    rw [hc.freed x hx]
  · rw [hword]
    split
    · rfl
    next hne =>
    have hmem : m ∈ l := (mem_append.mp hm).resolve_right fun hmn => by
      cases mem_singleton.mp hmn
      exact hne ⟨hat'.table.trans hat.table.symm, hat'.index.trans hat.index.symm⟩
    rw [if_neg, hc.cleared m hmem hpm t' j' hat']
    rintro rfl
    exact hqtab (hat'.isTable ((hl m hmem).trans_le USERPAGES_le))
  · rw [hmapped, mem_append, mem_singleton, not_or] at hx
    rw [hword, if_neg, if_neg hx.2, hc.kept x k hx.1 fun m hm => hnot m (mem_append_left _ hm)]
    rintro ⟨rfl, rfl⟩
    exact hnot n (mem_append_right _ mem_cons_self) hp hat

theorem UserPages.wp_visit {E : Panic → Prop} (h : UserPages M s d) (hl : ∀ n ∈ l, n < USERPAGES)
    (hc : Cleared s s' d l) (hn : n < USERPAGES) (hnl : n ∉ l) :
    wp (visit M d n) (fun _ s₂ => Cleared s s₂ d (l ++ [n])) E s' := by
  have hvn := hn.trans_le USERPAGES_le
  have hdir := h.word_dir hl hc (n / 1024)
  unfold wp
  by_cases hpde : Present (s.word d (n / 1024))
  · have hat : At s d n _ _ := ⟨hpde, rfl, rfl⟩
    have hw := h.word_of_not_mem hl hc hn (fun hc => hnl hc.1) hat
    rw [visit_of_at hvn (t := pageOf (s.word d (n / 1024))) (j := n % 1024)
      ⟨hdir.symm ▸ hpde, by rw [hdir], rfl⟩]
    by_cases hp : Present (entry s d n)
    · rw [clearEntry_of_present (hw.symm ▸ hp) (hw.symm ▸ h.allocatable n hn hp), hw]
      exact h.clear hl hc hn hp hat
    have hrun : clearEntry M (pageOf (s.word d (n / 1024))) (n % 1024) s' = .ok ((), s') := by
      unfold clearEntry
      rw [bind_of_ok (show load _ _ s' = .ok (_, s') from rfl), hw, if_neg hp]
      rfl
    rw [hrun]
    exact hc.skip hp
  · rw [visit_of_absent hvn (hdir.symm ▸ hpde)]
    refine hc.skip ?_
    rw [entry, if_neg hpde]
    exact not_present_zero

theorem UserPages.wp_visits {E : Panic → Prop} (h : UserPages M s d) (lo : ℕ) :
    ∀ k, lo + k ≤ USERPAGES →
      wp (forEach (visit M d) (range' lo k)) (fun _ s' => Cleared s s' d (range' lo k)) E s
  | 0, _ => ⟨rfl, rfl, fun _ hx => absurd hx not_mem_nil, fun _ hm => absurd hm not_mem_nil,
      fun _ _ _ _ => rfl⟩
  | k + 1, hk => by
    rw [range'_1_concat, forEach_append, wp_bind]
    refine (h.wp_visits lo k (by omega)).imp fun _ s' hc => ?_
    rw [forEach, wp_bind]
    refine (h.wp_visit (fun n hn => ?_) hc (by omega) ?_).imp fun _ _ hc' => hc'
    · rw [mem_range'_1] at hn
      omega
    · rw [mem_range'_1]
      omega

/-- **`deallocuvm` frees and clears exactly the present pages of its range**: it ends, and does what
visiting every page does, whatever is in memory. If the present pages below `KERNBASE` are different
ones that can be freed, an entry is cleared if it is present and in the range, and no other entry
changes. -/
theorem deallocuvm_exact (M : Machine) (d oldsz newsz fuel : ℕ) (hnew : newsz < oldsz)
    (hold : oldsz ≤ KERNBASE) (hfuel : pages oldsz < fuel) :
    (∀ s, deallocuvm32 M d oldsz fuel newsz s =
      (do visitAll M d (pages newsz) (pages oldsz); return some newsz) s) ∧
    ∀ s, UserPages M s d → ∃ s', deallocuvm32 M d oldsz fuel newsz s = .ok (some newsz, s') ∧
      Cleared s s' d (range' (pages newsz) (pages oldsz - pages newsz)) ∧
      ∀ n < USERPAGES, entry s' d n =
        if PGROUNDUP newsz ≤ PGSIZE * n ∧ PGSIZE * n < oldsz ∧ Present (entry s d n) then 0
        else entry s d n := by
  refine ⟨fun s => deallocuvm32_eq hold hnew hfuel, fun s h => ?_⟩
  have hpages := pages_le_USERPAGES hold
  have hle : pages newsz ≤ pages oldsz := by
    unfold pages
    omega
  have hl : ∀ n ∈ range' (pages newsz) (pages oldsz - pages newsz), n < USERPAGES := fun n hn => by
    rw [mem_range'_1] at hn
    omega
  obtain ⟨⟨⟩, s', hrun, hc⟩ := wp_ok.mp (h.wp_visits (pages newsz)
    (pages oldsz - pages newsz) (by omega))
  refine ⟨s', ?_, hc, fun n hn => ?_⟩
  · rw [deallocuvm32_eq hold hnew hfuel, visitAll, bind_of_ok hrun]
    rfl
  have hdir := h.word_dir hl hc (n / 1024)
  have hmem : n ∈ range' (pages newsz) (pages oldsz - pages newsz) ↔
      PGROUNDUP newsz ≤ PGSIZE * n ∧ PGSIZE * n < oldsz := by
    rw [mem_range'_1, PGROUNDUP_eq (hnew.le.trans hold), Nat.mul_le_mul_left_iff (by decide),
      ← lt_pages_iff, Nat.add_sub_cancel' hle]
    rfl
  simp only [← and_assoc, ← hmem]
  by_cases hpde : Present (s.word d (n / 1024))
  · have hat : At s d n _ _ := ⟨hpde, rfl, rfl⟩
    have hat' : At s' d n _ _ := ⟨hdir.symm ▸ hpde, by rw [hdir], hat.index⟩
    rw [← hat'.word_eq]
    split
    next hin => exact hc.cleared n hin.1 hin.2 _ _ hat
    next hout => exact h.word_of_not_mem hl hc hn hout hat
  · have habs : entry s d n = 0 := if_neg hpde
    rw [habs, ite_self]
    exact if_neg (hdir.symm ▸ hpde)

/-- Directory 10 has a page table for its second entry only, with one page. -/
def sparse : Mem where
  freelist := []
  fails := []
  word x i := if x = 10 ∧ i = 1 then mkEntry 11 6 else if x = 11 ∧ i = 5 then mkEntry 20 6 else 0

theorem entry_sparse (h : Present (entry sparse 10 n)) :
    n = 1029 ∧ entry sparse 10 n = mkEntry 20 6 := by
  unfold entry sparse at h ⊢
  grind [Present, pageOf, mkEntry]

theorem isTable_sparse {x : ℕ} (h : IsTable sparse 10 x) : x = 10 ∨ x = 11 := by
  unfold IsTable sparse at h
  grind [Present, pageOf, mkEntry]

theorem userPages_sparse : UserPages smallKernel sparse 10 := by
  refine ⟨fun n _ h => ?_, fun m _ n _ hm hn _ => ?_, fun n _ h => ?_⟩
  · rw [(entry_sparse h).2]
    decide
  · rw [(entry_sparse hm).1, (entry_sparse hn).1]
  · rw [(entry_sparse h).2]
    exact fun hc => absurd (isTable_sparse hc) (by decide)

/-- From the middle of the missing page table to the page in the other one. -/
theorem deallocuvm_exact_sparse :
    ∃ s', deallocuvm32 smallKernel 10 (4096 * 1030 - 5) 2000 100 sparse = .ok (some 100, s') ∧
      entry sparse 10 1029 = mkEntry 20 6 ∧ entry s' 10 1029 = 0 := by
  obtain ⟨s', hrun, -, hentry⟩ := (deallocuvm_exact smallKernel 10 (4096 * 1030 - 5) 100 2000
    (by decide) (by decide) (by decide)).2 sparse userPages_sparse
  exact ⟨s', hrun, by decide, (hentry 1029 (by decide)).trans (if_pos (by decide))⟩

end Xv6.Vm
