import Xv6.Vm.Grow

/-!
# Copying an address space

`copyuvm`. The copy has its own pages with the parent's contents and flags, and the kernel's
mappings of a new space. If memory runs out on the way, everything that was taken is given back.
Nothing is written to a page of the parent.
-/

namespace Xv6.Vm

open Footprint Tally Hoare

variable {M : Machine} {s s' s₀ : Mem} {d q n p m i sz : ℕ} {E : Panic → Prop}

/-- Virtual page `m` of `d` has the flags and the words of that of `q`. -/
def Copied (s : Mem) (q d m : ℕ) : Prop :=
  ∃ p, entry s d m = mkEntry p (flagsOf (entry s q m)) ∧ s.word p = s.word (pageOf (entry s q m))

theorem flagsOf_lt (w : ℕ) : flagsOf w < 4096 := Nat.mod_lt _ (by decide)

theorem flagsOf_mkEntry {w : ℕ} (h : Present w) : flagsOf (mkEntry p (flagsOf w)) = flagsOf w := by
  unfold Present at h
  unfold flagsOf mkEntry
  omega

theorem Copied.kept (h : Copied s q d m) (hm : m < USERPAGES) (hp : Present (entry s q m))
    (hd : Kept s s' d m) (hq : Kept s s' q m) : Copied s' q d m := by
  obtain ⟨p, hentry, hword⟩ := h
  have hwordd := hd.word_eq hm (by rw [hentry]; exact present_mkEntry)
  rw [hentry, pageOf_mkEntry (flagsOf_lt _)] at hwordd
  refine ⟨p, ?_, ?_⟩
  · rw [hd.entry_eq, hq.entry_eq, hentry]
  · rw [hwordd, hword, hq.entry_eq, hq.word_eq hm hp]

/-- After `i` pages: `d` has a copy of each, and otherwise the kernel's mappings. -/
structure Copying (M : Machine) (s₀ s : Mem) (q d i : ℕ) : Prop where
  moves : heap.Moves s₀ 0 s (space s d)
  copied : ∀ m < i, Copied s q d m
  rest : ∀ m < VPAGES, i ≤ m → entry s d m = kernelEntry M.kmap 0 m

theorem Copying.parent {k : ℕ} (h : Copying M s₀ s q d k) (hs : heap.Sole s₀ (space s₀ q)) :
    space s q = space s₀ q ∧ ∀ m < VPAGES, Kept s₀ s q m :=
  kept_of_moves h.moves (by rwa [zero_add])

theorem Copying.sole {k : ℕ} (h : Copying M s₀ s q d k) (hg : Good M s₀ (space s₀ q)) :
    Good M s (space s d + space s q) := by
  rw [(h.parent hg.sole).1]
  refine hg.moves ?_
  have := h.moves.add (space s₀ q)
  rwa [zero_add] at this

theorem wp_copyLoop (hsz : sz ≤ KERNBASE) (hg : Good M s₀ (space s₀ q))
    (hpres : ∀ m, PGSIZE * m < sz → Present (entry s₀ q m)) :
    ∀ (fuel i : ℕ) (s : Mem), sz < PGSIZE * (i + fuel) → i ≤ pages sz → Copying M s₀ s q d i →
      wp (copyLoop M q sz d fuel (PGSIZE * i)) (fun ok s' =>
        (ok = true ∧ Copying M s₀ s' q d (pages sz)) ∨
        (ok = false ∧ heap.Moves s₀ 0 s' (space s' d))) E s := by
  intro fuel
  induction fuel with
  | zero =>
    intro i s hfuel hi hcopy
    have heq : i = pages sz := by
      have := pages_le_iff.mpr (hfuel.le.trans_eq (by rw [Nat.add_zero]))
      omega
    rw [← heq]
    exact .inl ⟨rfl, hcopy⟩
  | succ fuel ih =>
  intro i s hfuel hi hcopy
  rw [copyLoop]
  split
  · next hlt =>
    have hiu := lt_USERPAGES hsz hlt
    have hvi : i < VPAGES := lt_of_lt_of_le hiu USERPAGES_le
    have hdiv : PGSIZE * i / PGSIZE = i := Nat.mul_div_cancel_left i (by decide)
    have hva : PGSIZE * i < 2 ^ 32 := by
      unfold KERNBASE at hsz
      omega
    obtain ⟨hspaceq, hkeptq⟩ := hcopy.parent hg.sole
    have hgs := hcopy.sole hg
    have hpi : Present (entry s q i) := by
      rw [(hkeptq i hvi).entry_eq]
      exact hpres i hlt
    rw [wp_bind]
    refine wp_walkpgdir hva (fun hnone => ?_) fun t j hat => ?_
    · rw [hdiv] at hnone
      rw [entry, if_neg hnone] at hpi
      exact absurd hpi not_present_zero
    rw [hdiv] at hat
    dsimp only
    rw [wp_bind, wp_load, hat.word_eq, wp_ite, if_pos hpi, wp_bind]
    refine (wp_kalloc hgs.left.toTidy).imp ?_
    rintro r s₁ ⟨hword, ⟨rfl, hm⟩ | ⟨hr, hm⟩, -⟩
    · rw [wp_ite, if_pos rfl]
      refine .inr ⟨rfl, ?_⟩
      rw [space_of_word_eq hword]
      exact hcopy.moves.trans hm
    rw [wp_ite, if_neg hr, wp_bind, wp_get, wp_bind, wp_fill, wp_bind]
    have hnot : space s d r = 0 := (hgs.left.toTidy.moves hm).not_both
    have hspace₁ := space_of_word_eq hword d
    have hnot₁ : space s₁ d r = 0 := (congrFun hspace₁ r).trans hnot
    obtain ⟨hspace₂, hkept₂⟩ := kept_fill hnot₁ (s₁.word (pageOf (entry s q i)))
    set s₂ := s₁.fill r (s₁.word (pageOf (entry s q i)))
    have hm₂ : heap.Moves s (space s d) s₂ (space s₂ d + only r) := by
      rw [hspace₂, hspace₁]
      exact moves_fill_taken hm _
    have hentry₂ : ∀ m < VPAGES, Kept s s₂ d m := fun m hv =>
      (kept_of_word_eq hword d m).trans (hkept₂ m hv)
    have habs : ¬ Present (entry s₂ d i) := by
      rw [(hentry₂ i hvi).entry_eq, hcopy.rest i hvi (le_refl _), kernelEntry_user _ hiu]
      exact not_present_zero
    refine (wp_mappages_page hiu (flagsOf_lt _) (hgs.left.toTidy.moves hm₂) habs).imp ?_
    rintro ok s₃ ⟨hpage, hother, hyes, hno⟩
    cases ok with
    | false =>
      obtain ⟨hm₃, -⟩ := hno rfl
      simp only [Bool.false_eq_true, if_false, wp_bind]
      have hm₃' := hm₂.trans (hm₃.add (only r))
      refine (wp_kfree_page (hgs.left.moves hm₃')).imp ?_
      rintro - s₄ ⟨hm₄, -⟩
      exact .inr ⟨rfl, hcopy.moves.trans (hm₃'.trans hm₄)⟩
    | true =>
    obtain ⟨hm₃, hentry⟩ := hyes rfl
    have hmall := hm₂.trans hm₃
    -- the parent did not move either
    obtain ⟨-, hkeptq₃⟩ := kept_of_moves hmall hgs.sole
    have hnext : PGSIZE * i + PGSIZE = PGSIZE * (i + 1) := (Nat.mul_succ _ _).symm
    simp only [if_true, hnext]
    refine ih (i + 1) s₃ ?_ (lt_pages_iff.mpr hlt) ⟨hcopy.moves.trans hmall, ?_, ?_⟩
    · rwa [Nat.add_right_comm, Nat.add_assoc]
    · intro m hmi
      have hv : m < VPAGES := by omega
      rcases eq_or_ne m i with rfl | hne
      · refine ⟨r, ?_, ?_⟩
        · rw [hentry, (hkeptq₃ m hv).entry_eq]
        · have hrw : s₂.word r = s₁.word (pageOf (entry s q m)) := word_fill_self _
          rw [hpage, hrw, hword, (hkeptq₃ m hv).entry_eq, (hkeptq₃ m hv).word_eq hiu hpi]
      refine (hcopy.copied m (by omega)).kept (by omega) ?_
        ((hentry₂ m hv).trans (hother m hv hne)) (hkeptq₃ m hv)
      rw [(hkeptq m hv).entry_eq]
      refine hpres m (lt_trans ?_ hlt)
      exact Nat.mul_lt_mul_of_pos_left (by omega) (by decide)
    · intro m hv hge
      rw [(hother m hv (by omega)).entry_eq, (hentry₂ m hv).entry_eq, hcopy.rest m hv (by omega)]
  next hge =>
  have heq : i = pages sz := by
    have := pages_le_iff.mpr (not_lt.mp hge)
    omega
  rw [← heq]
  exact .inl ⟨rfl, hcopy⟩

theorem wp_copyuvm (hsep : Separate M.kmap) (hsz : sz ≤ KERNBASE) (hg : Good M s (space s q))
    (hpres : ∀ m, PGSIZE * m < sz → Present (entry s q m)) :
    wp (copyuvm M q sz) (fun r s' => (r = 0 ∧ heap.Moves s 0 s' 0) ∨
      (r ≠ 0 ∧ Copying M s s' q r (pages sz))) E s := by
  have hg₀ : Good M s 0 := hg.toZero
  unfold copyuvm
  rw [wp_bind]
  refine (wp_setupkvm hsep hg₀).imp ?_
  rintro d s₁ ⟨⟨rfl, hm⟩ | ⟨hd, hm, -, hkernel⟩, -⟩
  · rw [wp_ite, if_pos rfl]
    exact .inl ⟨rfl, hm⟩
  rw [wp_ite, if_neg hd, wp_bind]
  refine (wp_copyLoop hsz hg hpres _ 0 s₁ ?_ (Nat.zero_le _)
    ⟨hm, nofun, fun m hv _ => hkernel m hv⟩).imp ?_
  · unfold PGSIZE
    omega
  rintro ok s₂ (⟨rfl, hcopy⟩ | ⟨rfl, hm₂⟩)
  · exact .inr ⟨hd, hcopy⟩
  simp only [Bool.false_eq_true, if_false, wp_bind]
  refine (wp_freevm (hg₀.moves hm₂)).imp ?_
  rintro - s₃ hm₃
  exact .inl ⟨rfl, hm₂.trans hm₃⟩

/-! ### The copy and the parent -/

theorem perm_of_moves (h : heap.Moves s 0 s' 0) : s'.freelist.Perm s.freelist :=
  List.perm_iff_count.mpr fun x => h.conserve x

/-- `d` is a copy of `q` below `sz`, on pages of its own, with the kernel's mappings. -/
structure Clone (M : Machine) (s s' : Mem) (q d sz : ℕ) : Prop where
  same : ∀ m, PGSIZE * m < PGROUNDUP sz → Present (entry s' d m) ∧
    flagsOf (entry s' d m) = flagsOf (entry s q m) ∧
    s'.word (pageOf (entry s' d m)) = s.word (pageOf (entry s q m))
  own : ∀ m, PGSIZE * m < PGROUNDUP sz → space s q (pageOf (entry s' d m)) = 0
  rest : ∀ m < USERPAGES, ¬ PGSIZE * m < PGROUNDUP sz → ¬ Present (entry s' d m)
  kernel : ∀ m < VPAGES, USERPAGES ≤ m → entry s' d m = kernelEntry M.kmap 0 m

theorem Copying.clone (h : Copying M s s' q d (pages sz)) (hsz : sz ≤ KERNBASE)
    (hg : Good M s (space s q)) (hpres : ∀ m, PGSIZE * m < sz → Present (entry s q m)) :
    Clone M s s' q d sz := by
  obtain ⟨hspace, hkept⟩ := h.parent hg.sole
  have hbelow := pages_le_USERPAGES hsz
  have hcopied : ∀ m < pages sz, Present (entry s' d m) ∧
      flagsOf (entry s' d m) = flagsOf (entry s q m) ∧
      s'.word (pageOf (entry s' d m)) = s.word (pageOf (entry s q m)) := by
    intro m hm
    have hk := hkept m (by have := USERPAGES_le; omega)
    have hp := hpres m (lt_pages_iff.mp hm)
    obtain ⟨p, hentry, hword⟩ := h.copied m hm
    rw [hk.entry_eq] at hentry hword
    rw [hentry, flagsOf_mkEntry hp, pageOf_mkEntry (flagsOf_lt _), hword, hk.word_eq (by omega) hp]
    exact ⟨present_mkEntry, rfl, rfl⟩
  refine ⟨fun m hm => ?_, fun m hm => ?_, fun m hu hm => ?_, fun m hv hu => ?_⟩
  · rw [lt_PGROUNDUP_iff hsz] at hm
    exact hcopied m hm
  · rw [lt_PGROUNDUP_iff hsz] at hm
    have hown := space_page_ne_zero (by omega) (hcopied m hm).1
    have hone := (h.sole hg).sole (pageOf (entry s' d m))
    rw [Pi.add_apply, hspace] at hone
    omega
  · rw [lt_PGROUNDUP_iff hsz, not_lt] at hm
    rw [h.rest m (lt_of_lt_of_le hu USERPAGES_le) hm, kernelEntry_user _ hu]
    exact not_present_zero
  · exact h.rest m hv (by omega)

/-- **`copyuvm` clones an address space**, or gives back what it took; either way the parent's
tables and pages are as before. The run is from any memory, so `kalloc` may fail anywhere. The
directory shares no page with itself, and its pages can be freed. -/
theorem copyuvm_clones (hsep : Separate M.kmap) (hsz : sz ≤ KERNBASE) (hg : Good M s (space s q))
    (hpres : ∀ m, PGSIZE * m < PGROUNDUP sz → Present (entry s q m)) :
    ∃ r s', copyuvm M q sz s = .ok (r, s') ∧ (∀ x, space s q x ≠ 0 → s'.word x = s.word x) ∧
      ((r = 0 ∧ s'.freelist.Perm s.freelist) ∨ (r ≠ 0 ∧ Clone M s s' q r sz)) := by
  have hpres : ∀ m, PGSIZE * m < sz → Present (entry s q m) := fun m hm =>
    hpres m ((lt_PGROUNDUP_iff hsz).mpr (lt_pages_iff.mpr hm))
  obtain ⟨r, s', hrun, hres⟩ := wp_ok.mp (wp_copyuvm hsep hsz hg hpres)
  have hsole : heap.Sole s (0 + space s q) := by
    rw [zero_add]
    exact hg.sole
  refine ⟨r, s', hrun, ?_⟩
  rcases hres with ⟨hr, hm⟩ | ⟨hr, hcopy⟩
  · exact ⟨fun x hx => hm.content_eq hsole hx, .inl ⟨hr, perm_of_moves hm⟩⟩
  · exact ⟨fun x hx => hcopy.moves.content_eq hsole hx, .inr ⟨hr, hcopy.clone hsz hg hpres⟩⟩

/-- With eight free pages, the process with one page is cloned. -/
theorem copyuvm_onePage : ∃ r s', copyuvm bareMachine 1 4096 (stocked eightPages) = .ok (r, s') ∧
    (∀ x, space (stocked eightPages) 1 x ≠ 0 → s'.word x = onePage.word x) ∧ r ≠ 0 ∧
      Clone bareMachine (stocked eightPages) s' 1 r 4096 := by
  have hround : PGROUNDUP 4096 = 4096 := by decide
  obtain ⟨r, s', hrun, hkept, hres⟩ := copyuvm_clones separate_bareMachine (by decide)
    image_stocked.good fun m hm => (image_stocked.mapped m (by
      rw [hround] at hm
      unfold PGSIZE at hm
      unfold USERPAGES
      omega)).mpr hm
  have hr : ((copyuvm bareMachine 1 4096 (stocked eightPages)).toOption.map fun x =>
      decide (x.1 = 0)) = some false := by decide +kernel
  rw [hrun] at hr
  have hne : r ≠ 0 := of_decide_eq_false (Option.some.inj hr)
  exact ⟨r, s', hrun, hkept, hres.resolve_left fun h => hne h.1⟩

end Xv6.Vm
