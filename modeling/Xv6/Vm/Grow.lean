import Xv6.Vm.Setup

/-!
# Growing and shrinking a process

`allocuvm` and `growproc`. An `allocuvm` that runs out of memory takes back what it has mapped, so
the space is as before; otherwise the new pages are mapped for user code and hold zeros.

`growproc` takes the size that `deallocuvm` returns for an error when it is zero, and adds a
negative number to an unsigned size. So a process that gives back exactly its size is told that this
failed, after its pages have been freed; and one that gives back more than its size is told that it
worked, when nothing happened.
-/

namespace Xv6.Vm

open Footprint Tally Hoare

variable {M : Machine} {s s' s₀ : Mem} {d n p m lo i : ℕ} {E : Panic → Prop}

/-! ### `allocuvm` -/

/-- Virtual page `m` is a page of zeros, mapped for user code. -/
def Zeroed (s : Mem) (d m : ℕ) : Prop :=
  ∃ p, entry s d m = mkEntry p (PTE_W + PTE_U) ∧ s.word p = fun _ => 0

theorem Zeroed.present (h : Zeroed s d m) : Present (entry s d m) := by
  obtain ⟨p, hp, -⟩ := h
  rw [hp]
  exact present_mkEntry

theorem Zeroed.kept (h : Zeroed s d m) (hm : m < USERPAGES) (hk : Kept s s' d m) :
    Zeroed s' d m := by
  have hpres := h.present
  obtain ⟨p, hp, hzero⟩ := h
  refine ⟨p, hk.entry_eq.trans hp, ?_⟩
  have hword := hk.word_eq hm hpres
  rw [hp, pageOf_mkEntry (by decide)] at hword
  rw [hword, hzero]

/-- From `s₀` to `s`, the virtual pages from `lo` to `i` were added to a space. -/
structure Grown (s₀ s : Mem) (d lo i : ℕ) : Prop where
  moves : heap.Moves s₀ (space s₀ d) s (space s d)
  kept : ∀ m < VPAGES, ¬ (lo ≤ m ∧ m < i) → Kept s₀ s d m
  zeroed : ∀ m, lo ≤ m → m < i → Zeroed s d m

theorem Grown.refl (s : Mem) (d lo : ℕ) : Grown s s d lo lo :=
  ⟨.refl _ _, fun _ _ _ => .refl _ _ _, fun m hlo hlt => by omega⟩

/-- From `s₀` to `s`, nothing changed but the tables, and entries that are not present. -/
structure Restored (s₀ s : Mem) (d lo i : ℕ) : Prop where
  moves : heap.Moves s₀ (space s₀ d) s (space s d)
  kept : ∀ m < VPAGES, ¬ (lo ≤ m ∧ m < i) → Kept s₀ s d m
  absent : ∀ m, lo ≤ m → m < i → ¬ Present (entry s d m)

/-- The number of pages of `sz` bytes. -/
def pages (sz : ℕ) : ℕ := (sz + 4095) / 4096

theorem lt_pages_iff {sz : ℕ} : m < pages sz ↔ PGSIZE * m < sz := by
  unfold pages PGSIZE
  omega

theorem pages_le_USERPAGES {sz : ℕ} (h : sz ≤ KERNBASE) : pages sz ≤ USERPAGES := by
  unfold KERNBASE at h
  unfold pages USERPAGES
  omega

theorem pages_le_iff {sz : ℕ} : pages sz ≤ m ↔ sz ≤ PGSIZE * m := by
  unfold pages PGSIZE
  omega

theorem wp_takeBack {oldsz newsz : ℕ} (hlt : oldsz < newsz) (hnew : newsz < KERNBASE)
    (hg : Good M s₀ (space s₀ d)) (hgrown : Grown s₀ s d (pages oldsz) i) (hi : i ≤ pages newsz) :
    wp (deallocuvm M d newsz oldsz) (fun _ s' => Restored s₀ s' d (pages oldsz) (pages newsz))
      E s := by
  refine (wp_deallocuvm hnew.le hlt (hg.moves hgrown.moves)).imp ?_
  rintro - s' ⟨-, hm, hkept, hgone⟩
  refine ⟨hgrown.moves.trans hm, fun m hv hnot => ?_, fun m hlo hhi => ?_⟩
  · refine (hgrown.kept m hv fun hc => hnot ⟨hc.1, by omega⟩).trans (hkept m hv fun hc => ?_)
    exact hnot ⟨pages_le_iff.mpr hc.1, lt_pages_iff.mpr hc.2⟩
  · exact hgone m (pages_le_iff.mp hlo) (lt_pages_iff.mp hhi)

theorem Grown.fill (h : Grown s₀ s d lo i) (hi : i ≤ USERPAGES) {s₁ : Mem} {r : ℕ}
    (hword : s₁.word = s.word) (hr : space s d r = 0) (f : ℕ → ℕ) :
    (∀ m < VPAGES, ¬ (lo ≤ m ∧ m < i) → Kept s₀ (s₁.fill r f) d m) ∧
      (∀ m, lo ≤ m → m < i → Zeroed (s₁.fill r f) d m) ∧ space (s₁.fill r f) d = space s d := by
  have hspace := space_of_word_eq hword d
  have hr₁ : space s₁ d r = 0 := (congrFun hspace r).trans hr
  obtain ⟨hfill, hkept⟩ := kept_fill hr₁ f
  have hstep : ∀ m < VPAGES, Kept s (s₁.fill r f) d m := fun m hm =>
    (kept_of_word_eq hword d m).trans (hkept m hm)
  refine ⟨fun m hv hnot => (h.kept m hv hnot).trans (hstep m hv), fun m hlo hlt => ?_, ?_⟩
  · have hu : m < USERPAGES := lt_of_lt_of_le hlt hi
    exact (h.zeroed m hlo hlt).kept hu (hstep m (lt_of_lt_of_le hu USERPAGES_le))
  · rw [hfill, hspace]

theorem wp_allocLoop {oldsz newsz : ℕ} (hnew : newsz < KERNBASE) (hg : Good M s₀ (space s₀ d))
    (habs : ∀ m, oldsz ≤ PGSIZE * m → PGSIZE * m < newsz → ¬ Present (entry s₀ d m)) :
    ∀ (fuel i : ℕ) (s : Mem), newsz < PGSIZE * (i + fuel) → pages oldsz ≤ i →
      i ≤ pages newsz → Grown s₀ s d (pages oldsz) i →
      wp (allocLoop M d oldsz newsz fuel (PGSIZE * i)) (fun r s' =>
        (r = newsz ∧ Grown s₀ s' d (pages oldsz) (pages newsz)) ∨
        (r = 0 ∧ Restored s₀ s' d (pages oldsz) (pages newsz))) E s := by
  intro fuel
  induction fuel with
  | zero =>
    intro i s hfuel _ hi hgrown
    have heq : i = pages newsz := by
      have := pages_le_iff.mpr (hfuel.le.trans_eq (by rw [Nat.add_zero]))
      omega
    rw [← heq]
    exact .inl ⟨rfl, hgrown⟩
  | succ fuel ih =>
  intro i s hfuel hlo hi hgrown
  rw [allocLoop]
  split
  · next hlt =>
    have hsz : oldsz < newsz := lt_of_le_of_lt (pages_le_iff.mp hlo) hlt
    have hiu := lt_USERPAGES hnew.le hlt
    have hvi : i < VPAGES := lt_of_lt_of_le hiu USERPAGES_le
    have hgs := hg.moves hgrown.moves
    rw [wp_bind]
    refine (wp_kalloc hgs.toTidy).imp ?_
    rintro r s₁ ⟨hword, ⟨rfl, hm⟩ | ⟨hr, hm⟩, -⟩
    · -- no page
      rw [wp_ite, if_pos rfl, wp_bind]
      have hspace := space_of_word_eq hword d
      have hgrown₁ : Grown s₀ s₁ d (pages oldsz) i := by
        refine ⟨hgrown.moves.trans ?_, fun m hv hnot => (hgrown.kept m hv hnot).trans
          (kept_of_word_eq hword d m), fun m hl hh => (hgrown.zeroed m hl hh).kept (by omega)
          (kept_of_word_eq hword d m)⟩
        rw [hspace]
        exact hm
      refine (wp_takeBack hsz hnew hg hgrown₁ hi).imp ?_
      rintro - s' hrest
      exact .inr ⟨rfl, hrest⟩
    rw [wp_ite, if_neg hr, wp_bind, wp_fill, wp_bind]
    have hnot : space s d r = 0 := (hgs.toTidy.moves hm).not_both
    obtain ⟨hkept₂, hzero₂, hspace₂⟩ := hgrown.fill hiu.le hword hnot fun _ => 0
    set s₂ := s₁.fill r fun _ => 0
    have hm₂ : heap.Moves s (space s d) s₂ (space s₂ d + only r) := by
      rw [hspace₂]
      exact moves_fill_taken hm _
    have hg₂ : Good M s₂ (space s₂ d + only r) := hgs.moves hm₂
    have habs₂ : ¬ Present (entry s₂ d i) := by
      rw [(hkept₂ i hvi (by omega)).entry_eq]
      exact habs i (pages_le_iff.mp hlo) hlt
    refine (wp_mappages_page hiu (by decide) hg₂.toTidy habs₂).imp ?_
    rintro ok s₃ ⟨hpage, hother, hyes, hno⟩
    have hzero : s₂.word r = fun _ => 0 := word_fill_self _
    -- the space alone, as far as entries and pages go
    have hgrown₃ : ∀ m < VPAGES, m ≠ i → ¬ (pages oldsz ≤ m ∧ m < i) → Kept s₀ s₃ d m :=
      fun m hv hne hnot => (hkept₂ m hv hnot).trans (hother m hv hne)
    have hzero₃ : ∀ m, pages oldsz ≤ m → m < i → Zeroed s₃ d m := fun m hl hh =>
      (hzero₂ m hl hh).kept (by omega) (hother m (by omega) (by omega))
    cases ok with
    | true =>
      obtain ⟨hm₃, hentry⟩ := hyes rfl
      have hnext : PGSIZE * i + PGSIZE = PGSIZE * (i + 1) := (Nat.mul_succ _ _).symm
      simp only [if_true, hnext]
      refine ih (i + 1) s₃ ?_ (by omega) (lt_pages_iff.mpr hlt) ?_
      · rwa [Nat.add_right_comm, Nat.add_assoc]
      refine ⟨hgrown.moves.trans (hm₂.trans hm₃), fun m hv hnot => ?_, fun m hl hh => ?_⟩
      · exact hgrown₃ m hv (fun heq => hnot ⟨by omega, by omega⟩) fun hc =>
          hnot ⟨hc.1, by omega⟩
      · rcases eq_or_ne m i with rfl | hne
        · exact ⟨r, hentry, hpage.trans hzero⟩
        · exact hzero₃ m hl (by omega)
    | false =>
    obtain ⟨hm₃, hkepti⟩ := hno rfl
    simp only [Bool.false_eq_true, if_false, wp_bind]
    -- the page is still in `mem`
    have hm₃' : heap.Moves s₀ (space s₀ d) s₃ (space s₃ d + only r) :=
      hgrown.moves.trans (hm₂.trans (hm₃.add _))
    refine (wp_deallocuvm hnew.le hsz (hg.moves hm₃').left).imp ?_
    rintro - s₄ ⟨-, hm₄, hkept₄, hgone₄⟩
    rw [wp_bind]
    have hm₄' := hm₃'.trans (hm₄.add _)
    refine (wp_kfree_page (hg.moves hm₄')).imp ?_
    rintro - s₅ ⟨hm₅, hkept₅⟩
    refine .inr ⟨rfl, hm₄'.trans hm₅, fun m hv hnot => ?_, fun m hl hh => ?_⟩
    · have hne : m ≠ i := fun heq => hnot ⟨by omega, heq ▸ lt_pages_iff.mpr hlt⟩
      refine ((hgrown₃ m hv hne fun hc => hnot ⟨hc.1, by omega⟩).trans
        (hkept₄ m hv fun hc => ?_)).trans (hkept₅ m hv)
      exact hnot ⟨pages_le_iff.mpr hc.1, lt_pages_iff.mpr hc.2⟩
    have hv : m < VPAGES := by
      have := lt_pages_iff.mp hh
      unfold PGSIZE at this
      unfold KERNBASE at hnew
      unfold VPAGES
      omega
    rw [(hkept₅ m hv).entry_eq]
    exact hgone₄ m (pages_le_iff.mp hl) (lt_pages_iff.mp hh)
  next hge =>
  have heq : i = pages newsz := by
    have := pages_le_iff.mpr (not_lt.mp hge)
    omega
  rw [← heq]
  exact .inl ⟨rfl, hgrown⟩

theorem wp_allocuvm {oldsz newsz : ℕ} (hle : oldsz ≤ newsz) (hnew : newsz < KERNBASE)
    (hg : Good M s (space s d))
    (habs : ∀ m, oldsz ≤ PGSIZE * m → PGSIZE * m < newsz → ¬ Present (entry s d m)) :
    wp (allocuvm M d oldsz newsz) (fun r s' =>
      (r = newsz ∧ Grown s s' d (pages oldsz) (pages newsz)) ∨
      (r = 0 ∧ Restored s s' d (pages oldsz) (pages newsz))) E s := by
  unfold allocuvm
  rw [wp_ite, if_neg (by omega), wp_ite, if_neg (by omega), PGROUNDUP_eq (by omega)]
  have hpages : pages oldsz ≤ pages newsz := Nat.div_le_div_right (by omega)
  refine wp_allocLoop hnew hg habs _ _ s ?_ (le_refl _) hpages (.refl _ _ _)
  unfold PGSIZE
  omega

/-! ### `growproc` -/

/-- The fields of `struct proc` that `growproc` and `exec` use. -/
structure Proc where
  pgdir : ℕ
  sz : ℕ
  /-- `tf->eip` -/
  eip : ℕ
  /-- `tf->esp` -/
  esp : ℕ
  name : List UInt8
  deriving DecidableEq

/-- `sz + n`, for an unsigned `sz` and a signed `n`. -/
def addSigned (sz : ℕ) (n : ℤ) : ℕ := ((sz + n) % 2 ^ 32).toNat

/-- Grow the current process's memory by `n` bytes: `true` for 0, `false` for -1. -/
def growproc (M : Machine) (p : Proc) (n : ℤ) : VmM (Bool × Proc) := do
  if n > 0 then do
    let sz ← allocuvm M p.pgdir p.sz (addSigned p.sz n)
    if sz = 0 then return (false, p) else return (true, { p with sz := sz })
  else if n < 0 then do
    let sz ← deallocuvm M p.pgdir p.sz (addSigned p.sz n)
    if sz = 0 then return (false, p) else return (true, { p with sz := sz })
  else return (true, p)

/-- The pages below the size are mapped, and no others below `KERNBASE`. -/
structure Image (M : Machine) (s : Mem) (d sz : ℕ) : Prop where
  good : Good M s (space s d)
  sz_lt : sz < KERNBASE
  mapped : ∀ m < USERPAGES, Present (entry s d m) ↔ PGSIZE * m < PGROUNDUP sz

theorem lt_PGROUNDUP_iff {sz : ℕ} (h : sz ≤ KERNBASE) :
    PGSIZE * m < PGROUNDUP sz ↔ m < pages sz := by
  rw [PGROUNDUP_eq h]
  exact Nat.mul_lt_mul_left (by decide)

/-- What a successful `growproc` should have done. -/
structure Resized (s s' : Mem) (p p' : Proc) (n : ℤ) : Prop where
  sz_eq : (p'.sz : ℤ) = p.sz + n
  mapped : ∀ m < USERPAGES, Present (entry s' p.pgdir m) ↔ PGSIZE * m < PGROUNDUP p'.sz
  kept : ∀ m < USERPAGES, PGSIZE * m < PGROUNDUP p.sz → PGSIZE * m < PGROUNDUP p'.sz →
    Kept s s' p.pgdir m
  zeroed : ∀ m < USERPAGES, ¬ PGSIZE * m < PGROUNDUP p.sz → PGSIZE * m < PGROUNDUP p'.sz →
    Zeroed s' p.pgdir m

/-- What a failed `growproc` should have left: the same pages, with the same contents. -/
structure Unchanged (s s' : Mem) (d : ℕ) : Prop where
  present_iff : ∀ m < USERPAGES, Present (entry s' d m) ↔ Present (entry s d m)
  kept : ∀ m < USERPAGES, Present (entry s d m) → Kept s s' d m

/-- `growproc` did what it says: all of it, or nothing. -/
def GrowExact (s : Mem) (p : Proc) (n : ℤ) (r : Bool × Proc) (s' : Mem) : Prop :=
  (r.1 = true → Resized s s' p r.2 n) ∧ (r.1 = false → r.2 = p ∧ Unchanged s s' p.pgdir)

section Exact

variable {q : Proc} {k : ℤ}

theorem Image.absent (h : Image M s d n) {m : ℕ} (hm : m < USERPAGES) (hge : pages n ≤ m) :
    ¬ Present (entry s d m) := by
  rw [h.mapped m hm, lt_PGROUNDUP_iff h.sz_lt.le]
  omega

theorem growproc_exact_of_pos (hq : Image M s q.pgdir q.sz) (hk : 0 < k) (hk' : k < 2 ^ 31) :
    wp (growproc M q k) (GrowExact s q k) E s := by
  have hsz := hq.sz_lt
  unfold KERNBASE at hsz
  have hsum : addSigned q.sz k = q.sz + k.toNat := by
    unfold addSigned
    omega
  unfold growproc
  rw [wp_ite, if_pos hk, wp_bind, hsum]
  by_cases hlt : q.sz + k.toNat < KERNBASE
  · have hpages : pages q.sz ≤ pages (q.sz + k.toNat) := Nat.div_le_div_right (by omega)
    have hbelow := pages_le_USERPAGES hlt.le
    refine (wp_allocuvm (by omega) hlt hq.good fun m hge hm => hq.absent
      (lt_of_lt_of_le (lt_pages_iff.mpr hm) hbelow) (pages_le_iff.mpr hge)).imp ?_
    rintro r s' (⟨rfl, hgrown⟩ | ⟨rfl, hrest⟩)
    · rw [wp_ite, if_neg (by omega)]
      refine ⟨fun _ => ⟨?_, fun m hm => ?_, fun m hm hold _ => ?_, fun m hm hold hnew => ?_⟩, nofun⟩
      · change ((q.sz + k.toNat : ℕ) : ℤ) = _
        omega
      · change _ ↔ PGSIZE * m < PGROUNDUP (q.sz + k.toNat)
        rw [lt_PGROUNDUP_iff hlt.le]
        by_cases hin : pages q.sz ≤ m ∧ m < pages (q.sz + k.toNat)
        · exact iff_of_true (hgrown.zeroed m hin.1 hin.2).present hin.2
        · rw [(hgrown.kept m (lt_of_lt_of_le hm USERPAGES_le) hin).entry_eq, hq.mapped m hm,
            lt_PGROUNDUP_iff hq.sz_lt.le]
          omega
      · rw [lt_PGROUNDUP_iff hq.sz_lt.le] at hold
        exact hgrown.kept m (lt_of_lt_of_le hm USERPAGES_le) (by omega)
      · change PGSIZE * m < PGROUNDUP (q.sz + k.toNat) at hnew
        rw [lt_PGROUNDUP_iff hq.sz_lt.le] at hold
        rw [lt_PGROUNDUP_iff hlt.le] at hnew
        exact hgrown.zeroed m (by omega) hnew
    · rw [wp_ite, if_pos rfl]
      refine ⟨nofun, fun _ => ⟨rfl, fun m hm => ?_, fun m hm hp => ?_⟩⟩
      · by_cases hin : pages q.sz ≤ m ∧ m < pages (q.sz + k.toNat)
        · exact iff_of_false (hrest.absent m hin.1 hin.2) (hq.absent hm hin.1)
        · rw [(hrest.kept m (lt_of_lt_of_le hm USERPAGES_le) hin).entry_eq]
      · refine hrest.kept m (lt_of_lt_of_le hm USERPAGES_le) fun hin => ?_
        exact hq.absent hm hin.1 hp
  · unfold allocuvm
    rw [wp_ite, if_pos (not_lt.mp hlt), wp_pure, wp_ite, if_pos rfl]
    exact ⟨nofun, fun _ => ⟨rfl, fun _ _ => Iff.rfl, fun _ _ _ => .refl _ _ _⟩⟩

theorem growproc_exact_of_nonneg (hq : Image M s q.pgdir q.sz) (hk : 0 ≤ k) (hk' : k < 2 ^ 31) :
    wp (growproc M q k) (GrowExact s q k) E s := by
  rcases eq_or_lt_of_le hk with rfl | hk
  · refine ⟨fun _ => ⟨(Int.add_zero _).symm, hq.mapped, fun _ _ _ _ => .refl _ _ _, ?_⟩, nofun⟩
    exact fun m _ hold hnew => absurd hnew hold
  · exact growproc_exact_of_pos hq hk hk'

theorem growproc_exact_of_neg (hq : Image M s q.pgdir q.sz) (hk : k < 0)
    (hpos : 0 < (q.sz : ℤ) + k) : wp (growproc M q k) (GrowExact s q k) E s := by
  have hsz := hq.sz_lt
  unfold KERNBASE at hsz
  have hsum : (addSigned q.sz k : ℤ) = q.sz + k := by
    unfold addSigned
    omega
  set new := addSigned q.sz k
  have hlt : new < q.sz := by omega
  have hnew : new ≤ KERNBASE := hlt.le.trans hq.sz_lt.le
  unfold growproc
  rw [wp_ite, if_neg (by omega), wp_ite, if_pos hk, wp_bind]
  refine (wp_deallocuvm hq.sz_lt.le hlt hq.good).imp ?_
  rintro r s' ⟨rfl, hm, hkept, hgone⟩
  rw [wp_ite, if_neg (by omega)]
  refine ⟨fun _ => ⟨hsum, fun m hm => ?_, fun m hm hold hnow => ?_, fun m hm hold hnow => ?_⟩,
    nofun⟩
  · change _ ↔ PGSIZE * m < PGROUNDUP new
    rw [lt_PGROUNDUP_iff hnew]
    by_cases hin : new ≤ PGSIZE * m ∧ PGSIZE * m < q.sz
    · have := pages_le_iff.mpr hin.1
      exact iff_of_false (hgone m hin.1 hin.2) (by omega)
    · rw [(hkept m (lt_of_lt_of_le hm USERPAGES_le) hin).entry_eq, hq.mapped m hm,
        lt_PGROUNDUP_iff hq.sz_lt.le, lt_pages_iff, lt_pages_iff]
      omega
  · change PGSIZE * m < PGROUNDUP new at hnow
    rw [lt_PGROUNDUP_iff hnew, lt_pages_iff] at hnow
    exact hkept m (lt_of_lt_of_le hm USERPAGES_le) (by omega)
  · change PGSIZE * m < PGROUNDUP new at hnow
    rw [lt_PGROUNDUP_iff hnew, lt_pages_iff] at hnow
    rw [lt_PGROUNDUP_iff hq.sz_lt.le, lt_pages_iff] at hold
    omega

/-- **`growproc` is exact and atomic, unless the size would become zero or less.** The run is from
any memory, so `kalloc` may fail anywhere. -/
theorem growproc_exact_iff (hq : Image M s q.pgdir q.sz) (hlo : -2 ^ 31 ≤ k) (hhi : k < 2 ^ 31) :
    wp (growproc M q k) (GrowExact s q k) (fun _ => False) s ↔
      0 ≤ k ∨ 0 < (q.sz : ℤ) + k ∨ q.sz = 0 := by
  have hsz := hq.sz_lt
  unfold KERNBASE at hsz
  constructor
  · intro h
    by_contra hcon
    push Not at hcon
    obtain ⟨hk, hsum, hne⟩ := hcon
    unfold growproc at h
    rw [wp_ite, if_neg (by omega), wp_ite, if_pos hk, wp_bind] at h
    rcases eq_or_lt_of_le hsum with hzero | hneg
    · -- the pages are freed, and zero is taken for an error
      have hnew : addSigned q.sz k = 0 := by
        unfold addSigned
        omega
      rw [hnew] at h
      have hspec := wp_deallocuvm (E := fun _ => False) hq.sz_lt.le (Nat.pos_of_ne_zero hne) hq.good
      obtain ⟨r, t, -, hrun, rfl, -, -, hgone⟩ :=
        wp_ok.mp ((h.and hspec).mono (fun _ _ h => h) fun _ h => h.1)
      rw [wp_ite, if_pos rfl, wp_pure] at hrun
      have hpos : 0 < pages q.sz := lt_pages_iff.mpr (by omega)
      have hpage : Present (entry s q.pgdir 0) := by
        rw [hq.mapped 0 (by decide), lt_PGROUNDUP_iff hq.sz_lt.le]
        exact hpos
      exact hgone 0 (le_refl _) (by omega) (((hrun.2 rfl).2.present_iff 0 (by decide)).mpr hpage)
    · -- the size wraps around, and nothing is done
      have hge : addSigned q.sz k ≥ q.sz := by
        unfold addSigned
        omega
      unfold deallocuvm at h
      rw [wp_ite, if_pos hge, wp_pure, wp_ite, if_neg hne] at h
      have heq : (q.sz : ℤ) = q.sz + k := (h.1 rfl).sz_eq
      omega
  · rintro h
    rcases le_or_gt 0 k with hk | hk
    · exact growproc_exact_of_nonneg hq hk hhi
    rcases h with h | hsum | hzero
    · omega
    · exact growproc_exact_of_neg hq hk hsum
    unfold growproc deallocuvm
    rw [wp_ite, if_neg (by omega), wp_ite, if_pos hk, wp_bind, wp_ite, if_pos (by omega),
      wp_pure, wp_ite, if_pos hzero]
    exact ⟨nofun, fun _ => ⟨rfl, fun _ _ => Iff.rfl, fun _ _ _ => .refl _ _ _⟩⟩

end Exact

/-! ### A process with one page -/

/-- Directory 1, page table 2, and the page 3 at address zero. -/
def onePage : Mem where
  freelist := []
  fails := []
  word x i := if i = 0 then
    if x = 1 then mkEntry 2 (PTE_W + PTE_U) else if x = 2 then mkEntry 3 (PTE_W + PTE_U) else 0
    else 0

def smallKernel : Machine := xv6 300 1 (by decide) (by decide) (by decide)

theorem entry_onePage (m : ℕ) :
    entry onePage 1 m = if m = 0 then mkEntry 3 (PTE_W + PTE_U) else 0 := by
  rcases eq_or_ne m 0 with rfl | hne
  · decide
  rw [if_neg hne, entry]
  by_cases hdiv : m / 1024 = 0
  · have hmod : m % 1024 ≠ 0 := by omega
    have hrow : ∀ x, onePage.word x (m % 1024) = 0 := fun x => if_neg hmod
    rw [hrow, ite_self]
  · have hrow : onePage.word 1 (m / 1024) = 0 := if_neg hdiv
    rw [hrow, if_neg not_present_zero]

theorem tally_single {N p : ℕ} (hN : 0 < N) {f : ℕ → ℕ} (h₀ : f 0 = mkEntry p (PTE_W + PTE_U))
    (h : ∀ i ≠ 0, f i = 0) (x : ℕ) : tally (Finset.range N) (hit x) f = only p x := by
  unfold tally
  rw [Finset.sum_eq_single 0, h₀, hit_mkEntry (by decide)]
  · intro i _ hi
    rw [h i hi, hit_of_not_present not_present_zero]
  · intro hc
    exact absurd (Finset.mem_range.mpr hN) hc

theorem space_onePage : space onePage 1 = fun x => only 1 x + only 2 x + only 3 x := by
  funext x
  have htables : tables onePage 1 x = only 2 x :=
    tally_single (by decide) rfl (fun i hi => if_neg hi) x
  have husers : users onePage 1 x = only 3 x := by
    refine tally_single (by decide) (entry_onePage 0) (fun i hi => ?_) x
    rw [entry_onePage, if_neg hi]
  rw [space, htables, husers]

theorem image_onePage : Image smallKernel onePage 1 4096 := by
  have hpages : ∀ x, space onePage 1 x = if x = 1 ∨ x = 2 ∨ x = 3 then 1 else 0 := by
    intro x
    rw [space_onePage]
    simp only [only]
    split_ifs <;> omega
  have hfree : ∀ x, heap.free onePage x = 0 := fun _ => rfl
  refine ⟨⟨⟨fun x => ?_, ?_⟩, fun x hx => ?_⟩, by decide, fun m hm => ?_⟩
  · rw [hfree, hpages]
    split <;> omega
  · rw [hfree, hpages, if_neg (by decide)]
  · rw [hfree, hpages] at hx
    have hmem : x = 1 ∨ x = 2 ∨ x = 3 := by
      by_contra hc
      rw [if_neg hc] at hx
      exact hx rfl
    refine ⟨?_, ?_⟩
    · change 1 ≤ x
      omega
    · change x < 0xE000
      omega
  · have hround : PGROUNDUP 4096 = 4096 := by decide
    rw [entry_onePage, hround]
    rcases eq_or_ne m 0 with rfl | hne
    · decide
    · rw [if_neg hne]
      unfold PGSIZE
      exact iff_of_false not_present_zero (by omega)

/-- A machine without kernel mappings. -/
def bareMachine : Machine := ⟨[], 1, 0xE000, Nat.one_pos⟩

theorem separate_bareMachine : Separate bareMachine.kmap := List.Pairwise.nil

/-- The process with one page, and free pages. -/
def stocked (l : List ℕ) : Mem := { onePage with freelist := l }

theorem good_stocked {l : List ℕ} (hl : l.Nodup) (hmem : ∀ x ∈ l, 10 ≤ x ∧ x < 18) :
    Good bareMachine (stocked l) (space (stocked l) 1) := by
  have hspace : space (stocked l) 1 = space onePage 1 := space_of_word_eq rfl 1
  have hone : ∀ x, heap.free (stocked l) x + space (stocked l) 1 x ≤ 1 ∧
      (heap.free (stocked l) x + space (stocked l) 1 x ≠ 0 → 1 ≤ x ∧ x < 18) := by
    intro x
    have hfree : heap.free (stocked l) x = l.count x := rfl
    have hcount := List.nodup_iff_count_le_one.mp hl x
    rw [hspace, space_onePage, hfree]
    simp only [only]
    by_cases hx : x ∈ l
    · have := hmem x hx
      split_ifs <;> omega
    · rw [List.count_eq_zero.mpr hx]
      split_ifs <;> omega
  refine ⟨⟨fun x => (hone x).1, ?_⟩, fun x hx => ?_⟩
  · by_contra hc
    have := (hone 0).2 hc
    omega
  · have := (hone x).2 hx
    exact ⟨this.1, this.2.trans (by decide)⟩

def eightPages : List ℕ := [10, 11, 12, 13, 14, 15, 16, 17]

theorem image_stocked : Image bareMachine (stocked eightPages) 1 4096 :=
  ⟨good_stocked (by decide) (by decide), by decide, image_onePage.mapped⟩

/-- Growing by one byte. -/
theorem growproc_onePage :
    ((growproc bareMachine ⟨1, 4096, 0, 0, []⟩ 1 (stocked eightPages)).toOption.map fun r =>
      (r.1.1, r.1.2.sz)) = some (true, 4097) ∧
    wp (growproc bareMachine ⟨1, 4096, 0, 0, []⟩ 1)
      (GrowExact (stocked eightPages) ⟨1, 4096, 0, 0, []⟩ 1) (fun _ => False)
      (stocked eightPages) :=
  ⟨by decide +kernel, (growproc_exact_iff (q := ⟨1, 4096, 0, 0, []⟩) image_stocked (by decide)
    (by decide)).mpr (.inl (by decide))⟩

/-- A process of one page that gives back 4096 bytes is told that this failed, without its page. -/
theorem growproc_all_not_exact : Image smallKernel onePage 1 4096 ∧
    ¬ wp (growproc smallKernel ⟨1, 4096, 0, 0, []⟩ (-4096))
      (GrowExact onePage ⟨1, 4096, 0, 0, []⟩ (-4096)) (fun _ => False) onePage := by
  refine ⟨image_onePage, fun h => ?_⟩
  have hrun := h.of_ok (a := (false, ⟨1, 4096, 0, 0, []⟩)) rfl
  have hpage := ((hrun.2 rfl).2.present_iff 0 (by decide)).mpr (by decide)
  revert hpage
  decide

end Xv6.Vm
