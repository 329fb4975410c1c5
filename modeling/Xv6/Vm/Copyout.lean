import Xv6.Vm.Grow

/-!
# Copying to user memory

`clearpteu`, `uva2ka` and `copyout`. `copyout` goes page by page. It stops at the first page that is
not there for user code, and reports an error, if there is a page table to say so: the source reads
the entry through the pointer that `walkpgdir` returned, and that pointer is null where the
directory has no page table.

The kernel's mappings reach up to the last page of the address space and are not for user code, so
`copyout` never runs over the end of it.
-/

namespace Xv6.Vm

open Footprint Tally Hoare List

variable {M : Machine} {s s' : Mem} {d n p m i a va : ℕ} {E : Panic → Prop}

/-! ### Bytes -/

theorem byteAt_ofBytes (b : ℕ → UInt8) (k : ℕ) : byteAt (ofBytes b) k = b k := by
  have h0 := (b (4 * (k / 4))).toNat_lt
  have h1 := (b (4 * (k / 4) + 1)).toNat_lt
  have h2 := (b (4 * (k / 4) + 2)).toNat_lt
  have h3 := (b (4 * (k / 4) + 3)).toNat_lt
  have hmod : k % 4 = 0 ∨ k % 4 = 1 ∨ k % 4 = 2 ∨ k % 4 = 3 := by omega
  apply UInt8.toNat_inj.mp
  rw [byteAt, ofBytes, UInt8.toNat_ofNat']
  rcases hmod with h | h | h | h
  · have hk : k = 4 * (k / 4) := by omega
    rw [h, ← hk]
    rw [← hk] at h0
    omega
  · have hk : k = 4 * (k / 4) + 1 := by omega
    rw [h, ← hk]
    rw [← hk] at h1
    omega
  · have hk : k = 4 * (k / 4) + 2 := by omega
    rw [h, ← hk]
    rw [← hk] at h2
    omega
  have hk : k = 4 * (k / 4) + 3 := by omega
  rw [h, ← hk]
  rw [← hk] at h3
  omega

theorem byteAt_overwrite (f : ℕ → ℕ) (off : ℕ) (bs : List UInt8) (k : ℕ) :
    byteAt (overwrite f off bs) k =
      if off ≤ k then bs[k - off]?.getD (byteAt f k) else byteAt f k :=
  byteAt_ofBytes _ k

theorem wp_memmove {off : ℕ} {bs : List UInt8} {Q : Unit → Mem → Prop} :
    wp (memmove p off bs) Q E s ↔ Q () (s.fill p (overwrite (s.word p) off bs)) := Iff.rfl

/-- The byte at address `a`. -/
def ubyte (s : Mem) (d a : ℕ) : UInt8 :=
  byteAt (s.word (pageOf (entry s d (a / PGSIZE)))) (a % PGSIZE)

theorem Kept.ubyte_eq (h : Kept s s' d (a / PGSIZE)) (hu : a / PGSIZE < USERPAGES)
    (hp : Present (entry s d (a / PGSIZE))) : ubyte s' d a = ubyte s d a := by
  unfold ubyte
  rw [h.entry_eq, h.word_eq hu hp]

/-! ### Writing to a page of the space -/

def Mapped (s : Mem) (d n : ℕ) : Prop := Present (entry s d n) ∧ IsUser (entry s d n)

instance (s : Mem) (d n : ℕ) : Decidable (Mapped s d n) := inferInstanceAs (Decidable (_ ∧ _))

/-- Bytes are stored to the page behind entry `n`. -/
structure Stored (s s' : Mem) (d n : ℕ) (f : ℕ → ℕ) : Prop where
  freelist_eq : s'.freelist = s.freelist
  space_eq : space s' d = space s d
  entry_eq : ∀ m < VPAGES, entry s' d m = entry s d m
  dir_eq : s'.word d = s.word d
  word_eq : s'.word (pageOf (entry s d n)) = f
  other : ∀ x, x ≠ pageOf (entry s d n) → s'.word x = s.word x

theorem stored_fill (hs : ∀ x, space s d x ≤ 1) (hn : n < USERPAGES)
    (hp : Present (entry s d n)) (f : ℕ → ℕ) :
    Stored s (s.fill (pageOf (entry s d n)) f) d n f := by
  have hnot := not_isTable_of_entry hs hn hp
  obtain ⟨hspace, hentry⟩ := space_fill hnot f
  refine ⟨rfl, hspace, hentry, word_fill_of_ne f fun heq => hnot (.inl heq.symm),
    word_fill_self f, fun x hx => word_fill_of_ne f hx⟩

theorem Stored.moves {f : ℕ → ℕ} (h : Stored s s' d n f) (hn : n < USERPAGES)
    (hp : Present (entry s d n)) : heap.Moves s (space s d) s' (space s' d) := by
  rw [h.space_eq]
  refine ⟨fun x => by rw [free_eq, free_eq, h.freelist_eq], fun x hx => h.other x ?_⟩
  rintro rfl
  have := space_page_ne_zero hn hp
  omega

theorem Stored.kept {f : ℕ → ℕ} (h : Stored s s' d n f) (hs : ∀ x, space s d x ≤ 1)
    (hn : n < USERPAGES) (hp : Present (entry s d n)) (hm : m < VPAGES) (hne : m ≠ n) :
    Kept s s' d m := by
  refine ⟨h.entry_eq m hm, fun hu hpm => h.other _ fun heq => hne ?_⟩
  exact entry_inj hs hu hn hpm hp heq

/-! ### `clearpteu` -/

theorem present_clearUser {w : ℕ} : Present (clearUser w) ↔ Present w := by
  unfold Present clearUser
  omega

theorem pageOf_clearUser (w : ℕ) : pageOf (clearUser w) = pageOf w := by
  unfold pageOf clearUser
  omega

theorem not_user_clearUser (w : ℕ) : ¬ IsUser (clearUser w) := by
  unfold IsUser clearUser
  omega

theorem clearUser_of_not_user {w : ℕ} (h : ¬ IsUser w) : clearUser w = w := by
  unfold IsUser at h
  unfold clearUser
  omega

theorem hit_clearUser (x w : ℕ) : hit x (clearUser w) = hit x w := by
  unfold hit
  rw [pageOf_clearUser]
  simp only [present_clearUser]

theorem wp_clearpteu (hva : va < 2 ^ 32) (hg : Good M s (space s d))
    (habs : ¬ Present (s.word d (va / PGSIZE / 1024)) → E .clearpteu) :
    wp (clearpteu d va) (fun _ s' => heap.Moves s (space s d) s' (space s' d) ∧
      (∀ m < VPAGES, m ≠ va / PGSIZE → Kept s s' d m) ∧
      entry s' d (va / PGSIZE) = clearUser (entry s d (va / PGSIZE)) ∧
      ∀ x, ¬ IsTable s d x → s'.word x = s.word x) E s := by
  have hvn := vpage_lt hva
  unfold clearpteu
  rw [wp_bind]
  refine wp_walkpgdir hva (fun h => habs h) fun t j hat => ?_
  dsimp only
  rw [wp_bind, wp_load, wp_store, hat.word_eq]
  set n := va / PGSIZE
  obtain ⟨hother, hentry, hpages⟩ := kept_setEntry hg.le_one hvn hat (clearUser (entry s d n))
  have hspace : space (s.store t j (clearUser (entry s d n))) d = space s d := by
    by_cases hn : n < USERPAGES
    · funext x
      have hstep := space_setEntry hg.le_one hn hat.present (clearUser (entry s d n)) x
      rw [← hat.table, ← hat.index, hit_clearUser] at hstep
      exact Nat.add_right_cancel hstep
    · rw [hat.table, hat.index]
      exact space_setEntry_kernel hg.le_one hvn (not_lt.mp hn) hat.present _
  refine ⟨?_, hother, hentry, hpages⟩
  rw [hspace]
  exact moves_setEntry hvn hat _

/-! ### `copyout` -/

def KernelHidden (s : Mem) (d : ℕ) : Prop := ∀ m < VPAGES, Mapped s d m → m < USERPAGES

/-- Page `j` has a byte of `[va, va + len)`. -/
def Overlaps (va len j : ℕ) : Prop := ∃ a, va ≤ a ∧ a < va + len ∧ a / PGSIZE = j

/-- The bytes from `va` on became those of `buf`, and nothing else changed. -/
structure CopiedOut (s s' : Mem) (d va : ℕ) (buf : List UInt8) : Prop where
  freelist_eq : s'.freelist = s.freelist
  space_eq : space s' d = space s d
  entry_eq : ∀ m < VPAGES, entry s' d m = entry s d m
  dir_eq : s'.word d = s.word d
  ubyte_eq : ∀ a, a / PGSIZE < USERPAGES → Present (entry s d (a / PGSIZE)) → ubyte s' d a =
    if va ≤ a then buf[a - va]?.getD (ubyte s d a) else ubyte s d a
  other : ∀ x, (∀ j < VPAGES, Overlaps va buf.length j → x ≠ pageOf (entry s d j)) →
    s'.word x = s.word x

/-- Page `j` is the first one that user code may not use. -/
structure Stops (s : Mem) (d va len j : ℕ) : Prop where
  lt : j < VPAGES
  overlaps : Overlaps va len j
  before : ∀ i < j, Overlaps va len i → Mapped s d i
  not_mapped : ¬ Mapped s d j

theorem overlaps_first {len : ℕ} (h : 0 < len) : Overlaps va len (va / PGSIZE) :=
  ⟨va, le_refl _, by omega, rfl⟩

theorem Overlaps.le {len j : ℕ} (h : Overlaps va len j) : va / PGSIZE ≤ j := by
  obtain ⟨a, hle, -, rfl⟩ := h
  exact Nat.div_le_div_right hle

theorem wp_uva2ka (hva : va < 2 ^ 32) {Q : Option ℕ → Mem → Prop}
    (hnone : ¬ Present (s.word d (va / PGSIZE / 1024)) → E .nullPointer)
    (hno : Present (s.word d (va / PGSIZE / 1024)) → ¬ Mapped s d (va / PGSIZE) → Q none s)
    (hyes : Mapped s d (va / PGSIZE) → Q (some (pageOf (entry s d (va / PGSIZE)))) s) :
    wp (uva2ka d va) Q E s := by
  unfold uva2ka
  rw [wp_bind]
  refine wp_walkpgdir hva (fun h => hnone h) fun t j hat => ?_
  dsimp only
  rw [wp_bind, wp_load, hat.word_eq, wp_ite]
  split
  · next h => exact hyes h
  · next h => exact hno hat.present h

def chunk (va len : ℕ) : ℕ := min (PGSIZE - va % PGSIZE) len

theorem overlaps_iff {len j : ℕ} (h : 0 < len) : Overlaps va len j ↔
    j = va / PGSIZE ∨ Overlaps (PGSIZE * (va / PGSIZE + 1)) (len - chunk va len) j := by
  constructor
  · rintro ⟨a, hle, hlt, rfl⟩
    by_cases hsame : a / PGSIZE = va / PGSIZE
    · exact .inl hsame
    refine .inr ⟨a, ?_, ?_, rfl⟩
    · unfold PGSIZE at *
      omega
    · unfold chunk
      unfold PGSIZE at *
      omega
  · rintro (rfl | ⟨a, hle, hlt, rfl⟩)
    · exact overlaps_first h
    refine ⟨a, ?_, ?_, rfl⟩
    all_goals
      unfold chunk at hlt
      unfold PGSIZE at *
      omega

theorem Mapped.of_entry_eq (h : Mapped s d n) (he : entry s' d n = entry s d n) :
    Mapped s' d n := by
  unfold Mapped
  rw [he]
  exact h

theorem CopiedOut.cons {s₁ : Mem} {buf : List UInt8} (hs : ∀ x, space s d x ≤ 1)
    (hu : va / PGSIZE < USERPAGES) (hp : Present (entry s d (va / PGSIZE)))
    (hfirst : Stored s s₁ d (va / PGSIZE) (overwrite (s.word (pageOf (entry s d (va / PGSIZE))))
      (va % PGSIZE) (buf.take (chunk va buf.length)))) (hpos : 0 < buf.length)
    (hrest : CopiedOut s₁ s' d (PGSIZE * (va / PGSIZE + 1)) (buf.drop (chunk va buf.length))) :
    CopiedOut s s' d va buf := by
  refine ⟨hrest.freelist_eq.trans hfirst.freelist_eq, hrest.space_eq.trans hfirst.space_eq,
    fun m hm => (hrest.entry_eq m hm).trans (hfirst.entry_eq m hm),
    hrest.dir_eq.trans hfirst.dir_eq, fun a ha hpa => ?_, fun x hx => ?_⟩
  · have hva : a / PGSIZE < VPAGES := lt_of_lt_of_le ha USERPAGES_le
    have hlen : (buf.drop (chunk va buf.length)).length = buf.length - chunk va buf.length :=
      length_drop
    rw [hrest.ubyte_eq a ha (by rwa [hfirst.entry_eq _ hva])]
    by_cases hsame : a / PGSIZE = va / PGSIZE
    · have hbyte : ubyte s₁ d a = if va % PGSIZE ≤ a % PGSIZE then
          (buf.take (chunk va buf.length))[a % PGSIZE - va % PGSIZE]?.getD (ubyte s d a)
          else ubyte s d a := by
        unfold ubyte
        rw [hfirst.entry_eq _ hva, hsame, hfirst.word_eq, byteAt_overwrite]
      have hnot : ¬ PGSIZE * (va / PGSIZE + 1) ≤ a := by
        unfold PGSIZE at *
        omega
      rw [if_neg hnot, hbyte]
      by_cases hle : va ≤ a
      · have hoff : a % PGSIZE - va % PGSIZE = a - va := by
          unfold PGSIZE at *
          omega
        have hmod : va % PGSIZE ≤ a % PGSIZE := by
          unfold PGSIZE at *
          omega
        rw [if_pos hmod, if_pos hle, hoff, getElem?_take]
        split
        · rfl
        next hge =>
        have hout : buf.length ≤ a - va := by
          unfold chunk at hge
          unfold PGSIZE at *
          omega
        rw [getElem?_eq_none hout]
      · have hmod : ¬ va % PGSIZE ≤ a % PGSIZE := by
          unfold PGSIZE at *
          omega
        rw [if_neg hmod, if_neg hle]
    · have hkept := hfirst.kept hs hu hp hva hsame
      rw [hkept.ubyte_eq ha hpa]
      by_cases hle : va ≤ a
      · have hnext : PGSIZE * (va / PGSIZE + 1) ≤ a := by
          unfold PGSIZE at *
          omega
        rw [if_pos hnext, if_pos hle, getElem?_drop]
        by_cases hin : a - va < buf.length
        · have hidx : chunk va buf.length + (a - PGSIZE * (va / PGSIZE + 1)) = a - va := by
            unfold chunk
            unfold PGSIZE at *
            omega
          rw [hidx]
        have hout : buf.length ≤ chunk va buf.length + (a - PGSIZE * (va / PGSIZE + 1)) := by
          unfold chunk
          unfold PGSIZE at *
          omega
        rw [getElem?_eq_none hout, getElem?_eq_none (not_lt.mp hin)]
      · have hnext : ¬ PGSIZE * (va / PGSIZE + 1) ≤ a := by
          unfold PGSIZE at *
          omega
        rw [if_neg hnext, if_neg hle]
  · have hvn : va / PGSIZE < VPAGES := lt_of_lt_of_le hu USERPAGES_le
    have hne := hx _ hvn (overlaps_first hpos)
    rw [hrest.other x, hfirst.other x hne]
    intro j hj hov
    rw [hfirst.entry_eq j hj]
    refine hx j hj ((overlaps_iff hpos).mpr (.inr ?_))
    rwa [length_drop] at hov

theorem Stops.cons {s₁ : Mem} {len j : ℕ} (hpos : 0 < len)
    (hfirst : Mapped s d (va / PGSIZE)) (hentry : ∀ m < VPAGES, entry s₁ d m = entry s d m)
    (h : Stops s₁ d (PGSIZE * (va / PGSIZE + 1)) (len - chunk va len) j) : Stops s d va len j := by
  refine ⟨h.lt, (overlaps_iff hpos).mpr (.inr h.overlaps), fun i hi hov => ?_, fun hc => ?_⟩
  · rcases (overlaps_iff hpos).mp hov with rfl | hov
    · exact hfirst
    · exact (h.before i hi hov).of_entry_eq (hentry i (hi.trans h.lt)).symm
  · exact h.not_mapped (hc.of_entry_eq (hentry j h.lt))

theorem stops_first {len : ℕ} (hva : va < 2 ^ 32) (hpos : 0 < len)
    (h : ¬ Mapped s d (va / PGSIZE)) : Stops s d va len (va / PGSIZE) := by
  refine ⟨vpage_lt hva, overlaps_first hpos, fun i hi hov => ?_, h⟩
  have := hov.le
  omega

/-- What `copyout` does: it copies everything, or stops at the first page that is not for user
code. -/
structure CopyoutPost (s : Mem) (d va : ℕ) (buf : List UInt8) (ok : Bool) (s' : Mem) : Prop where
  moves : heap.Moves s (space s d) s' (space s' d)
  entry_eq : ∀ m < VPAGES, entry s' d m = entry s d m
  mapped : ok = true → ∀ j < VPAGES, Overlaps va buf.length j → Mapped s d j
  below : ok = true → 0 < buf.length → va + buf.length ≤ KERNBASE
  copied : ok = true → CopiedOut s s' d va buf
  stops : ok = false → ∃ j, Stops s d va buf.length j ∧ Present (s.word d (j / 1024))

theorem wp_copyoutLoop (fuel : ℕ) : ∀ (va : ℕ) (buf : List UInt8) (s : Mem),
    buf.length < fuel → va < 2 ^ 32 → Tidy s (space s d) → KernelHidden s d →
    wp (copyoutLoop d fuel va buf) (CopyoutPost s d va buf) (fun e => e = .nullPointer ∧
      ∃ j, Stops s d va buf.length j ∧ ¬ Present (s.word d (j / 1024))) s := by
  induction fuel with
  | zero => exact fun _ _ _ h => absurd h (Nat.not_lt_zero _)
  | succ fuel ih =>
  intro va buf s hfuel hva ht hidden
  rw [copyoutLoop]
  split
  · next hpos =>
    have hdown : PGROUNDDOWN va = PGSIZE * (va / PGSIZE) := Nat.mul_comm _ _
    have hpage : PGROUNDDOWN va / PGSIZE = va / PGSIZE := by
      rw [hdown]
      exact Nat.mul_div_cancel_left _ (by decide)
    have hva0 : PGROUNDDOWN va < 2 ^ 32 := by
      rw [hdown]
      exact lt_of_le_of_lt (Nat.mul_div_le _ _) hva
    have hoff : va - PGROUNDDOWN va = va % PGSIZE := by
      rw [hdown]
      unfold PGSIZE
      omega
    rw [wp_bind]
    refine wp_uva2ka hva0 (fun habs => ?_) (fun htab hno => ?_) fun hmapped => ?_
    all_goals rw [hpage] at *
    · have hno : ¬ Mapped s d (va / PGSIZE) := fun hc => by
        have := hc.1
        rw [entry, if_neg habs] at this
        exact not_present_zero this
      exact ⟨rfl, _, stops_first hva hpos hno, habs⟩
    · have hok : false ≠ true := Bool.false_ne_true
      exact ⟨.refl _ _, fun _ _ => rfl, fun h => absurd h hok, fun h => absurd h hok,
        fun h => absurd h hok, fun _ => ⟨_, stops_first hva hpos hno, htab⟩⟩
    have hu := hidden _ (vpage_lt hva) hmapped
    have hstored := stored_fill ht.le_one hu hmapped.1
      (overwrite (s.word (pageOf (entry s d (va / PGSIZE)))) (va % PGSIZE)
        (buf.take (chunk va buf.length)))
    dsimp only
    rw [wp_bind, hoff, wp_memmove]
    change wp (copyoutLoop d fuel _ (buf.drop (chunk va buf.length))) _ _
      (s.fill _ (overwrite _ _ (buf.take (chunk va buf.length))))
    set s₁ := s.fill (pageOf (entry s d (va / PGSIZE)))
      (overwrite (s.word (pageOf (entry s d (va / PGSIZE)))) (va % PGSIZE)
        (buf.take (chunk va buf.length)))
    have hnext : (PGROUNDDOWN va + PGSIZE) % 2 ^ 32 = PGSIZE * (va / PGSIZE + 1) := by
      rw [hdown]
      unfold USERPAGES at hu
      unfold PGSIZE at *
      omega
    have hlen : (buf.drop (chunk va buf.length)).length = buf.length - chunk va buf.length :=
      length_drop
    have hchunk : 0 < chunk va buf.length := by
      unfold chunk PGSIZE
      omega
    have hm := hstored.moves hu hmapped.1
    rw [hnext]
    refine (ih _ _ s₁ ?_ ?_ (ht.moves hm) fun m hv hmap => ?_).mono ?_ ?_
    · omega
    · unfold USERPAGES at hu
      unfold PGSIZE at *
      omega
    · exact hidden m hv (hmap.of_entry_eq (hstored.entry_eq m hv).symm)
    · intro ok s' hpost
      refine ⟨hm.trans hpost.moves, fun m hv => (hpost.entry_eq m hv).trans (hstored.entry_eq m hv),
        fun hok j hj hov => ?_, fun hok _ => ?_, fun hok => ?_, fun hok => ?_⟩
      · rcases (overlaps_iff hpos).mp hov with rfl | hov
        · exact hmapped
        · rw [← hlen] at hov
          exact (hpost.mapped hok j hj hov).of_entry_eq (hstored.entry_eq j hj).symm
      · have hbelow := hpost.below hok
        rw [hlen] at hbelow
        unfold chunk at hbelow
        unfold USERPAGES at hu
        unfold KERNBASE PGSIZE at *
        omega
      · exact .cons ht.le_one hu hmapped.1 hstored hpos (hpost.copied hok)
      · obtain ⟨j, hstop, hpres⟩ := hpost.stops hok
        rw [hlen] at hstop
        rw [hstored.dir_eq] at hpres
        exact ⟨j, hstop.cons hpos hmapped hstored.entry_eq, hpres⟩
    · rintro e ⟨rfl, j, hstop, habs⟩
      rw [hlen] at hstop
      rw [hstored.dir_eq] at habs
      exact ⟨rfl, j, hstop.cons hpos hmapped hstored.entry_eq, habs⟩
  next hzero =>
  have hnil : buf = [] := eq_nil_of_length_eq_zero (by omega)
  subst hnil
  refine ⟨.refl _ _, fun _ _ => rfl, fun _ j _ hov => ?_,
    fun _ hpos => absurd hpos (Nat.lt_irrefl 0),
    fun _ => ⟨rfl, rfl, fun _ _ => rfl, rfl, fun a _ _ => ?_, fun _ _ => rfl⟩,
    fun h => absurd h.symm Bool.false_ne_true⟩
  · obtain ⟨a, hle, hlt, -⟩ := hov
    rw [length_nil] at hlt
    omega
  · rw [getElem?_nil, Option.getD_none, ite_self]

theorem wp_copyout {buf : List UInt8} (hva : va < 2 ^ 32) (ht : Tidy s (space s d))
    (hidden : KernelHidden s d) :
    wp (copyout d va buf) (CopyoutPost s d va buf) (fun e => e = .nullPointer ∧
      ∃ j, Stops s d va buf.length j ∧ ¬ Present (s.word d (j / 1024))) s :=
  wp_copyoutLoop _ va buf s (Nat.lt_succ_self _) hva ht hidden

/-! ### Directories that the kernel builds -/

/-- The pages below the size are mapped, and the kernel's. -/
structure Whole (M : Machine) (s : Mem) (d sz : ℕ) : Prop extends Image M s d sz where
  kernel : ∀ m < VPAGES, USERPAGES ≤ m → entry s d m = kernelEntry M.kmap 0 m

section Whole

variable {sz new : ℕ}

theorem Whole.hidden (h : Whole M s d sz) : KernelHidden s d := by
  intro m hm hmapped
  by_contra hge
  rw [Mapped, h.kernel m hm (not_lt.mp hge)] at hmapped
  exact kernelEntry_not_user _ hmapped.2

theorem Whole.present_iff (h : Whole M s d sz) (hm : m < USERPAGES) :
    Present (entry s d m) ↔ m < pages sz := by
  rw [h.mapped m hm, lt_PGROUNDUP_iff h.sz_lt.le]

theorem Whole.absent (h : Whole M s d sz) (hnew : new < KERNBASE) :
    ∀ m, sz ≤ PGSIZE * m → PGSIZE * m < new → ¬ Present (entry s d m) := by
  intro m hge hlt
  have hm := lt_USERPAGES hnew.le hlt
  rw [h.present_iff hm, lt_pages_iff]
  omega

theorem Whole.of_entries (hg : Good M s' (space s' d)) (hsz : sz < KERNBASE)
    (hu : ∀ m < USERPAGES, Present (entry s' d m) ↔ m < pages sz)
    (hk : ∀ m < VPAGES, USERPAGES ≤ m → entry s' d m = kernelEntry M.kmap 0 m) : Whole M s' d sz :=
  ⟨⟨hg, hsz, fun m hm => by rw [hu m hm, lt_PGROUNDUP_iff hsz.le]⟩, hk⟩

theorem whole_setup (hg : Good M s 0) (hm : heap.Moves s 0 s' (space s' d))
    (hk : ∀ m < VPAGES, entry s' d m = kernelEntry M.kmap 0 m) : Whole M s' d 0 := by
  refine .of_entries (hg.moves hm) (by decide) (fun m hu => ?_) fun m hv _ => hk m hv
  rw [hk m (lt_of_lt_of_le hu USERPAGES_le), kernelEntry_user _ hu]
  exact iff_of_false not_present_zero (Nat.not_lt_zero m)

theorem Whole.grown (h : Whole M s d sz) (hnew : new < KERNBASE) (hle : sz ≤ new)
    (hgr : Grown s s' d (pages sz) (pages new)) : Whole M s' d new := by
  have hpages : pages sz ≤ pages new := Nat.div_le_div_right (by omega)
  have hbelow := pages_le_USERPAGES hnew.le
  refine .of_entries (h.good.moves hgr.moves) hnew (fun m hu => ?_) fun m hv hge => ?_
  · by_cases hin : pages sz ≤ m ∧ m < pages new
    · exact iff_of_true (hgr.zeroed m hin.1 hin.2).present hin.2
    · rw [(hgr.kept m (lt_of_lt_of_le hu USERPAGES_le) hin).entry_eq, h.present_iff hu]
      omega
  · rw [(hgr.kept m hv (by omega)).entry_eq, h.kernel m hv hge]

theorem Whole.restored (h : Whole M s d sz) (hnew : new < KERNBASE)
    (hr : Restored s s' d (pages sz) (pages new)) : Whole M s' d sz := by
  have hbelow := pages_le_USERPAGES hnew.le
  refine .of_entries (h.good.moves hr.moves) h.sz_lt (fun m hu => ?_) fun m hv hge => ?_
  · by_cases hin : pages sz ≤ m ∧ m < pages new
    · exact iff_of_false (hr.absent m hin.1 hin.2) (by omega)
    · rw [(hr.kept m (lt_of_lt_of_le hu USERPAGES_le) hin).entry_eq, h.present_iff hu]
  · rw [(hr.kept m hv (by omega)).entry_eq, h.kernel m hv hge]

/-- From `s` to `s'`, a directory of size `sz` was extended to size `r`. -/
structure Extended (M : Machine) (s s' : Mem) (d sz r : ℕ) : Prop where
  moves : heap.Moves s (space s d) s' (space s' d)
  whole : Whole M s' d r
  kept : ∀ m < pages sz, Kept s s' d m
  zeroed : ∀ m, pages sz ≤ m → m < pages r → Zeroed s' d m

theorem Whole.wp_allocuvm (h : Whole M s d sz) (new : ℕ) :
    wp (allocuvm M d sz new) (fun r s' => (r = max sz new ∧ Extended M s s' d sz r) ∨
      (r = 0 ∧ Extended M s s' d sz sz)) E s := by
  have hpages := pages_le_USERPAGES h.sz_lt.le
  have hrefl : Extended M s s d sz sz :=
    ⟨.refl _ _, h, fun _ _ => .refl _ _ _, fun m hge hlt => by omega⟩
  by_cases hbig : new ≥ KERNBASE
  · rw [allocuvm, wp_ite, if_pos hbig]
    exact .inr ⟨rfl, hrefl⟩
  by_cases hlt : new < sz
  · rw [allocuvm, wp_ite, if_neg hbig, wp_ite, if_pos hlt, wp_pure]
    exact .inl ⟨(Nat.max_eq_left hlt.le).symm, hrefl⟩
  have hnew : new < KERNBASE := not_le.mp hbig
  have hle := not_lt.mp hlt
  refine (Vm.wp_allocuvm hle hnew h.good (h.absent hnew)).imp ?_
  rintro r s' (⟨rfl, hgr⟩ | ⟨rfl, hr⟩)
  · refine .inl ⟨(Nat.max_eq_right hle).symm, hgr.moves, h.grown hnew hle hgr,
      fun m hm => ?_, hgr.zeroed⟩
    exact hgr.kept m (by have := USERPAGES_le; omega) (by omega)
  · refine .inr ⟨rfl, hr.moves, h.restored hnew hr, fun m hm => ?_, fun m hge hlt => by omega⟩
    exact hr.kept m (by have := USERPAGES_le; omega) (by omega)

theorem Whole.wp_clearpteu (h : Whole M s d sz) (hva : va < 2 ^ 32)
    (habs : ¬ Present (s.word d (va / PGSIZE / 1024)) → E .clearpteu) :
    wp (clearpteu d va) (fun _ s' => Whole M s' d sz) E s := by
  refine (Vm.wp_clearpteu hva h.good habs).imp ?_
  rintro - s' ⟨hm, hkept, hentry, -⟩
  refine .of_entries (h.good.moves hm) h.sz_lt (fun m hu => ?_) fun m hv hge => ?_
  · rcases eq_or_ne m (va / PGSIZE) with rfl | hne
    · rw [hentry, present_clearUser, h.present_iff hu]
    · rw [(hkept m (lt_of_lt_of_le hu USERPAGES_le) hne).entry_eq, h.present_iff hu]
  · rcases eq_or_ne m (va / PGSIZE) with rfl | hne
    · rw [hentry, h.kernel _ hv hge, clearUser_of_not_user (kernelEntry_not_user _)]
    · rw [(hkept m hv hne).entry_eq, h.kernel m hv hge]

end Whole

/-- Directories made with `setupkvm`, `allocuvm` and `clearpteu`, and the size that goes with
them. -/
inductive Built (M : Machine) : Mem → ℕ → ℕ → Prop where
  | setup {s s' : Mem} {d : ℕ} (hg : Good M s 0) (h : setupkvm M s = .ok (d, s')) (hd : d ≠ 0) :
    Built M s' d 0
  | alloc {s s' : Mem} {d sz new r : ℕ} (hb : Built M s d sz)
    (h : allocuvm M d sz new s = .ok (r, s')) : Built M s' d (if r = 0 then sz else r)
  | clear {s s' : Mem} {d sz uva : ℕ} (hb : Built M s d sz) (huva : uva < 2 ^ 32)
    (h : clearpteu d uva s = .ok ((), s')) : Built M s' d sz

theorem Built.whole (hsep : Separate M.kmap) {sz : ℕ} (h : Built M s d sz) : Whole M s d sz := by
  induction h with
  | setup hg h hd =>
    rcases ((wp_setupkvm (E := fun _ => True) hsep hg).of_ok h).1 with ⟨rfl, -⟩ | ⟨-, hm, -, hk⟩
    · exact absurd rfl hd
    · exact whole_setup hg hm hk
  | alloc hb h ih =>
    rcases (ih.wp_allocuvm (E := fun _ => True) _).of_ok h with ⟨rfl, hext⟩ | ⟨rfl, hext⟩
    · split
      · next hzero =>
        rw [Nat.max_eq_zero_iff] at hzero
        rw [hzero.1, hzero.2] at hext
        rw [hzero.1]
        exact hext.whole
      · exact hext.whole
    · exact hext.whole
  | clear hb huva h ih => exact (ih.wp_clearpteu (E := fun _ => True) huva fun _ => trivial).of_ok h

/-- `copyout` should return 0 if every page of the range is for user code, with the bytes in place
and nothing else changed, and -1 otherwise. -/
def CopyoutExact (s : Mem) (d va : ℕ) (buf : List UInt8) (ok : Bool) (s' : Mem) : Prop :=
  (ok = true ↔ ∀ j < VPAGES, Overlaps va buf.length j → Mapped s d j) ∧
    (ok = true → CopiedOut s s' d va buf)

theorem Stops.unique {len i j : ℕ} (hi : Stops s d va len i) (hj : Stops s d va len j) : i = j := by
  rcases lt_trichotomy i j with h | h | h
  · exact absurd (hj.before i h hi.overlaps) hi.not_mapped
  · exact h
  · exact absurd (hi.before j h hj.overlaps) hj.not_mapped

theorem CopyoutPost.exact {buf : List UInt8} {ok : Bool} (h : CopyoutPost s d va buf ok s') :
    CopyoutExact s d va buf ok s' := by
  refine ⟨⟨h.mapped, fun hall => ?_⟩, h.copied⟩
  cases ok with
  | true => rfl
  | false =>
    obtain ⟨j, hstop, -⟩ := h.stops rfl
    exact absurd (hall j hstop.lt hstop.overlaps) hstop.not_mapped

/-- **`copyout` is right if the page at which it stops has a page table.** Where there is none it
follows the null pointer. -/
theorem copyout_exact_iff {sz : ℕ} {buf : List UInt8} (hsep : Separate M.kmap)
    (hb : Built M s d sz) (hva : va < 2 ^ 32) :
    wp (copyout d va buf) (CopyoutExact s d va buf) (fun _ => False) s ↔
      ∀ j, Stops s d va buf.length j → Present (s.word d (j / 1024)) := by
  have hw := hb.whole hsep
  have hspec : wp (copyout d va buf) _ _ s := wp_copyout hva hw.good.toTidy hw.hidden
  constructor
  · intro h j hstop
    obtain ⟨ok, s', hrun, -⟩ := wp_ok.mp h
    have hpost := hspec.of_ok hrun
    cases ok with
    | true => exact absurd (hpost.mapped rfl j hstop.lt hstop.overlaps) hstop.not_mapped
    | false =>
      obtain ⟨i, hi, hpres⟩ := hpost.stops rfl
      rwa [← hi.unique hstop]
  · intro h
    refine hspec.mono (fun _ _ hpost => hpost.exact) ?_
    rintro e ⟨-, j, hstop, habs⟩
    exact habs (h j hstop)

def bootMem : Mem := ⟨range' 1 1100, [], fun _ _ => 0⟩

theorem good_bootMem : Good smallKernel bootMem 0 := by
  have hnodup : bootMem.freelist.Nodup := nodup_range'
  have hmem : ∀ x, heap.free bootMem x + (0 : ℕ → ℕ) x ≠ 0 → 1 ≤ x ∧ x < 1101 := by
    intro x hx
    rw [Pi.zero_apply, Nat.add_zero, free_eq] at hx
    have := mem_range'_1.mp (count_pos_iff.mp (Nat.pos_of_ne_zero hx))
    omega
  refine ⟨⟨fun x => ?_, ?_⟩, fun x hx => ?_⟩
  · rw [Pi.zero_apply, Nat.add_zero, free_eq]
    exact nodup_iff_count_le_one.mp hnodup x
  · by_contra hc
    have := hmem 0 hc
    omega
  have := hmem x hx
  refine ⟨this.1, ?_⟩
  change x < 0xE000
  omega

theorem exists_built (hsep : Separate M.kmap) (hg : Good M s 0) (hf : s.fails = [])
    (hlen : NPDENTRIES < s.freelist.length) : ∃ s' d, Built M s' d 0 ∧
      (∀ i < 512, s'.word d i = 0) ∧ ∀ m < VPAGES, entry s' d m = kernelEntry M.kmap 0 m := by
  obtain ⟨d, s', hrun, ⟨hz, -⟩ | ⟨hd, -, hslot, hk⟩, hne⟩ := wp_ok.mp (wp_setupkvm hsep hg)
  · exact absurd hz (hne hf hlen)
  · exact ⟨s', d, .setup hg hrun hd, hslot, hk⟩

theorem separate_smallKernel : Separate smallKernel.kmap := separate_xv6 _ _ _

theorem length_bootMem : NPDENTRIES < bootMem.freelist.length :=
  lt_of_lt_of_eq (by decide : 1024 < 1100) length_range'.symm

/-- A byte for the kernel's first page is refused. -/
theorem copyout_kernel : ∃ s d, Built smallKernel s d 0 ∧
    wp (copyout d KERNBASE [0]) (CopyoutExact s d KERNBASE [0]) (fun _ => False) s := by
  obtain ⟨s, d, hb, -, hk⟩ :=
    exists_built separate_smallKernel good_bootMem rfl length_bootMem
  refine ⟨s, d, hb, (copyout_exact_iff separate_smallKernel hb (by decide)).mpr ?_⟩
  rintro j ⟨-, ⟨a, hle, hlt, rfl⟩, -, -⟩
  have ha : a = KERNBASE := by
    rw [length_singleton] at hlt
    omega
  subst ha
  by_contra habs
  have hentry := hk (KERNBASE / PGSIZE) (by decide)
  rw [entry, if_neg habs] at hentry
  exact absurd hentry (by decide)

/-- A byte for address zero of a new address space: there is no page table to ask. -/
theorem copyout_not_exact : ∃ s d, Built smallKernel s d 0 ∧
    ¬ wp (copyout d 0 [0]) (CopyoutExact s d 0 [0]) (fun _ => False) s := by
  obtain ⟨s, d, hb, hslot, -⟩ :=
    exists_built separate_smallKernel good_bootMem rfl length_bootMem
  refine ⟨s, d, hb, fun h => ?_⟩
  have hw := hb.whole separate_smallKernel
  obtain ⟨ok, s', hrun, -⟩ := wp_ok.mp h
  have hpost := (wp_copyout (by decide) hw.good.toTidy hw.hidden).of_ok hrun
  have hzero : s.word d (0 / 1024) = 0 := hslot 0 (by decide)
  cases ok with
  | true =>
    have hmapped := (hpost.mapped rfl 0 (by decide) (overlaps_first (by decide))).1
    rw [entry, hzero, if_neg not_present_zero] at hmapped
    exact not_present_zero hmapped
  | false =>
  obtain ⟨j, ⟨-, ⟨a, -, hlt, rfl⟩, -, -⟩, hpres⟩ := hpost.stops rfl
  have ha : a = 0 := by
    rw [length_singleton] at hlt
    omega
  subst ha
  rw [show (0 : ℕ) / PGSIZE = 0 from rfl, hzero] at hpres
  exact not_present_zero hpres

end Xv6.Vm
