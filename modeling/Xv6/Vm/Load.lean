import Xv6.Names.Exec
import Xv6.Vm.Copyout

/-!
# Loading a program

The loop of `exec` over the program headers. The fields of the headers are whatever the file holds;
sums of them can wrap around, segments can overlap, come in any order and leave gaps.
-/

namespace Xv6.Vm

open Footprint Tally Hoare List

open Names (field ELFHDR PROGHDR ELF_MAGIC ELF_PROG_LOAD)

variable {M : Machine} {s s' : Mem} {d n p m i a va sz off v k fsz : ℕ} {E : Panic → Prop}
  {file : List UInt8}

/-! ### `loaduvm` -/

/-- From `s` to `s'`, nothing but the contents of user pages changed. -/
structure Rewritten (s s' : Mem) (d : ℕ) : Prop where
  moves : heap.Moves s (space s d) s' (space s' d)
  entry_eq : ∀ m < VPAGES, entry s' d m = entry s d m

theorem Rewritten.refl (s : Mem) (d : ℕ) : Rewritten s s d := ⟨.refl _ _, fun _ _ => rfl⟩

theorem Rewritten.trans {s'' : Mem} (h : Rewritten s s' d) (h' : Rewritten s' s'' d) :
    Rewritten s s'' d :=
  ⟨h.moves.trans h'.moves, fun m hm => (h'.entry_eq m hm).trans (h.entry_eq m hm)⟩

theorem Rewritten.whole (h : Rewritten s s' d) (hw : Whole M s d sz) : Whole M s' d sz := by
  refine .of_entries (hw.good.moves h.moves) hw.sz_lt (fun m hu => ?_) fun m hv hge => ?_
  · rw [h.entry_eq m (lt_of_lt_of_le hu USERPAGES_le), hw.present_iff hu]
  · rw [h.entry_eq m hv, hw.kernel m hv hge]

theorem Stored.rewritten {f : ℕ → ℕ} (h : Stored s s' d n f) (hn : n < USERPAGES)
    (hp : Present (entry s d n)) : Rewritten s s' d :=
  ⟨h.moves hn hp, h.entry_eq⟩

variable {bs : List UInt8}

theorem Stored.ubyte_eq (h : Stored s s' d n (overwrite (s.word (pageOf (entry s d n))) 0 bs))
    (hs : ∀ x, space s d x ≤ 1) (hn : n < USERPAGES) (hp : Present (entry s d n))
    (ha : a / PGSIZE < USERPAGES) (hpa : Present (entry s d (a / PGSIZE))) : ubyte s' d a =
      if a / PGSIZE = n then bs[a % PGSIZE]?.getD (ubyte s d a) else ubyte s d a := by
  have hv : a / PGSIZE < VPAGES := lt_of_lt_of_le ha USERPAGES_le
  split
  · next heq =>
    unfold ubyte
    rw [h.entry_eq _ hv, heq, h.word_eq, byteAt_overwrite, if_pos (Nat.zero_le _), Nat.sub_zero]
  · next hne => exact (h.kept hs hn hp hv hne).ubyte_eq ha hpa

theorem eq_of_readi {len : ℕ} (h : readi file off len = some bs) :
    off ≤ file.length ∧ bs = (file.drop off).take len := by
  unfold readi at h
  split at h
  · exact absurd h nofun
  · next hok => exact ⟨not_lt.mp fun hlt => hok (.inl hlt), (Option.some.inj h).symm⟩

theorem readi_bound {len : ℕ} (h : readi file off len = some bs)
    (hlen : bs.length = len) : off + len ≤ file.length := by
  obtain ⟨hoff, rfl⟩ := eq_of_readi h
  rw [length_take, length_drop] at hlen
  omega

theorem getElem?_of_readi {len : ℕ} (h : readi file off len = some bs)
    (hlen : bs.length = len) (hi : i < len) : ∃ c, bs[i]? = some c ∧ file[off + i]? = some c := by
  have hbound := readi_bound h hlen
  have hin : off + i < file.length := by omega
  obtain ⟨-, rfl⟩ := eq_of_readi h
  refine ⟨file[off + i], ?_, getElem?_eq_getElem hin⟩
  rw [getElem?_take, if_pos hi, getElem?_drop, getElem?_eq_getElem hin]

theorem wp_loadLoop (hfile : file.length < 2 ^ 32) (fuel : ℕ) : ∀ (k : ℕ) (s : Mem),
    fsz < PGSIZE * (k + fuel) → (PGSIZE * k < fsz → off + PGSIZE * k < 2 ^ 32) →
    Good M s (space s d) →
    (∀ m, v ≤ m → PGSIZE * m < PGSIZE * v + fsz → m < USERPAGES ∧ Present (entry s d m)) →
    wp (loadLoop d (PGSIZE * v) file off fsz fuel (PGSIZE * k)) (fun ok s' => Rewritten s s' d ∧
      (ok = true → ∀ a, a / PGSIZE < USERPAGES → Present (entry s d (a / PGSIZE)) →
        ubyte s' d a = if PGSIZE * (v + k) ≤ a ∧ a < PGSIZE * v + fsz then
          file[off + (a - PGSIZE * v)]?.getD 0 else ubyte s d a)) E s := by
  induction fuel with
  | zero =>
    intro k s hfuel _ _ _
    refine ⟨.refl _ _, fun _ a _ _ => ?_⟩
    rw [if_neg]
    unfold PGSIZE at *
    omega
  | succ fuel ih =>
  intro k s hfuel hoff hg hpres
  rw [loadLoop]
  split
  · next hlt =>
    have hoff := hoff hlt
    obtain ⟨hu, hp⟩ := hpres (v + k) (Nat.le_add_right _ _) (by
      rw [Nat.mul_add]
      omega)
    have haddr : (PGSIZE * v + PGSIZE * k) % 2 ^ 32 = PGSIZE * (v + k) := by
      rw [← Nat.mul_add]
      refine Nat.mod_eq_of_lt ?_
      unfold USERPAGES at hu
      unfold PGSIZE
      omega
    have hdiv : PGSIZE * (v + k) / PGSIZE = v + k := Nat.mul_div_cancel_left _ (by decide)
    rw [haddr, Nat.mod_eq_of_lt hoff, wp_bind]
    refine wp_walkpgdir ?_ (fun hnone => ?_) fun t j hat => ?_
    · unfold USERPAGES at hu
      unfold PGSIZE
      omega
    · rw [hdiv] at hnone
      rw [entry, if_neg hnone] at hp
      exact absurd hp not_present_zero
    rw [hdiv] at hat
    dsimp only
    rw [wp_bind, wp_load, hat.word_eq]
    set len := if fsz - PGSIZE * k < PGSIZE then fsz - PGSIZE * k else PGSIZE with hlen
    cases hread : readi file (off + PGSIZE * k) len with
    | none => exact ⟨.refl _ _, fun h => absurd h Bool.false_ne_true⟩
    | some bs =>
    have hstored := stored_fill hg.le_one hu hp
      (overwrite (s.word (pageOf (entry s d (v + k)))) 0 bs)
    dsimp only
    rw [wp_bind, wp_memmove, wp_ite]
    set s₁ := s.fill (pageOf (entry s d (v + k)))
      (overwrite (s.word (pageOf (entry s d (v + k)))) 0 bs)
    have hre := hstored.rewritten hu hp
    split
    · next hfull =>
      have hbound := readi_bound hread hfull
      have hnext : PGSIZE * k + PGSIZE = PGSIZE * (k + 1) := (Nat.mul_succ _ _).symm
      rw [hnext]
      refine (ih (k + 1) s₁ ?_ (fun hmore => ?_) (hg.moves hre.moves) fun m hge hm => ?_).imp ?_
      · rwa [Nat.add_right_comm, Nat.add_assoc]
      · have hwhole : len = PGSIZE := by
          rw [hlen, if_neg]
          rw [← hnext] at hmore
          omega
        rw [← hnext]
        omega
      · obtain ⟨hmu, hmp⟩ := hpres m hge hm
        rw [hre.entry_eq m (lt_of_lt_of_le hmu USERPAGES_le)]
        exact ⟨hmu, hmp⟩
      rintro ok s' ⟨hre', hbytes⟩
      refine ⟨hre.trans hre', fun hok a ha hpa => ?_⟩
      have hv : a / PGSIZE < VPAGES := lt_of_lt_of_le ha USERPAGES_le
      rw [hbytes hok a ha (by rwa [hre.entry_eq _ hv]), hstored.ubyte_eq hg.le_one hu hp ha hpa]
      by_cases hpage : a / PGSIZE = v + k
      · rw [if_neg (by unfold PGSIZE at *; omega), if_pos hpage]
        by_cases hin : a % PGSIZE < len
        · obtain ⟨c, hbs, hc⟩ := getElem?_of_readi hread hfull hin
          have hidx : off + (a - PGSIZE * v) = off + PGSIZE * k + a % PGSIZE := by
            unfold PGSIZE at *
            omega
          rw [hbs, if_pos, hidx, hc]
          · rfl
          refine ⟨by unfold PGSIZE at *; omega, ?_⟩
          rw [hlen] at hin
          unfold PGSIZE at *
          split at hin <;> omega
        · rw [getElem?_eq_none (by omega), if_neg]
          · rfl
          · rw [hlen] at hin
            unfold PGSIZE at *
            split at hin <;> omega
      · rw [if_neg hpage]
        by_cases hin : PGSIZE * (v + (k + 1)) ≤ a ∧ a < PGSIZE * v + fsz
        · rw [if_pos hin, if_pos (by unfold PGSIZE at *; omega)]
        · rw [if_neg hin, if_neg (by unfold PGSIZE at *; omega)]
    · exact ⟨hre, fun h => absurd h Bool.false_ne_true⟩
  next hge =>
  refine ⟨.refl _ _, fun _ a _ _ => ?_⟩
  rw [if_neg]
  unfold PGSIZE at *
  omega

theorem wp_loaduvm (hfile : file.length < 2 ^ 32) (hoff : off < 2 ^ 32) (hg : Good M s (space s d))
    (hpres : ∀ m, v ≤ m → PGSIZE * m < PGSIZE * v + fsz →
      m < USERPAGES ∧ Present (entry s d m)) :
    wp (loaduvm d (PGSIZE * v) file off fsz) (fun ok s' => Rewritten s s' d ∧
      (ok = true → ∀ a, a / PGSIZE < USERPAGES → Present (entry s d (a / PGSIZE)) →
        ubyte s' d a = if PGSIZE * v ≤ a ∧ a < PGSIZE * v + fsz then
          file[off + (a - PGSIZE * v)]?.getD 0 else ubyte s d a)) E s := by
  have halign : ¬ PGSIZE * v % PGSIZE ≠ 0 := not_not.mpr (Nat.mul_mod_right _ _)
  unfold loaduvm
  rw [wp_ite, if_neg halign]
  refine wp_loadLoop hfile _ 0 s ?_ (fun _ => hoff) hg hpres
  unfold PGSIZE
  omega

/-! ### Program headers -/

/-- The fields of a `struct proghdr` that `exec` uses. -/
structure Segment where
  off : ℕ
  vaddr : ℕ
  filesz : ℕ
  memsz : ℕ
  deriving DecidableEq

def Segment.ofHeader (ph : List UInt8) : Segment :=
  ⟨field ph 4 4, field ph 8 4, field ph 16 4, field ph 20 4⟩

/-- The segments of type `ELF_PROG_LOAD` among `k` headers from `off` on. -/
def segmentsOf (file : List UInt8) : ℕ → ℕ → List Segment
  | 0, _ => []
  | k + 1, off =>
    let ph := (file.drop off).take PROGHDR
    if field ph 0 4 ≠ ELF_PROG_LOAD then segmentsOf file k ((off + PROGHDR) % 2 ^ 32)
    else .ofHeader ph :: segmentsOf file k ((off + PROGHDR) % 2 ^ 32)

/-- Load the program into memory: `k` headers from `off` on are left. -/
def loadSegments (M : Machine) (pgdir : ℕ) (file : List UInt8) : ℕ → ℕ → ℕ → VmM (Option ℕ)
  | 0, _, sz => return some sz
  | k + 1, off, sz =>
    match readi file off PROGHDR with
    | none => return none
    | some ph =>
      if ph.length ≠ PROGHDR then return none
      else if field ph 0 4 ≠ ELF_PROG_LOAD then
        loadSegments M pgdir file k ((off + PROGHDR) % 2 ^ 32) sz
      else
        let g := Segment.ofHeader ph
        if g.memsz < g.filesz then return none
        else if (g.vaddr + g.memsz) % 2 ^ 32 < g.vaddr then return none
        else do
          let sz ← allocuvm M pgdir sz ((g.vaddr + g.memsz) % 2 ^ 32)
          if sz = 0 then return none
          else if g.vaddr % PGSIZE ≠ 0 then return none
          else do
            if ← loaduvm pgdir g.vaddr file g.off g.filesz then
              loadSegments M pgdir file k ((off + PROGHDR) % 2 ^ 32) sz
            else return none

/-- Address `a` is in the part of a segment that comes from the file. -/
def Segment.Covers (g : Segment) (a : ℕ) : Prop := g.vaddr ≤ a ∧ a < g.vaddr + g.filesz

instance (g : Segment) (a : ℕ) : Decidable (g.Covers a) := inferInstanceAs (Decidable (_ ∧ _))

/-- The byte at address `a`: from the last segment that covers it, or zero. -/
def imageByte (file : List UInt8) (gs : List Segment) (a : ℕ) : UInt8 :=
  match gs.reverse.find? fun g => g.Covers a with
  | some g => file[g.off + (a - g.vaddr)]?.getD 0
  | none => 0

theorem imageByte_concat (gs : List Segment) (g : Segment) (a : ℕ) : imageByte file (gs ++ [g]) a =
      if g.Covers a then file[g.off + (a - g.vaddr)]?.getD 0 else imageByte file gs a := by
  unfold imageByte
  rw [reverse_append, reverse_singleton, singleton_append, find?_cons]
  by_cases h : g.Covers a
  · rw [if_pos h, decide_eq_true h]
  · rw [if_neg h, decide_eq_false h]

variable {gs : List Segment}

theorem imageByte_of_not_covered (h : ∀ g ∈ gs, ¬ g.Covers a) : imageByte file gs a = 0 := by
  have hnone : gs.reverse.find? (fun g => g.Covers a) = none := by
    rw [find?_eq_none]
    intro g hg
    rw [decide_eq_true_eq]
    exact h g (mem_reverse.mp hg)
  rw [imageByte, hnone]

theorem field_lt (bytes : List UInt8) (o len : ℕ) : field bytes o len < 256 ^ len := by
  have hfold : ∀ l : List UInt8, l.foldr (fun c n => c.toNat + 256 * n) 0 < 256 ^ l.length := by
    intro l
    induction l with
    | nil => decide
    | cons c l ih =>
    have := c.toNat_lt
    rw [foldr_cons, length_cons, pow_succ]
    omega
  refine lt_of_lt_of_le (hfold _) (Nat.pow_le_pow_right (by decide) ?_)
  rw [length_take]
  omega

/-! ### The loop -/

/-- The directory has the image of some segments, up to size `sz`. -/
structure Loaded (M : Machine) (file : List UInt8) (gs : List Segment) (s : Mem) (d sz : ℕ) :
    Prop where
  whole : Whole M s d sz
  fits : ∀ g ∈ gs, g.filesz ≤ g.memsz ∧ g.vaddr + g.memsz ≤ sz
  bytes : ∀ a, a / PGSIZE < pages sz → ubyte s d a = imageByte file gs a

theorem Zeroed.ubyte_eq (h : Zeroed s d (a / PGSIZE)) : ubyte s d a = 0 := by
  obtain ⟨p, hentry, hzero⟩ := h
  rw [ubyte, hentry, pageOf_mkEntry (by decide), hzero, byteAt, Nat.zero_div]
  rfl

theorem Loaded.extended {r : ℕ} (h : Loaded M file gs s d sz)
    (hext : Extended M s s' d sz r) (hle : sz ≤ r) : Loaded M file gs s' d r := by
  refine ⟨hext.whole, fun g hg => ⟨(h.fits g hg).1, (h.fits g hg).2.trans hle⟩, fun a ha => ?_⟩
  by_cases hold : a / PGSIZE < pages sz
  · have hu : a / PGSIZE < USERPAGES := lt_of_lt_of_le hold (pages_le_USERPAGES h.whole.sz_lt.le)
    rw [(hext.kept _ hold).ubyte_eq hu ((h.whole.present_iff hu).mpr hold), h.bytes a hold]
  rw [(hext.zeroed _ (not_lt.mp hold) ha).ubyte_eq]
  refine (imageByte_of_not_covered fun g hg hcov => ?_).symm
  obtain ⟨hfile, hmem⟩ := h.fits g hg
  have hge := pages_le_iff.mp (not_lt.mp hold)
  have hlt := hcov.2
  have := Nat.mul_div_le a PGSIZE
  omega

theorem Loaded.rewritten {g : Segment} (h : Loaded M file gs s d sz)
    (hre : Rewritten s s' d) (hfits : g.filesz ≤ g.memsz ∧ g.vaddr + g.memsz ≤ sz)
    (hbytes : ∀ a, a / PGSIZE < USERPAGES → Present (entry s d (a / PGSIZE)) → ubyte s' d a =
      if g.vaddr ≤ a ∧ a < g.vaddr + g.filesz then file[g.off + (a - g.vaddr)]?.getD 0
      else ubyte s d a) : Loaded M file (gs ++ [g]) s' d sz := by
  refine ⟨hre.whole h.whole, fun g' hg' => ?_, fun a ha => ?_⟩
  · rcases mem_append.mp hg' with hg' | hg'
    · exact h.fits g' hg'
    · rw [mem_singleton.mp hg']
      exact hfits
  · have hu : a / PGSIZE < USERPAGES := lt_of_lt_of_le ha (pages_le_USERPAGES h.whole.sz_lt.le)
    rw [hbytes a hu ((h.whole.present_iff hu).mpr ha), imageByte_concat, h.bytes a ha]
    rfl

theorem wp_loadSegments (hfile : file.length < 2 ^ 32) (k : ℕ) :
    ∀ (off sz : ℕ) (gs : List Segment) (s : Mem), Loaded M file gs s d sz →
    wp (loadSegments M d file k off sz) (fun r s' => heap.Moves s (space s d) s' (space s' d) ∧
      ∀ sz', r = some sz' → Loaded M file (gs ++ segmentsOf file k off) s' d sz') E s := by
  induction k with
  | zero =>
    intro off sz gs s h
    refine ⟨.refl _ _, fun sz' heq => ?_⟩
    rw [segmentsOf, append_nil, ← Option.some.inj heq]
    exact h
  | succ k ih =>
  intro off sz gs s h
  rw [loadSegments]
  cases hread : readi file off PROGHDR with
  | none => exact ⟨.refl _ _, nofun⟩
  | some ph =>
  dsimp only
  rw [wp_ite]
  split
  · exact ⟨.refl _ _, nofun⟩
  have hph : (file.drop off).take PROGHDR = ph := by
    unfold readi at hread
    split at hread
    · exact absurd hread nofun
    · exact Option.some.inj hread
  rw [segmentsOf, hph]
  by_cases htype : field ph 0 4 ≠ ELF_PROG_LOAD
  · simp only [if_pos htype]
    exact ih _ _ _ _ h
  simp only [if_neg htype]
  set g := Segment.ofHeader ph
  have hvaddr : g.vaddr < 2 ^ 32 := field_lt _ _ _
  have hmemsz : g.memsz < 2 ^ 32 := field_lt _ _ _
  have hgoff : g.off < 2 ^ 32 := field_lt _ _ _
  rw [wp_ite]
  split
  · exact ⟨.refl _ _, nofun⟩
  next hfilesz =>
  rw [wp_ite]
  split
  · exact ⟨.refl _ _, nofun⟩
  next hwrap =>
  have hsum : (g.vaddr + g.memsz) % 2 ^ 32 = g.vaddr + g.memsz := by omega
  rw [wp_bind, hsum]
  refine (h.whole.wp_allocuvm _).imp ?_
  rintro r s₁ (⟨hr, hext⟩ | ⟨rfl, hext⟩)
  · have hle : sz ≤ r := hr ▸ Nat.le_max_left _ _
    have hge : g.vaddr + g.memsz ≤ r := hr ▸ Nat.le_max_right _ _
    have h₁ := h.extended hext hle
    rw [wp_ite]
    split
    · exact ⟨hext.moves, nofun⟩
    rw [wp_ite]
    split
    · exact ⟨hext.moves, nofun⟩
    next halign =>
    have hv : g.vaddr = PGSIZE * (g.vaddr / PGSIZE) := by
      have := Nat.div_add_mod g.vaddr PGSIZE
      omega
    rw [wp_bind, hv]
    refine (wp_loaduvm hfile hgoff h₁.whole.good fun m _ hm => ?_).imp ?_
    · rw [← hv] at hm
      have hmr : m < pages r := lt_pages_iff.mpr (by omega)
      have hu := lt_of_lt_of_le hmr (pages_le_USERPAGES h₁.whole.sz_lt.le)
      exact ⟨hu, (h₁.whole.present_iff hu).mpr hmr⟩
    rintro ok s₂ ⟨hre, hbytes⟩
    rw [← hv] at hbytes
    cases ok with
    | false => exact ⟨hext.moves.trans hre.moves, nofun⟩
    | true =>
    have h₂ := h₁.rewritten hre ⟨not_lt.mp hfilesz, hge⟩ (hbytes rfl)
    simp only [if_true]
    refine (ih _ _ _ _ h₂).imp ?_
    rintro r' s' ⟨hm, hdone⟩
    refine ⟨(hext.moves.trans hre.moves).trans hm, fun sz' heq => ?_⟩
    have hres := hdone sz' heq
    rwa [append_assoc, singleton_append] at hres
  · rw [wp_ite, if_pos rfl]
    exact ⟨hext.moves, nofun⟩

structure ImageExact (file : List UInt8) (gs : List Segment) (s : Mem) (d sz : ℕ) : Prop where
  present : ∀ m, PGSIZE * m < PGROUNDUP sz → Present (entry s d m)
  below : sz < KERNBASE
  covers : ∀ g ∈ gs, g.vaddr + g.memsz ≤ sz
  bytes : ∀ a < sz, ubyte s d a = imageByte file gs a

theorem Loaded.imageExact (h : Loaded M file gs s d sz) : ImageExact file gs s d sz := by
  have hle := pages_le_USERPAGES h.whole.sz_lt.le
  refine ⟨fun m hm => ?_, h.whole.sz_lt, fun g hg => (h.fits g hg).2, fun a ha => h.bytes a ?_⟩
  · have hmp := (lt_PGROUNDUP_iff h.whole.sz_lt.le).mp hm
    exact (h.whole.present_iff (lt_of_lt_of_le hmp hle)).mpr hmp
  · rw [lt_pages_iff]
    exact lt_of_le_of_lt (Nat.mul_div_le a PGSIZE) ha

theorem Whole.loaded (h : Whole M s d 0) : Loaded M file [] s d 0 :=
  ⟨h, nofun, fun _ ha => absurd ha (Nat.not_lt_zero _)⟩

/-- **Loading is safe and exact**, for every file, number of headers and place of the first: the
loop comes to its end without a panic, and if it found memory and nothing wrong with a header, the
image is what the headers say. -/
theorem loadSegments_exact (hsep : Separate M.kmap) (hb : Built M s d 0)
    (hfile : file.length < 2 ^ 32) (k off : ℕ) :
    ∃ r s', loadSegments M d file k off 0 s = .ok (r, s') ∧
      ∀ sz, r = some sz → ImageExact file (segmentsOf file k off) s' d sz := by
  obtain ⟨r, s', hrun, -, hres⟩ := wp_ok.mp (wp_loadSegments hfile k off 0 [] s
    (hb.whole hsep).loaded)
  exact ⟨r, s', hrun, fun sz heq => (hres sz heq).imageExact⟩

/-- Nine pages to allocate. -/
def ninePages : Mem := ⟨[1, 2, 3, 4, 5, 6, 7, 8, 9], [], fun _ _ => 0⟩

theorem good_ninePages : Good bareMachine ninePages 0 := by
  refine ⟨⟨fun x => ?_, rfl⟩, fun x hx => ?_⟩
  · exact nodup_iff_count_le_one.mp (by decide : ninePages.freelist.Nodup) x
  · have hmem : x ∈ ninePages.freelist := count_pos_iff.mp (Nat.pos_of_ne_zero hx)
    exact (by decide : ∀ x ∈ ninePages.freelist, bareMachine.Allocatable x) x hmem

/-- The header of a segment: the first eight bytes of the file are loaded at address zero. -/
def oneSegment : List UInt8 := [1, 0, 0, 0] ++ replicate 12 0 ++ [8, 0, 0, 0, 9] ++ replicate 11 0

/-- The segment is loaded, and a byte behind it is zero. -/
theorem loadSegments_segment : ∃ s d, Built bareMachine s d 0 ∧
    segmentsOf oneSegment 1 0 = [⟨0, 0, 8, 9⟩] ∧ ∃ s',
      loadSegments bareMachine d oneSegment 1 0 0 s = .ok (some 9, s') ∧
      ImageExact oneSegment (segmentsOf oneSegment 1 0) s' d 9 := by
  obtain ⟨d, s, hrun, hd⟩ : ∃ d s, setupkvm bareMachine ninePages = .ok (d, s) ∧ d ≠ 0 :=
    ⟨_, _, rfl, by decide⟩
  have hb : Built bareMachine s d 0 := .setup good_ninePages hrun hd
  have hload : (((setupkvm bareMachine >>= fun d => loadSegments bareMachine d oneSegment 1 0 0)
      ninePages).toOption.map Prod.fst) = some (some 9) := by decide +kernel
  rw [bind_of_ok hrun] at hload
  obtain ⟨r, s', hrun', hexact⟩ := loadSegments_exact separate_bareMachine hb
    (by decide : oneSegment.length < 2 ^ 32) 1 0
  rw [hrun'] at hload
  obtain rfl : r = some 9 := Option.some.inj hload
  exact ⟨s, d, hb, by decide, s', hrun', hexact 9 rfl⟩

end Xv6.Vm
