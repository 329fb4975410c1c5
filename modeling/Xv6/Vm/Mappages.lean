import Xv6.Vm.Paging
import Mathlib.Algebra.GroupWithZero.Nat

/-!
# Page tables as finite maps

`mappages` over a range of virtual addresses that need not be aligned and may end at the last byte
of the address space. Its counters `a` and `pa` are 32-bit numbers, and it leaves the loop when `a`
equals the last page, just before `a` would wrap. `mapLoop32` has the counters and the test as the
source has them, and an explicit number of rounds; `none` means that they did not suffice.

Nothing is assumed of an address space but that its page tables are distinct pages which `kalloc`
does not hand out: the pages behind the entries may be shared.
-/

namespace Xv6.Vm

open Footprint Hoare Function

/-! ### The code -/

/-- The loop of `mappages` with 32-bit counters; `none` if the rounds do not suffice. -/
def mapLoop32 (pgdir perm last : ℕ) : ℕ → ℕ → ℕ → VmM (Option Bool)
  | 0, _, _ => return none
  | fuel + 1, a, pp => do
    match ← walkpgdir pgdir a true with
    | none => return some false
    | some (t, j) => do
      let pte ← load t j
      if Present pte then throw .remap
      else do
        store t j (mkEntry pp perm)
        if a = last then return some true
        else mapLoop32 pgdir perm last fuel ((a + PGSIZE) % 2 ^ 32) ((pp + 1) % 2 ^ 20)

/-- `mappages` for at most `fuel` rounds. -/
def mappages32 (fuel pgdir va size pp perm : ℕ) : VmM (Option Bool) :=
  mapLoop32 pgdir perm (PGROUNDDOWN ((va + size - 1) % 2 ^ 32)) fuel (PGROUNDDOWN va) pp

/-- What `walkpgdir(a, 0)` finds: the physical page and the flags. -/
def translate (s : Mem) (d a : ℕ) : Option (ℕ × ℕ) :=
  match walkpgdir d a false s with
  | .ok (some (t, j), _) =>
    if Present (s.word t j) then some (pageOf (s.word t j), flagsOf (s.word t j)) else none
  | _ => none

/-! ### The map -/

variable {s s' : Mem} {d n m p perm fuel a : ℕ} {E : Panic → Prop}

def meaning (w : ℕ) : Option (ℕ × ℕ) := if Present w then some (pageOf w, flagsOf w) else none

theorem translate_eq (h : a < 2 ^ 32) : translate s d a = meaning (entry s d (a / PGSIZE)) := by
  have hrun : wp (walkpgdir d a false) (fun r s' => s' = s ∧
      (r = none → ¬ Present (s.word d (a / PGSIZE / 1024))) ∧
      ∀ t j, r = some (t, j) → At s d (a / PGSIZE) t j) (fun _ => False) s := by
    refine wp_walkpgdir h (fun hno => ⟨rfl, fun _ => hno, fun _ _ heq => by cases heq⟩) ?_
    intro t j hat
    refine ⟨rfl, fun heq => absurd heq (Option.some_ne_none _), fun t' j' heq => ?_⟩
    cases heq
    exact hat
  obtain ⟨r, s', hok, rfl, hnone, hsome⟩ := wp_ok.mp hrun
  unfold translate meaning
  rw [hok]
  cases r with
  | none => rw [entry, if_neg (hnone rfl), if_neg not_present_zero]
  | some tj => rw [← (hsome tj.1 tj.2 rfl).word_eq]

theorem meaning_mkEntry (hperm : perm < 4096) :
    meaning (mkEntry p perm) = some (p, perm / 2 * 2 + 1) := by
  have hflags : flagsOf (mkEntry p perm) = perm / 2 * 2 + 1 := by
    unfold flagsOf mkEntry
    omega
  rw [meaning, if_pos present_mkEntry, pageOf_mkEntry hperm, hflags]

/-! ### Page tables and free pages -/

/-- The page tables are distinct pages, and `kalloc` hands out other pages, each once. -/
structure Tables (s : Mem) (d : ℕ) : Prop extends Distinct s d where
  free : ∀ x ∈ s.freelist, ¬ IsTable s d x
  nodup : s.freelist.Nodup

theorem Tables.congr (h : Tables s d) (hdir : s'.word d = s.word d)
    (hfree : s'.freelist.Sublist s.freelist) : Tables s' d := by
  refine ⟨⟨?_, ?_⟩, fun x hx => ?_, h.nodup.sublist hfree⟩
  · rw [hdir]
    exact h.ne_dir
  · rw [hdir]
    exact h.inj
  · unfold IsTable
    rw [hdir]
    exact h.free x (hfree.subset hx)

theorem Tables.install {i r : ℕ} {next : List ℕ} (h : Tables s d) (hlist : s.freelist = r :: next)
    (hi : i < NPDENTRIES) (hperm : perm < 4096)
    (hdir : s'.word d = update (s.word d) i (mkEntry r perm))
    (hnext : s'.freelist = next) : Tables s' d := by
  have hr : ¬ IsTable s d r := h.free r (by rw [hlist]; exact List.mem_cons_self)
  have hnodup : (r :: next).Nodup := hlist ▸ h.nodup
  have hself : pageOf (s'.word d i) = r := by
    rw [hdir, update_self, pageOf_mkEntry hperm]
  have hother : ∀ j, j ≠ i → s'.word d j = s.word d j := fun j hj => by
    rw [hdir, update_of_ne hj]
  -- an old table is not the new one
  have hold : ∀ j, j < NPDENTRIES → j ≠ i → Present (s'.word d j) → pageOf (s'.word d j) ≠ r := by
    intro j hj hji hp heq
    rw [hother j hji] at hp heq
    exact hr (.inr ⟨j, hj, hp, heq⟩)
  refine ⟨⟨fun j hj hp => ?_, fun j k hj hk hpj hpk heq => ?_⟩, fun x hx => ?_, ?_⟩
  · rcases eq_or_ne j i with rfl | hji
    · rw [hself]
      exact fun heq => hr (.inl heq)
    · rw [hother j hji] at hp ⊢
      exact h.ne_dir j hj hp
  · rcases eq_or_ne j i with rfl | hji
    · by_contra hne
      exact hold k hk (Ne.symm hne) hpk (heq.symm.trans hself)
    rcases eq_or_ne k i with rfl | hki
    · exact absurd (heq.trans hself) (hold j hj hji hpj)
    · rw [hother j hji] at hpj heq
      rw [hother k hki] at hpk heq
      exact h.inj j k hj hk hpj hpk heq
  · rw [hnext] at hx
    have hfree := h.free x (by rw [hlist]; exact List.mem_cons_of_mem r hx)
    rintro (hxd | ⟨j, hj, hp, hpage⟩)
    · exact hfree (.inl hxd)
    rcases eq_or_ne j i with rfl | hji
    · rw [hself] at hpage
      rw [← hpage] at hx
      exact (List.nodup_cons.mp hnodup).1 hx
    · rw [hother j hji] at hp hpage
      exact hfree (.inr ⟨j, hj, hp, hpage⟩)
  · rw [hnext]
    exact (List.nodup_cons.mp hnodup).2

/-! ### One round -/

/-- The state after `walkpgdir(a, 1)`: the same map. -/
structure Same (s s' : Mem) (d : ℕ) : Prop where
  tables : Tables s' d
  entries : SameEntries s s' d

theorem wp_kalloc_cases {Q : ℕ → Mem → Prop} (hfail : Q 0 { s with fails := s.fails.tail })
    (hok : ∀ r next, s.freelist = r :: next →
      Q r { s with freelist := next, fails := s.fails.tail }) :
    wp kalloc Q E s := by
  unfold kalloc
  rw [wp_bind, wp_get, wp_ite]
  split
  · exact hfail
  · split
    · exact hfail
    · next r next hlist => exact hok r next hlist

theorem wp_walkpgdir_same (ha : a < 2 ^ 32) (h : Tables s d) :
    wp (walkpgdir d a true) (fun r s' => Same s s' d ∧
      ∀ t j, r = some (t, j) → At s' d (a / PGSIZE) t j) E s := by
  have hslot := div_lt_NPDENTRIES (vpage_lt ha)
  unfold walkpgdir
  rw [PDX_eq ha, PTX_eq, wp_bind, wp_load, wp_ite]
  split
  · next hp =>
    refine ⟨⟨h, fun _ _ => rfl⟩, fun t j heq => ?_⟩
    cases heq
    exact ⟨hp, rfl, rfl⟩
  next hno =>
  rw [wp_ite, if_neg (by decide), wp_bind]
  refine wp_kalloc_cases ?_ fun r next hlist => ?_
  · rw [wp_ite, if_pos rfl]
    exact ⟨⟨h.congr rfl (List.Sublist.refl _), fun _ _ => rfl⟩, fun _ _ heq => by cases heq⟩
  rw [wp_ite]
  have hr : ¬ IsTable s d r := h.free r (by rw [hlist]; exact List.mem_cons_self)
  set s₁ : Mem := { s with freelist := next, fails := s.fails.tail } with hs₁
  have hsub : s₁.freelist.Sublist s.freelist := by
    rw [hlist]
    exact List.sublist_cons_self r next
  have h₁ : Tables s₁ d := h.congr rfl hsub
  split
  · exact ⟨⟨h₁, fun _ _ => rfl⟩, fun _ _ heq => by cases heq⟩
  have hrd : r ≠ d := fun heq => hr (.inl heq)
  rw [wp_bind, wp_fill, wp_bind, wp_store, wp_pure]
  have hdir : (s₁.fill r fun _ => 0).word d = s.word d := word_fill_of_ne _ hrd.symm
  have h₂ : Tables (s₁.fill r fun _ => 0) d := h₁.congr hdir (List.Sublist.refl _)
  have hdir₃ : ((s₁.fill r fun _ => 0).store d (a / PGSIZE / 1024)
      (mkEntry r (PTE_W + PTE_U))).word d = update (s.word d) (a / PGSIZE / 1024)
        (mkEntry r (PTE_W + PTE_U)) := by
    rw [Mem.store, word_fill_self, hdir]
  refine ⟨⟨h.install hlist hslot (by decide) hdir₃ rfl, fun n hn => ?_⟩, fun t j heq => ?_⟩
  · rw [h₂.toDistinct.install (by decide) (by rwa [hdir]) (word_fill_self _) hrd n hn,
      (space_fill (s := s₁) hr fun _ => 0).2 n hn]
    rfl
  cases heq
  refine ⟨?_, ?_, rfl⟩
  · rw [hdir₃, update_self]
    exact present_mkEntry
  · rw [hdir₃, update_self, pageOf_mkEntry (by decide)]

/-- The page of the entry `k` pages into the range. -/
def framed (pp k : ℕ) : ℕ := (pp + k) % 2 ^ 20

theorem framed_zero {pp : ℕ} (h : pp < 2 ^ 20) : framed pp 0 = pp := Nat.mod_eq_of_lt h

theorem framed_succ (pp k : ℕ) : framed ((pp + 1) % 2 ^ 20) k = framed pp (k + 1) := by
  unfold framed
  omega

/-- Entries outside `n` to `last` are as before. -/
def Outside (s s' : Mem) (d n last : ℕ) : Prop :=
  ∀ m < VPAGES, m < n ∨ last < m → entry s' d m = entry s d m

/-- Entries `n` to `last` are new, and the others are as before. -/
structure MappedRange (s s' : Mem) (d n last pp perm : ℕ) : Prop where
  inside : ∀ m, n ≤ m → m ≤ last → entry s' d m = mkEntry (framed pp (m - n)) perm
  outside : Outside s s' d n last

section Round

variable {last pp : ℕ}

structure Put (s s' : Mem) (d n w : ℕ) : Prop where
  tables : Tables s' d
  entries : ∀ m < VPAGES, entry s' d m = if m = n then w else entry s d m

theorem Same.put {t j w : ℕ} (h : Same s s' d) (hn : n < VPAGES) (hat : At s' d n t j) :
    Put s (s'.store t j w) d n w := by
  obtain ⟨hp, rfl, rfl⟩ := hat
  obtain ⟨hdir, hentry⟩ := h.tables.toDistinct.setEntry hn hp w
  refine ⟨h.tables.congr hdir (List.Sublist.refl _), fun m hm => ?_⟩
  rw [hentry m hm, h.entries m hm]

theorem Put.outside {w : ℕ} (h : Put s s' d n w) (hle : n ≤ last) : Outside s s' d n last := by
  intro m hm hout
  rw [h.entries m hm, if_neg (by omega)]

theorem Put.mapped_self (h : Put s s' d n (mkEntry pp perm)) (hn : n < VPAGES)
    (hpp : pp < 2 ^ 20) : MappedRange s s' d n n pp perm := by
  refine ⟨fun m hge hle => ?_, h.outside le_rfl⟩
  obtain rfl : m = n := le_antisymm hle hge
  rw [h.entries m hn, if_pos rfl, Nat.sub_self, framed_zero hpp]

theorem Put.outside_trans {w : ℕ} {s'' : Mem} (h : Put s s' d n w)
    (h' : Outside s' s'' d (n + 1) last) (hle : n ≤ last) : Outside s s'' d n last := by
  intro m hm hout
  rw [h' m hm (by omega), h.outside hle m hm hout]

theorem Put.mapped_trans {s'' : Mem} (h : Put s s' d n (mkEntry pp perm)) (hlast : last < VPAGES)
    (hpp : pp < 2 ^ 20) (hle : n ≤ last)
    (h' : MappedRange s' s'' d (n + 1) last ((pp + 1) % 2 ^ 20) perm) :
    MappedRange s s'' d n last pp perm := by
  refine ⟨fun m hge hml => ?_, h.outside_trans h'.outside hle⟩
  rcases eq_or_lt_of_le hge with rfl | hlt
  · have hn : n < VPAGES := lt_of_le_of_lt hml hlast
    rw [h'.outside n hn (.inl (Nat.lt_succ_self n)), h.entries n hn, if_pos rfl, Nat.sub_self,
      framed_zero hpp]
  · rw [h'.inside m hlt hml, framed_succ]
    congr 2
    omega

theorem succ_page (h : n + 1 < VPAGES) : (PGSIZE * n + PGSIZE) % 2 ^ 32 = PGSIZE * (n + 1) := by
  unfold VPAGES at h
  unfold PGSIZE
  omega

theorem wp_mapLoop32_succ {Q : Option Bool → Mem → Prop} (hn : n < VPAGES) (h : Tables s d)
    (hnew : ¬ Present (entry s d n)) (hfail : ∀ s', Same s s' d → Q (some false) s')
    (hput : ∀ s', Put s s' d n (mkEntry pp perm) → wp (if PGSIZE * n = last then pure (some true)
        else mapLoop32 d perm last fuel ((PGSIZE * n + PGSIZE) % 2 ^ 32) ((pp + 1) % 2 ^ 20))
        Q E s') : wp (mapLoop32 d perm last (fuel + 1) (PGSIZE * n) pp) Q E s := by
  have hdiv : PGSIZE * n / PGSIZE = n := Nat.mul_div_cancel_left n (by decide)
  have ha : PGSIZE * n < 2 ^ 32 := by
    unfold VPAGES at hn
    unfold PGSIZE
    omega
  rw [mapLoop32, wp_bind]
  refine (wp_walkpgdir_same ha h).imp ?_
  rintro r s₁ ⟨hsame, hat⟩
  cases r with
  | none => exact hfail s₁ hsame
  | some tj =>
  obtain ⟨t, j⟩ := tj
  have hat := hat t j rfl
  rw [hdiv] at hat
  have hpte : ¬ Present (s₁.word t j) := by
    rwa [hat.word_eq, hsame.entries n hn]
  dsimp only
  rw [wp_bind, wp_load, wp_ite, if_neg hpte, wp_bind, wp_store]
  exact hput _ (hsame.put hn hat)

theorem wp_mapLoop32 (hlast : last < VPAGES) :
    ∀ fuel n pp s, n ≤ last → last - n < fuel → pp < 2 ^ 20 → Tables s d →
      (∀ m, n ≤ m → m ≤ last → ¬ Present (entry s d m)) →
      wp (mapLoop32 d perm (PGSIZE * last) fuel (PGSIZE * n) pp) (fun r s' => ∃ ok, r = some ok ∧
        Outside s s' d n last ∧ (ok = true → MappedRange s s' d n last pp perm))
        (fun _ => False) s := by
  intro fuel
  induction fuel with
  | zero => exact fun n pp s _ hfuel => absurd hfuel (Nat.not_lt_zero _)
  | succ fuel ih =>
  intro n pp s hle hfuel hpp h hnew
  have hn : n < VPAGES := lt_of_le_of_lt hle hlast
  refine wp_mapLoop32_succ hn h (hnew n le_rfl hle) (fun s' hsame => ?_) fun s' hput => ?_
  · exact ⟨false, rfl, fun m hm _ => hsame.entries m hm, fun hf => by cases hf⟩
  rw [wp_ite]
  split
  · next heq =>
    obtain rfl : n = last := Nat.eq_of_mul_eq_mul_left (by decide) heq
    exact ⟨true, rfl, hput.outside hle, fun _ => hput.mapped_self hn hpp⟩
  next hne =>
  have hlt : n < last := lt_of_le_of_ne hle fun heq => hne (by rw [heq])
  rw [succ_page (lt_of_le_of_lt hlt hlast)]
  refine (ih (n + 1) ((pp + 1) % 2 ^ 20) s' hlt (by omega) (Nat.mod_lt _ (by decide))
    hput.tables fun m hge hml => ?_).imp ?_
  · rw [hput.entries m (lt_of_le_of_lt hml hlast), if_neg (by omega)]
    exact hnew m (by omega) hml
  · rintro r s'' ⟨ok, rfl, hout, hmapped⟩
    exact ⟨ok, rfl, hput.outside_trans hout hle,
      fun hok => hput.mapped_trans hlast hpp hle (hmapped hok)⟩

theorem mapLoop32_mono {ok : Bool} (k : ℕ) : ∀ fuel a pp s,
    mapLoop32 d perm last fuel a pp s = .ok (some ok, s') →
      mapLoop32 d perm last (fuel + k) a pp s = .ok (some ok, s') := by
  intro fuel
  induction fuel with
  | zero => exact fun a pp s h => by cases h
  | succ fuel ih =>
  intro a pp s h
  rw [Nat.add_right_comm]
  rw [mapLoop32] at h ⊢
  cases hwalk : walkpgdir d a true s with
  | error e =>
    simp only [bind, StateT.bind, hwalk, Except.bind] at h
    cases h
  | ok rs =>
  obtain ⟨r, s₁⟩ := rs
  rw [bind_of_ok hwalk] at h ⊢
  cases r with
  | none => exact h
  | some tj =>
  have hload : load tj.1 tj.2 s₁ = .ok (s₁.word tj.1 tj.2, s₁) := rfl
  dsimp only at h ⊢
  rw [bind_of_ok hload] at h ⊢
  split at h
  · cases h
  next hp =>
  rw [if_neg hp]
  have hstore : store tj.1 tj.2 (mkEntry pp perm) s₁ =
      .ok ((), s₁.store tj.1 tj.2 (mkEntry pp perm)) := rfl
  rw [bind_of_ok hstore] at h ⊢
  split at h
  · next heq =>
    rw [if_pos heq]
    exact h
  next hne =>
  rw [if_neg hne]
  exact ih _ _ _ h

end Round

/-! ### The whole range -/

section Range

variable {va size pp : ℕ}

/-- Address `a` is on a page of the range. -/
def InRange (va size a : ℕ) : Prop :=
  va / PGSIZE ≤ a / PGSIZE ∧ a / PGSIZE ≤ (va + size - 1) / PGSIZE

instance (va size a : ℕ) : Decidable (InRange va size a) := inferInstanceAs (Decidable (_ ∧ _))

theorem mappages32_unfold (hfits : va + size ≤ 2 ^ 32) : mappages32 fuel d va size pp perm =
      mapLoop32 d perm (PGSIZE * ((va + size - 1) / PGSIZE)) fuel (PGSIZE * (va / PGSIZE)) pp := by
  have hmod : (va + size - 1) % 2 ^ 32 = va + size - 1 := Nat.mod_eq_of_lt (by omega)
  have hdown : ∀ x, PGROUNDDOWN x = PGSIZE * (x / PGSIZE) := fun x => by
    unfold PGROUNDDOWN PGSIZE
    omega
  rw [mappages32, hmod, hdown, hdown]

/-- **Page tables are finite maps.** For a range that does not run over the end of the address
space (it may end there) and of which nothing is mapped, `mappages` returns, whatever `kalloc` does.
If it returns 0 then every page of the range is translated to the page at the same distance from
the first one, with the permissions given; the other addresses are translated as before, also if it
returns -1. -/
theorem mappages_finite_map (h : Tables s d) (hsize : 0 < size) (hfits : va + size ≤ 2 ^ 32)
    (hpp : pp < 2 ^ 20) (hperm : perm < 4096)
    (hnew : ∀ a < 2 ^ 32, InRange va size a → translate s d a = none) :
    ∃ ok s', (∀ fuel, (va + size - 1) / PGSIZE - va / PGSIZE < fuel →
        mappages32 fuel d va size pp perm s = .ok (some ok, s')) ∧
      (ok = true → ∀ a < 2 ^ 32, InRange va size a → translate s' d a =
        some ((pp + (a / PGSIZE - va / PGSIZE)) % 2 ^ 20, perm / 2 * 2 + 1)) ∧
      ∀ a < 2 ^ 32, ¬ InRange va size a → translate s' d a = translate s d a := by
  set first := va / PGSIZE with hfirst
  set last := (va + size - 1) / PGSIZE with hlast
  have hlt : last < VPAGES := vpage_lt (by omega)
  have hle : first ≤ last := Nat.div_le_div_right (by omega)
  have hpage : ∀ m, PGSIZE * m / PGSIZE = m := fun m => Nat.mul_div_cancel_left m (by decide)
  have habsent : ∀ m, first ≤ m → m ≤ last → ¬ Present (entry s d m) := by
    intro m hge hml hp
    have haddr : PGSIZE * m < 2 ^ 32 := by
      unfold VPAGES at hlt
      unfold PGSIZE
      omega
    have hnone := hnew (PGSIZE * m) haddr ⟨by rwa [hpage], by rwa [hpage]⟩
    rw [translate_eq haddr, hpage, meaning, if_pos hp] at hnone
    cases hnone
  have hloop := @wp_mapLoop32 d perm last hlt
  obtain ⟨r, s', hrun, ok, rfl, hout, hmapped⟩ := wp_ok.mp
    (hloop (last - first + 1) first pp s hle (Nat.lt_succ_self _) hpp h habsent)
  refine ⟨ok, s', fun fuel hfuel => ?_, fun hok a ha hin => ?_, fun a ha hnot => ?_⟩
  · obtain ⟨k, rfl⟩ := Nat.exists_eq_add_of_le (Nat.succ_le_of_lt hfuel)
    rw [mappages32_unfold hfits]
    exact mapLoop32_mono k _ _ _ _ hrun
  · rw [translate_eq ha, (hmapped hok).inside _ hin.1 hin.2, meaning_mkEntry hperm, framed]
  · rw [translate_eq ha, translate_eq ha, hout _ (vpage_lt ha)]
    unfold InRange at hnot
    omega

def bare : Mem := ⟨[2, 3], [], fun _ _ => 0⟩

theorem bare_tables : Tables bare 1 := by
  refine ⟨⟨fun _ _ h => absurd h not_present_zero, fun _ _ _ _ h => absurd h not_present_zero⟩,
    fun x hx => ?_, by decide⟩
  rintro (rfl | ⟨i, -, hp, -⟩)
  · exact absurd hx (by decide)
  · exact not_present_zero hp

/-- The last page of the address space. -/
theorem mappages_finite_map_top : ∃ s',
    (∀ fuel, (0xFFFFF000 + 0x1000 - 1) / PGSIZE - 0xFFFFF000 / PGSIZE < fuel →
      mappages32 fuel 1 0xFFFFF000 0x1000 0xFFFFF PTE_W bare = .ok (some true, s')) ∧
    (∀ a < 2 ^ 32, InRange 0xFFFFF000 0x1000 a → translate s' 1 a =
      some ((0xFFFFF + (a / PGSIZE - 0xFFFFF000 / PGSIZE)) % 2 ^ 20, PTE_W / 2 * 2 + 1)) ∧
    ∀ a < 2 ^ 32, ¬ InRange 0xFFFFF000 0x1000 a → translate s' 1 a = translate bare 1 a := by
  obtain ⟨ok, s', hrun, hin, hout⟩ := @mappages_finite_map bare 1 PTE_W 0xFFFFF000 0x1000 0xFFFFF
    bare_tables (by decide) (by decide) (by decide) (by decide) fun a ha _ => by
      rw [translate_eq ha]
      rfl
  have hok : (mappages32 1 1 0xFFFFF000 0x1000 0xFFFFF PTE_W bare).toOption.map Prod.fst =
      some (some true) := by decide +kernel
  rw [hrun 1 (by decide)] at hok
  cases hok
  exact ⟨s', hrun, hin rfl, hout⟩

theorem mapLoop32_eq {last : ℕ} (hlast : last < VPAGES) : ∀ k n pp, n + k = last →
    pp + k < 2 ^ 20 → mapLoop32 d perm (PGSIZE * last) (k + 1) (PGSIZE * n) pp =
      some <$> mapLoop d perm (PGSIZE * last) (k + 1) (PGSIZE * n) pp := by
  intro k
  induction k with
  | zero =>
    rintro n pp rfl _
    rw [mapLoop32, mapLoop, map_bind]
    refine bind_congr fun r => ?_
    cases r with
    | none => rfl
    | some tj =>
    dsimp only
    rw [map_bind]
    refine bind_congr fun pte => ?_
    split
    · rfl
    · rw [map_bind, Nat.add_zero, if_pos rfl, if_pos rfl]
      rfl
  | succ k ih =>
  intro n pp hk hpp
  have hne : PGSIZE * n ≠ PGSIZE * last := fun heq => by
    have := Nat.eq_of_mul_eq_mul_left (by decide) heq
    omega
  rw [mapLoop32, mapLoop, map_bind]
  refine bind_congr fun r => ?_
  cases r with
  | none => rfl
  | some tj =>
  dsimp only
  rw [map_bind]
  refine bind_congr fun pte => ?_
  split
  · rfl
  · rw [map_bind, succ_page (by omega), Nat.mod_eq_of_lt (by omega),
      ih (n + 1) (pp + 1) (by omega) (by omega), Nat.mul_succ]

theorem mappages32_eq (hsize : 0 < size) (hfits : va + size ≤ 2 ^ 32)
    (hpp : pp + ((va + size - 1) / PGSIZE - va / PGSIZE) < 2 ^ 20) :
    mappages32 ((va + size - 1) / PGSIZE - va / PGSIZE + 1) d va size pp perm =
      some <$> mappages d va size pp perm := by
  have hle : va / PGSIZE ≤ (va + size - 1) / PGSIZE := Nat.div_le_div_right (by omega)
  have hdown : ∀ x, PGROUNDDOWN x = PGSIZE * (x / PGSIZE) := fun x => by
    unfold PGROUNDDOWN PGSIZE
    omega
  have hdiff : (PGSIZE * ((va + size - 1) / PGSIZE) - PGSIZE * (va / PGSIZE)) / PGSIZE =
      (va + size - 1) / PGSIZE - va / PGSIZE := by
    rw [← Nat.mul_sub, Nat.mul_div_cancel_left _ (by decide)]
  rw [mappages32_unfold hfits, mappages, hdown, hdown, hdiff]
  exact mapLoop32_eq (vpage_lt (by omega)) _ _ _ (Nat.add_sub_cancel' hle) hpp

end Range

end Xv6.Vm
