import Mathlib.Data.List.Count
import Mathlib.Data.Finset.Max
import Xv6.Lib.Cyclic
import Xv6.Lib.Run

/-!
# The allocator of user programs

`umalloc.c`. Free blocks are on a circular list in the order of their addresses, with one block of
size zero, `base`, below all others. `freep` points to some block of the list, and both `malloc` and
`free` search from there. `malloc` takes the first block that is large enough, or the end of it;
`free` puts a block back where it belongs and joins it with the blocks next to it. Where there is no
large block, `morecore` gets memory from `sbrk` and frees it.

A block is its header, at its address, and the memory behind it; sizes are in units of a header.
The number of rounds of a loop is bounded by an argument, and a loop that does not end within the
bound has no result. Besides what the code stores, the model keeps the memory that `sbrk` gave and
the blocks that are in use.
-/

namespace Xv6.Umalloc

open Cyclic Function List Option

/-! ### The code -/

structure Heap where
  /-- `s.ptr` of the header at an address. -/
  ptr : ℕ → ℕ
  /-- `s.size` of it. -/
  size : ℕ → ℕ
  freep : ℕ
  /-- The regions that `sbrk` gave, with their sizes in units. -/
  obtained : List (ℕ × ℕ)

namespace Heap

variable (h : Heap)

def setPtr (a x : ℕ) : Heap := { h with ptr := update h.ptr a x }

def setSize (a n : ℕ) : Heap := { h with size := update h.size a n }

def setFreep (p : ℕ) : Heap := { h with freep := p }

/-- The loop of `free` ends at `p`: because its condition fails, or with `break`. -/
def Fits (bp p : ℕ) : Prop :=
  (p < bp ∧ bp < h.ptr p) ∨ (h.ptr p ≤ p ∧ (p < bp ∨ bp < h.ptr p))

instance (bp : ℕ) : DecidablePred (h.Fits bp) :=
  fun _ => inferInstanceAs (Decidable (_ ∨ _))

def joinUpper (p bp : ℕ) : Heap :=
  if bp + 8 * h.size bp = h.ptr p then
    (h.setSize bp (h.size bp + h.size (h.ptr p))).setPtr bp (h.ptr (h.ptr p))
  else h.setPtr bp (h.ptr p)

def joinLower (p bp : ℕ) : Heap :=
  if p + 8 * h.size p = bp then (h.setSize p (h.size p + h.size bp)).setPtr p (h.ptr bp)
  else h.setPtr p bp

end Heap

def free (fuel : ℕ) (h : Heap) (ap : ℕ) : Option Heap :=
  let bp := ap - 8
  (search h.ptr (h.Fits bp) fuel h.freep).map fun p =>
    ((h.joinUpper p bp).joinLower p bp).setFreep p

/-- `none` where `sbrk` fails; `sbrk` is what it answers. -/
def morecore (fuel : ℕ) (h : Heap) (nu : ℕ) (sbrk : Option ℕ) : Option (Option Heap) :=
  let nu := if nu < 4096 then 4096 else nu
  match sbrk with
  | none => some none
  | some hp =>
    let h := { h with obtained := (hp, nu) :: h.obtained }
    (free fuel (h.setSize hp nu) (hp + 8)).map some

/-- The block `p`, or the end of it, leaves the list. -/
def carve (h : Heap) (nunits prevp p : ℕ) : ℕ × Heap :=
  if h.size p = nunits then (p + 8, (h.setPtr prevp (h.ptr p)).setFreep prevp)
  else
    let h := h.setSize p (h.size p - nunits)
    let p := p + 8 * h.size p
    (p + 8, (h.setSize p nunits).setFreep prevp)

/-- The loop of `malloc`; `calls` are the calls of `sbrk` so far. -/
def mallocLoop (fuel nunits : ℕ) (sbrk : ℕ → Option ℕ) :
    ℕ → ℕ → Heap → ℕ → ℕ → Option (Option ℕ × Heap)
  | 0, _, _, _, _ => none
  | k + 1, calls, h, prevp, p =>
    if nunits ≤ h.size p then
      let r := carve h nunits prevp p
      some (some r.1, r.2)
    else if p = h.freep then
      match morecore fuel h nunits (sbrk calls) with
      | none => none
      | some none => some (none, h)
      | some (some h') => mallocLoop fuel nunits sbrk k (calls + 1) h' h'.freep (h'.ptr h'.freep)
    else mallocLoop fuel nunits sbrk k calls h p (h.ptr p)

/-- `(nbytes + sizeof(Header) - 1)/sizeof(Header) + 1` -/
def unitsOf (nbytes : ℕ) : ℕ := (nbytes + 8 - 1) % 2 ^ 32 / 8 + 1

section Base

variable (base : ℕ)

/-- `if(freep == 0){ base.s.ptr = freep = &base; base.s.size = 0; }` -/
def start (h : Heap) : Heap :=
  if h.freep = 0 then ((h.setPtr base base).setSize base 0).setFreep base else h

def malloc (fuel : ℕ) (h : Heap) (nbytes : ℕ) (sbrk : ℕ → Option ℕ) :
    Option (Option ℕ × Heap) :=
  let h := start base h
  mallocLoop fuel (unitsOf nbytes) sbrk fuel 0 h h.freep (h.ptr h.freep)

/-! ### Runs -/

/-- The heap, and the blocks in use: address of the header and size in units. -/
structure State where
  heap : Heap
  live : List (ℕ × ℕ)

inductive Action where
  | malloc (nbytes : ℕ) (sbrk : ℕ → Option ℕ)
  | free (ap : ℕ)

def step (s : State) (a : Action × ℕ) : Option State :=
  match a.1 with
  | .malloc nbytes sbrk =>
    (malloc base a.2 s.heap nbytes sbrk).map fun r =>
      ⟨r.2, match r.1 with
        | none => s.live
        | some ap => (ap - 8, unitsOf nbytes) :: s.live⟩
  | .free ap =>
    (free a.2 s.heap ap).map fun h => ⟨h, s.live.filter fun b => b.1 ≠ ap - 8⟩

/-- A request is not too large, and what `sbrk` answers to it is above `base` and above all that it
gave before; what is freed is a block in use. -/
def Allowed (s : State) (a : Action × ℕ) : Prop :=
  match a.1 with
  | .malloc nbytes sbrk =>
    ((nbytes + 8 - 1) / 8 + 1) * 8 < 2 ^ 31 ∧
      ∀ r, sbrk 0 = some r → base + 8 ≤ r ∧ ∀ b ∈ s.heap.obtained, b.1 + 8 * b.2 ≤ r
  | .free ap => ∃ b ∈ s.live, ap = b.1 + 8

instance (s : State) (a : Action × ℕ) : Decidable (Allowed base s a) := by
  unfold Allowed
  split
  case h_1 nbytes sbrk _ => exact inferInstanceAs (Decidable (_ ∧ ∀ r ∈ sbrk 0, _))
  case h_2 ap _ => infer_instance

def Init (s : State) : Prop := s.heap.freep = 0 ∧ s.heap.obtained = [] ∧ s.live = []

end Base

/-! ### Bytes and blocks -/

/-- Byte `x` is in the block. -/
def Covers (x : ℕ) (b : ℕ × ℕ) : Prop := b.1 ≤ x ∧ x < b.1 + 8 * b.2

instance (x : ℕ) : DecidablePred (Covers x) := fun _ => inferInstanceAs (Decidable (_ ∧ _))

/-- How many of the blocks byte `x` is in. -/
def cover (bs : List (ℕ × ℕ)) (x : ℕ) : ℕ := bs.countP fun b => decide (Covers x b)

def blocks (h : Heap) (R : List ℕ) : List (ℕ × ℕ) := R.map fun q => (q, h.size q)

variable {base : ℕ} {h h' : Heap} {z bp q y n x : ℕ} {l l' R : List ℕ} {X : ℕ → Prop}
  {live bs : List (ℕ × ℕ)} {b : ℕ × ℕ}

theorem cover_cons (b : ℕ × ℕ) (bs : List (ℕ × ℕ)) (x : ℕ) :
    cover (b :: bs) x = cover bs x + cover [b] x := by
  simp only [cover, countP_cons, countP_nil, Nat.zero_add]

theorem cover_singleton (b : ℕ × ℕ) (x : ℕ) : cover [b] x = if Covers x b then 1 else 0 := by
  simp [cover, countP_cons]

theorem not_covers_zero {a : ℕ} : ¬ Covers x (a, 0) := by
  unfold Covers
  dsimp only
  omega

theorem cover_perm {cs : List (ℕ × ℕ)} (h : bs.Perm cs) (x : ℕ) : cover bs x = cover cs x :=
  h.countP_eq _

theorem cover_blocks_perm (hp : l.Perm l') (x : ℕ) : cover (blocks h l) x = cover (blocks h l') x :=
  cover_perm (hp.map _) x

theorem one_le_cover (hb : b ∈ bs) (hx : Covers x b) : 1 ≤ cover bs x :=
  countP_pos_iff.mpr ⟨b, hb, decide_eq_true hx⟩

theorem cover_split (a n m x : ℕ) :
    cover [(a, n + m)] x = cover [(a, n)] x + cover [(a + 8 * n, m)] x := by
  have hiff : Covers x (a, n + m) ↔ Covers x (a, n) ∨ Covers x (a + 8 * n, m) := by
    unfold Covers
    dsimp only
    omega
  have hnot : ¬ (Covers x (a, n) ∧ Covers x (a + 8 * n, m)) := by
    unfold Covers
    dsimp only
    omega
  simp only [cover_singleton, hiff]
  by_cases h₁ : Covers x (a, n)
  · rw [if_pos (.inl h₁), if_pos h₁, if_neg fun h₂ => hnot ⟨h₁, h₂⟩]
  · rw [if_neg h₁, Nat.zero_add]
    simp only [h₁, false_or]

theorem blocks_congr (he : ∀ q ∈ R, h'.size q = h.size q) : blocks h' R = blocks h R :=
  map_congr_left fun q hq => by rw [he q hq]

/-! ### The list of free blocks -/

/-- The list, read from `z`, goes up in addresses until it comes to `base`. Blocks do not overlap,
and outside `X` they do not touch the next one. -/
structure Ring (base : ℕ) (h : Heap) (z : ℕ) (l : List ℕ) (X : ℕ → Prop) : Prop where
  cycle : Seg h.ptr z l z
  nodup : (z :: l).Nodup
  base_mem : base ∈ z :: l
  size_base : h.size base = 0
  pos : ∀ q ∈ z :: l, q ≠ base → base < q ∧ 0 < h.size q
  order : ∀ q ∈ z :: l, h.ptr q = base ∨
    q + 8 * h.size q ≤ h.ptr q ∧ (¬ X q → q + 8 * h.size q ≠ h.ptr q)

section Ring

variable (hr : Ring base h z l X)

include hr

theorem Ring.ptr_mem (hq : q ∈ z :: l) : h.ptr q ∈ z :: l := by
  have hm := hr.cycle.next_mem q hq
  rw [mem_append, mem_singleton] at hm
  rcases hm with hm | hm
  · exact mem_cons_of_mem z hm
  · exact hm ▸ mem_cons_self

theorem Ring.base_le (hq : q ∈ z :: l) : base ≤ q := by
  rcases eq_or_ne q base with rfl | hne
  · exact le_rfl
  · exact (hr.pos q hq hne).1.le

theorem Ring.rotate (hy : y ∈ z :: l) : ∃ l', Ring base h y l' X ∧ (y :: l').Perm (z :: l) := by
  obtain ⟨l', hseg, hperm⟩ := hr.cycle.rotate hy
  have hmem : ∀ q, q ∈ y :: l' → q ∈ z :: l := fun q hq => hperm.mem_iff.mp hq
  exact ⟨l', ⟨hseg, hperm.nodup_iff.mpr hr.nodup, hperm.mem_iff.mpr hr.base_mem, hr.size_base,
    fun q hq => hr.pos q (hmem q hq), fun q hq => hr.order q (hmem q hq)⟩, hperm⟩

theorem Ring.weaken {Y : ℕ → Prop} (hxy : ∀ q, X q → Y q) : Ring base h z l Y :=
  { hr with
    order := fun q hq => (hr.order q hq).imp_right fun ho =>
      ⟨ho.1, fun hno => ho.2 fun hx => hno (hxy q hx)⟩ }

theorem Ring.congr (hptr : h'.ptr = h.ptr) (hsize : h'.size = h.size) : Ring base h' z l X := by
  obtain ⟨hc, hn, hb, hs, hp, ho⟩ := hr
  refine ⟨hptr ▸ hc, hn, hb, hsize ▸ hs, ?_, ?_⟩
  · rw [hsize]
    exact hp
  · rw [hsize, hptr]
    exact ho

theorem Ring.gap (hq : q ∈ z :: l) (hne : h.ptr q ≠ base) :
    q + 8 * h.size q ≤ h.ptr q := ((hr.order q hq).resolve_left hne).1

theorem Ring.lt_ptr (hq : q ∈ z :: l) (hne : h.ptr q ≠ base) : q < h.ptr q := by
  rcases eq_or_ne q base with rfl | hqb
  · exact (hr.pos _ (hr.ptr_mem hq) hne).1
  · have hgap := hr.gap hq hne
    have hpos := (hr.pos q hq hqb).2
    omega

theorem Ring.exists_below (hbp : base < bp) :
    ∃ p ∈ z :: l, p < bp ∧ ∀ q ∈ z :: l, q < bp → q ≤ p := by
  have hne : ((z :: l).toFinset.filter fun q => q < bp).Nonempty :=
    ⟨base, Finset.mem_filter.mpr ⟨mem_toFinset.mpr hr.base_mem, hbp⟩⟩
  obtain ⟨hmem, hlt⟩ := Finset.mem_filter.mp (Finset.max'_mem _ hne)
  refine ⟨_, mem_toFinset.mp hmem, hlt, fun q hq hqb => Finset.le_max' _ q ?_⟩
  exact Finset.mem_filter.mpr ⟨mem_toFinset.mpr hq, hqb⟩

/-- The search of `free` ends at the block behind which `bp` belongs. -/
theorem Ring.search (hbp : base < bp) (hnot : bp ∉ z :: l) {fuel : ℕ} (hfuel : l.length < fuel) :
    ∃ p ∈ z :: l, search h.ptr (h.Fits bp) fuel z = some p ∧ p < bp ∧
      (h.ptr p ≠ base → bp < h.ptr p) := by
  have hexists : ∃ p ∈ z :: l, h.Fits bp p := by
    obtain ⟨p, hp, hlt, hlast⟩ := hr.exists_below hbp
    refine ⟨p, hp, ?_⟩
    by_cases hb : h.ptr p = base
    · exact .inr ⟨hb ▸ hr.base_le hp, .inl hlt⟩
    refine .inl ⟨hlt, ?_⟩
    by_contra hge
    have hnext := hr.ptr_mem hp
    have hne : h.ptr p ≠ bp := fun heq => hnot (heq ▸ hnext)
    have hup := hr.lt_ptr hp hb
    have hmax := hlast _ hnext (by omega)
    omega
  obtain ⟨p, hp, hfits, hrun⟩ := hr.cycle.exists_search hexists fuel hfuel
  have hbase := hr.base_le hp
  by_cases hb : h.ptr p = base
  · refine ⟨p, hp, hrun, ?_, fun hne => absurd hb hne⟩
    unfold Heap.Fits at hfits
    omega
  · have hup := hr.lt_ptr hp hb
    unfold Heap.Fits at hfits
    exact ⟨p, hp, hrun, by omega, fun _ => by omega⟩

end Ring

/-! ### Putting a block in -/

/-- `bp` behind `z`. -/
def Heap.link (h : Heap) (z bp : ℕ) : Heap := (h.setPtr bp (h.ptr z)).setPtr z bp

def Heap.absorb (h : Heap) (q : ℕ) : Heap :=
  if q + 8 * h.size q = h.ptr q then
    (h.setSize q (h.size q + h.size (h.ptr q))).setPtr q (h.ptr (h.ptr q))
  else h

theorem joins_eq (hne : bp ≠ z) (hz : bp + 8 * h.size bp = h.ptr z → h.ptr z ≠ z ∧ h.ptr z ≠ bp) :
    (h.joinUpper z bp).joinLower z bp = ((h.link z bp).absorb bp).absorb z := by
  have hptr : (h.link z bp).ptr bp = h.ptr z := by
    simp only [Heap.link, Heap.setPtr, update_of_ne hne, update_self]
  by_cases hup : bp + 8 * h.size bp = h.ptr z
  · obtain ⟨hzz, hzb⟩ := hz hup
    have hnext : (h.link z bp).ptr (h.ptr z) = h.ptr (h.ptr z) := by
      simp only [Heap.link, Heap.setPtr, update_of_ne hzz, update_of_ne hzb]
    have habs : (h.link z bp).absorb bp =
        ((h.link z bp).setSize bp (h.size bp + h.size (h.ptr z))).setPtr bp (h.ptr (h.ptr z)) := by
      rw [Heap.absorb, hptr, hnext]
      exact if_pos hup
    rw [habs, Heap.joinUpper, if_pos hup, Heap.joinLower, Heap.absorb]
    simp only [Heap.link, Heap.setPtr, Heap.setSize, update_self, update_of_ne hne.symm]
    split
    · simp only [update_comm hne, update_idem]
    · simp only [update_comm hne, update_idem]
  · have habs : (h.link z bp).absorb bp = h.link z bp := by
      rw [Heap.absorb, hptr]
      exact if_neg hup
    rw [habs, Heap.joinUpper, if_neg hup, Heap.joinLower, Heap.absorb]
    simp only [Heap.link, Heap.setPtr, Heap.setSize, update_self, update_of_ne hne]
    split
    · simp only [update_idem]
    · rfl

/-- A block is put behind the one that the search found. -/
theorem Ring.link (hr : Ring base h z l fun _ => False) (hbp : base < bp) (hsize : 0 < h.size bp)
    (hnot : bp ∉ z :: l) (hlow : z + 8 * h.size z ≤ bp)
    (hup : h.ptr z ≠ base → bp + 8 * h.size bp ≤ h.ptr z) :
    Ring base (h.link z bp) z (bp :: l) fun q => q = z ∨ q = bp := by
  have hzl := (nodup_cons.mp hr.nodup).1
  have hne : bp ≠ z := fun he => hnot (he ▸ mem_cons_self)
  have hptr_bp : (h.link z bp).ptr bp = h.ptr z := by
    simp only [Heap.link, Heap.setPtr, update_of_ne hne, update_self]
  have hptr_z : (h.link z bp).ptr z = bp := update_self ..
  have hptr : ∀ q, q ≠ z → q ≠ bp → (h.link z bp).ptr q = h.ptr q := by
    intro q hqz hqb
    simp only [Heap.link, Heap.setPtr, update_of_ne hqz, update_of_ne hqb]
  have hmem : ∀ q, q ∈ z :: bp :: l ↔ q = bp ∨ q ∈ z :: l := by
    intro q
    simp only [mem_cons]
    tauto
  refine ⟨hr.cycle.insert hzl hnot, ?_, (hmem base).mpr (.inr hr.base_mem), hr.size_base,
    fun q hq hqb => ?_, fun q hq => ?_⟩
  · have hperm : (z :: bp :: l).Perm (bp :: z :: l) := List.Perm.swap ..
    exact hperm.nodup_iff.mpr (nodup_cons.mpr ⟨hnot, hr.nodup⟩)
  · rcases (hmem q).mp hq with rfl | hq
    · exact ⟨hbp, hsize⟩
    · exact hr.pos q hq hqb
  rcases eq_or_ne q bp with rfl | hqb
  · rw [hptr_bp]
    by_cases hb : h.ptr z = base
    · exact .inl hb
    · exact .inr ⟨hup hb, fun hx => absurd (.inr rfl) hx⟩
  rcases eq_or_ne q z with rfl | hqz
  · rw [hptr_z]
    exact .inr ⟨hlow, fun hx => absurd (.inl rfl) hx⟩
  · rw [hptr q hqz hqb]
    refine (hr.order q (((hmem q).mp hq).resolve_left hqb)).imp_right fun ho => ?_
    exact ⟨ho.1, fun _ => ho.2 id⟩

structure Absorbs (base : ℕ) (h : Heap) (q : ℕ) (l : List ℕ) (X : ℕ → Prop) (h' : Heap)
    (l' : List ℕ) : Prop where
  ring : Ring base h' q l' fun y => X y ∧ y ≠ q
  length : l'.length ≤ l.length
  cover : ∀ x, cover (blocks h' (q :: l')) x = cover (blocks h (q :: l)) x
  large : ∀ y ∈ q :: l, ∃ y' ∈ q :: l', h.size y ≤ h'.size y'
  keeps : ∀ y ∈ q :: l, y ∈ q :: l' ∨ q + 8 * h.size q = y
  size : ∀ y, y ≠ q → h'.size y = h.size y
  ptr : ∀ y, y ≠ q → h'.ptr y = h.ptr y
  obtained : h'.obtained = h.obtained

theorem cover_blocks_cons_cons (h : Heap) (z y : ℕ) (l : List ℕ) (x : ℕ) :
    cover (blocks h (z :: y :: l)) x = cover (blocks h l) x +
      cover [(y, h.size y)] x + cover [(z, h.size z)] x := by
  rw [← cover_cons, ← cover_cons]
  rfl

theorem Ring.absorb_next (hr : Ring base h q (y :: l) X) (htouch : q + 8 * h.size q = y)
    (hx : ¬ X y) (hne : y ≠ base) (hlt : q < y) : Absorbs base h q (y :: l) X (h.absorb q) l := by
  obtain ⟨hy, -⟩ := hr.cycle
  obtain ⟨hql, hnd⟩ := nodup_cons.mp hr.nodup
  obtain ⟨hyl, hndl⟩ := nodup_cons.mp hnd
  have hql' : q ∉ l := fun hm => hql (mem_cons_of_mem y hm)
  have hym : y ∈ q :: y :: l := mem_cons_of_mem q mem_cons_self
  have habs : h.absorb q = (h.setSize q (h.size q + h.size y)).setPtr q (h.ptr y) := by
    rw [Heap.absorb, hy, if_pos htouch]
  rw [habs]
  have hcycle : Seg ((h.setSize q (h.size q + h.size y)).setPtr q (h.ptr y)).ptr q l q :=
    hr.cycle.bypass hql'
  obtain ⟨h', hh'⟩ : ∃ h', h' = (h.setSize q (h.size q + h.size y)).setPtr q (h.ptr y) :=
    ⟨_, rfl⟩
  have hsize_q : h'.size q = h.size q + h.size y := by
    rw [hh']
    exact update_self ..
  have hptr_q : h'.ptr q = h.ptr y := by
    rw [hh']
    exact update_self ..
  have hsize : ∀ u, u ≠ q → h'.size u = h.size u := by
    intro u hu
    rw [hh']
    exact update_of_ne hu ..
  have hptr : ∀ u, u ≠ q → h'.ptr u = h.ptr u := by
    intro u hu
    rw [hh']
    exact update_of_ne hu ..
  have hobtained : h'.obtained = h.obtained := by
    rw [hh']
    rfl
  rw [← hh'] at hcycle ⊢
  have hqb : q ≠ base := by
    rintro rfl
    rw [hr.size_base] at htouch
    omega
  have hback : q :: l ⊆ q :: y :: l := cons_subset_cons q (subset_cons_self y l)
  refine ⟨⟨hcycle, nodup_cons.mpr ⟨hql', hndl⟩, ?_, ?_, fun u hu hub => ?_,
    fun u hu => ?_⟩, Nat.le_succ _, fun x => ?_, fun u hu => ?_, fun u hu => ?_, hsize, hptr,
    hobtained⟩
  · rcases mem_cons.mp hr.base_mem with hbq | hbl
    · exact absurd hbq.symm hqb
    · rcases mem_cons.mp hbl with hby | hbl
      · exact absurd hby.symm hne
      · exact mem_cons_of_mem q hbl
  · exact (hsize base hqb.symm).trans hr.size_base
  · obtain ⟨hub', hpos⟩ := hr.pos u (hback hu) hub
    refine ⟨hub', ?_⟩
    rcases eq_or_ne u q with rfl | huq
    · rw [hsize_q]
      omega
    · rwa [hsize u huq]
  · rcases eq_or_ne u q with rfl | huq
    · rw [hptr_q, hsize_q]
      refine (hr.order y hym).imp_right fun ho => ?_
      have hstrict := ho.2 hx
      exact ⟨by omega, fun _ => by omega⟩
    · rw [hptr u huq, hsize u huq]
      exact (hr.order u (hback hu)).imp_right fun ho =>
        ⟨ho.1, fun hno => ho.2 fun hxu => hno ⟨hxu, huq⟩⟩
  · have hrest_eq : blocks h' l = blocks h l :=
      blocks_congr fun u hu => hsize u fun he => hql' (he ▸ hu)
    have hjoined : cover (blocks h' (q :: l)) x =
        cover (blocks h l) x + cover [(q, h.size q + h.size y)] x := by
      rw [← hrest_eq, ← cover_cons, ← hsize_q]
      rfl
    rw [hjoined, cover_blocks_cons_cons, cover_split, htouch]
    omega
  · rcases mem_cons.mp hu with rfl | hu
    · exact ⟨u, mem_cons_self, by omega⟩
    rcases mem_cons.mp hu with rfl | hu
    · exact ⟨q, mem_cons_self, by omega⟩
    · have huq : u ≠ q := fun he => hql' (he ▸ hu)
      exact ⟨u, mem_cons_of_mem q hu, (hsize u huq).ge⟩
  · rcases mem_cons.mp hu with rfl | hu
    · exact .inl mem_cons_self
    · rcases mem_cons.mp hu with rfl | hu
      · exact .inr htouch
      · exact .inl (mem_cons_of_mem q hu)

/-- A block takes in the next one, if they touch. -/
theorem Ring.absorb (hr : Ring base h q l X)
    (hnext : q + 8 * h.size q = h.ptr q → ¬ X (h.ptr q) ∧ h.ptr q ≠ base) :
    ∃ l', Absorbs base h q l X (h.absorb q) l' := by
  by_cases htouch : q + 8 * h.size q = h.ptr q
  · obtain ⟨hx, hne⟩ := hnext htouch
    have hlt := hr.lt_ptr mem_cons_self hne
    cases l with
    | nil =>
      have hself : h.ptr q = q := hr.cycle
      omega
    | cons y l =>
    obtain ⟨hy, -⟩ := hr.cycle
    rw [hy] at hx hne hlt htouch
    exact ⟨l, hr.absorb_next htouch hx hne hlt⟩
  · have habs : h.absorb q = h := if_neg htouch
    rw [habs]
    refine ⟨l, ⟨hr.cycle, hr.nodup, hr.base_mem, hr.size_base, hr.pos, fun y hy => ?_⟩, le_rfl,
      fun _ => rfl, fun y hy => ⟨y, hy, le_rfl⟩, fun y hy => .inl hy, fun _ _ => rfl,
      fun _ _ => rfl, rfl⟩
    refine (hr.order y hy).imp_right fun ho => ⟨ho.1, fun hno => ?_⟩
    rcases eq_or_ne y q with rfl | hyq
    · exact htouch
    · exact ho.2 fun hxy => hno ⟨hxy, hyq⟩

/-- What `free` does to the list: the bytes of the block are added to it. -/
structure Freed (base : ℕ) (h : Heap) (l : List ℕ) (bp : ℕ) (h' : Heap) (l' : List ℕ) : Prop where
  ring : Ring base h' h'.freep l' fun _ => False
  length : l'.length ≤ l.length + 1
  cover : ∀ x, cover (blocks h' (h'.freep :: l')) x =
    cover (blocks h (h.freep :: l)) x + cover [(bp, h.size bp)] x
  large : ∃ y ∈ h'.freep :: l', h.size bp ≤ h'.size y
  size : ∀ y, y ∉ h.freep :: l → y ≠ bp → h'.size y = h.size y
  obtained : h'.obtained = h.obtained

theorem apart_of_mem {cs : List (ℕ × ℕ)} {c : ℕ × ℕ} (hle : ∀ x, cover bs x + cover cs x ≤ 1)
    (hb : b ∈ bs) (hc : c ∈ cs) (hpb : 0 < b.2) (hpc : 0 < c.2) :
    b.1 + 8 * b.2 ≤ c.1 ∨ c.1 + 8 * c.2 ≤ b.1 := by
  by_contra hno
  rw [not_or, not_le, not_le] at hno
  have hx := hle (max b.1 c.1)
  have h₁ := one_le_cover (x := max b.1 c.1) hb ⟨le_max_left .., by omega⟩
  have h₂ := one_le_cover (x := max b.1 c.1) hc ⟨le_max_right .., by omega⟩
  omega

theorem mem_blocks (hq : q ∈ R) : (q, h.size q) ∈ blocks h R := mem_map.mpr ⟨q, hq, rfl⟩

/-- After `free` the list is sorted again, and no two of its blocks touch. -/
theorem Ring.free (hr : Ring base h h.freep l fun _ => False) (hbp : base < bp)
    (hpos : 0 < h.size bp)
    (hle : ∀ x, Umalloc.cover (blocks h (h.freep :: l)) x + Umalloc.cover [(bp, h.size bp)] x ≤ 1)
    {fuel : ℕ} (hfuel : l.length < fuel) :
    ∃ h' l', free fuel h (bp + 8) = some h' ∧ Freed base h l bp h' l' := by
  have hself : (bp, h.size bp) ∈ [(bp, h.size bp)] := mem_singleton_self _
  have hapart : ∀ q ∈ h.freep :: l, q ≠ base →
      q + 8 * h.size q ≤ bp ∨ bp + 8 * h.size bp ≤ q := fun q hq hqb =>
    apart_of_mem hle (mem_blocks hq) hself (hr.pos q hq hqb).2 hpos
  have hnot : bp ∉ h.freep :: l := by
    intro hm
    have hor := hapart bp hm hbp.ne'
    omega
  obtain ⟨p, hp, hrun, hlt, hgt⟩ := hr.search hbp hnot hfuel
  have hlow : p + 8 * h.size p ≤ bp := by
    rcases eq_or_ne p base with rfl | hpb
    · rw [hr.size_base]
      omega
    · have hor := hapart p hp hpb
      omega
  have hup : h.ptr p ≠ base → bp + 8 * h.size bp ≤ h.ptr p := by
    intro hb
    have hor := hapart _ (hr.ptr_mem hp) hb
    have hlt' := hgt hb
    omega
  -- the block is put in, joined with the next, and the one before it is joined with it
  obtain ⟨l₁, hr₁, hperm₁⟩ := hr.rotate hp
  have hnot₁ : bp ∉ p :: l₁ := fun hm => hnot (hperm₁.mem_iff.mp hm)
  have hr₂ := hr₁.link hbp hpos hnot₁ hlow hup
  have hne : bp ≠ p := hlt.ne'
  have hptr_bp : (h.link p bp).ptr bp = h.ptr p := by
    simp only [Heap.link, Heap.setPtr, update_of_ne hne, update_self]
  have hptr_p : (h.link p bp).ptr p = bp := update_self ..
  obtain ⟨l₂, hr₃, hperm₂⟩ := hr₂.rotate (mem_cons_of_mem p mem_cons_self)
  obtain ⟨l₃, ha⟩ := hr₃.absorb (q := bp) (by
    rw [hptr_bp]
    intro htouch
    have hsz : bp + 8 * h.size bp = h.ptr p := htouch
    refine ⟨fun hx => ?_, by omega⟩
    rcases hx with hx | hx
    · omega
    · omega)
  have hpm : p ∈ bp :: l₃ := by
    refine (ha.keeps p (hperm₂.mem_iff.mpr mem_cons_self)).resolve_right fun heq => ?_
    have hsz : bp + 8 * h.size bp = p := heq
    omega
  obtain ⟨l₄, hr₄, hperm₃⟩ := ha.ring.rotate hpm
  have hptr_p' : ((h.link p bp).absorb bp).ptr p = bp := (ha.ptr p hne.symm).trans hptr_p
  obtain ⟨l₅, hb⟩ := hr₄.absorb (q := p) (by
    rw [hptr_p']
    exact fun _ => ⟨fun hx => hx.2 rfl, hbp.ne'⟩)
  have hjoins := joins_eq (h := h) hne fun htouch => ⟨by omega, by omega⟩
  refine ⟨((h.joinUpper p bp).joinLower p bp).setFreep p, l₅, ?_, ?_⟩
  · simp only [Umalloc.free, Nat.add_sub_cancel, hrun, map_some]
  rw [hjoins]
  have hlen₁ := hperm₁.length_eq
  have hlen₂ := hperm₂.length_eq
  have hlen₃ := hperm₃.length_eq
  simp only [length_cons] at hlen₁ hlen₂ hlen₃
  have hlen₄ := ha.length
  have hlen₅ := hb.length
  refine ⟨(hb.ring.weaken ?_).congr rfl rfl, by omega, fun x => ?_, ?_, fun y hy hyb => ?_,
    hb.obtained.trans ha.obtained⟩
  · rintro y ⟨⟨hy | hy, hyb⟩, hyp⟩
    · exact hyp hy
    · exact hyb hy
  · calc Umalloc.cover (blocks (((h.link p bp).absorb bp).absorb p) (p :: l₅)) x
        = Umalloc.cover (blocks ((h.link p bp).absorb bp) (p :: l₄)) x := hb.cover x
      _ = Umalloc.cover (blocks ((h.link p bp).absorb bp) (bp :: l₃)) x :=
        cover_blocks_perm hperm₃ x
      _ = Umalloc.cover (blocks h (bp :: l₂)) x := ha.cover x
      _ = Umalloc.cover (blocks h (bp :: p :: l₁)) x :=
        cover_blocks_perm (hperm₂.trans (List.Perm.swap ..)) x
      _ = Umalloc.cover (blocks h (p :: l₁)) x + Umalloc.cover [(bp, h.size bp)] x :=
        cover_cons _ _ x
      _ = Umalloc.cover (blocks h (h.freep :: l)) x + Umalloc.cover [(bp, h.size bp)] x := by
        rw [cover_blocks_perm hperm₁ x]
  · obtain ⟨y, hy, hsy⟩ := ha.large bp mem_cons_self
    obtain ⟨y', hy', hsy'⟩ := hb.large y (hperm₃.mem_iff.mpr hy)
    exact ⟨y', hy', hsy.trans hsy'⟩
  · have hyp : y ≠ p := fun he => hy (he ▸ hp)
    exact (hb.size y hyp).trans (ha.size y hyb)

/-! ### Taking a block out -/

/-- What `malloc` does to the list when it takes block `y`, which `z` points to: the bytes of the
block that it returns are taken from it. -/
structure Carved (base : ℕ) (h : Heap) (z : ℕ) (l : List ℕ) (n : ℕ) (a : ℕ) (h' : Heap)
    (l' : List ℕ) : Prop where
  freep : h'.freep = z
  ring : Ring base h' z l' fun _ => False
  cover : ∀ x, cover (blocks h (z :: l)) x = cover (blocks h' (z :: l')) x + cover [(a, n)] x
  size_self : h'.size a = n
  above : base < a
  size : ∀ y, y ∉ z :: l → y ≠ a → h'.size y = h.size y
  obtained : h'.obtained = h.obtained

theorem Ring.carve_whole (hr : Ring base h z (y :: l) fun _ => False) (hb : y ≠ base)
    (heq : h.size y = n) : ∃ a l', (carve h n z y).1 = a + 8 ∧
      Carved base h z (y :: l) n a (carve h n z y).2 l' := by
  obtain ⟨hy, -⟩ := hr.cycle
  have hz : z ∈ z :: y :: l := mem_cons_self
  have hym : y ∈ z :: y :: l := mem_cons_of_mem z mem_cons_self
  obtain ⟨hbase, hpos⟩ := hr.pos y hym hb
  obtain ⟨hzl, hnd⟩ := nodup_cons.mp hr.nodup
  obtain ⟨-, hndl⟩ := nodup_cons.mp hnd
  have hzl' : z ∉ l := fun hm => hzl (mem_cons_of_mem y hm)
  have hcarve : carve h n z y = (y + 8, (h.setPtr z (h.ptr y)).setFreep z) := if_pos heq
  have hcycle : Seg (update h.ptr z (h.ptr y)) z l z := hr.cycle.bypass hzl'
  have hback : z :: l ⊆ z :: y :: l := cons_subset_cons z (subset_cons_self y l)
  rw [hcarve]
  refine ⟨y, l, rfl, rfl, ⟨hcycle, nodup_cons.mpr ⟨hzl', hndl⟩, ?_, hr.size_base,
    fun u hu => hr.pos u (hback hu), fun u hu => ?_⟩, fun x => ?_, heq, hbase,
    fun _ _ _ => rfl, rfl⟩
  · rcases mem_cons.mp hr.base_mem with hbz | hbl
    · exact hbz ▸ mem_cons_self
    · rcases mem_cons.mp hbl with hby | hbl
      · exact absurd hby.symm hb
      · exact mem_cons_of_mem z hbl
  · rcases eq_or_ne u z with rfl | huz
    · have hptr : ((h.setPtr u (h.ptr y)).setFreep u).ptr u = h.ptr y :=
        update_self ..
      have hsame : ((h.setPtr u (h.ptr y)).setFreep u).size = h.size := rfl
      have hgap := hr.gap hz (hy ▸ hb)
      rw [hy] at hgap
      rw [hptr, hsame]
      refine (hr.order y hym).imp_right fun ho => ?_
      exact ⟨by omega, fun _ => by omega⟩
    · have hptr : ((h.setPtr z (h.ptr y)).setFreep z).ptr u = h.ptr u :=
        update_of_ne huz ..
      rw [hptr]
      exact hr.order u (hback hu)
  · rw [cover_blocks_cons_cons, heq, Nat.add_right_comm, ← cover_cons]
    rfl

theorem Ring.carve_end (hr : Ring base h z (y :: l) fun _ => False) (hb : y ≠ base) (hlt : z < y)
    (hn : 0 < n) (hsize : n ≤ h.size y) (heq : ¬ h.size y = n)
    (honce : ∀ x, Umalloc.cover (blocks h (z :: y :: l)) x ≤ 1) :
    ∃ a l', (carve h n z y).1 = a + 8 ∧ Carved base h z (y :: l) n a (carve h n z y).2 l' := by
  have hym : y ∈ z :: y :: l := mem_cons_of_mem z mem_cons_self
  have hbase := (hr.pos y hym hb).1
  obtain ⟨-, hnd⟩ := nodup_cons.mp hr.nodup
  obtain ⟨hyl, -⟩ := nodup_cons.mp hnd
  obtain ⟨r, hr'⟩ : ∃ r, r = h.size y - n := ⟨_, rfl⟩
  have hrn : r + n = h.size y := by omega
  have hcarve : carve h n z y = (y + 8 * r + 8,
      ((h.setSize y r).setSize (y + 8 * r) n).setFreep z) := by
    have hself : (h.setSize y r).size y = r := update_self ..
    unfold carve
    rw [if_neg heq, ← hr']
    dsimp only
    rw [hself]
  obtain ⟨a, ha⟩ : ∃ a, a = y + 8 * r := ⟨_, rfl⟩
  rw [← ha] at hcarve
  rw [hcarve]
  have hal : a ∉ l := by
    intro hm
    have hpos := (hr.pos a (mem_cons_of_mem z (mem_cons_of_mem y hm)) (by omega)).2
    have hsum := honce a
    have h₁ := one_le_cover (x := a) (mem_blocks (h := h) hm) ⟨le_rfl, by dsimp only; omega⟩
    have h₂ := one_le_cover (x := a) (mem_singleton_self (y, h.size y))
      ⟨by dsimp only; omega, by dsimp only; omega⟩
    rw [cover_blocks_cons_cons] at hsum
    omega
  obtain ⟨h', hh'⟩ : ∃ h', h' = ((h.setSize y r).setSize a n).setFreep z := ⟨_, rfl⟩
  have hptr : h'.ptr = h.ptr := by rw [hh']; rfl
  have hsize_a : h'.size a = n := by
    rw [hh']
    exact update_self ..
  have hsize_y : h'.size y = r := by
    rw [hh']
    exact (update_of_ne (by omega) ..).trans (update_self ..)
  have hsame : ∀ u, u ≠ a → u ≠ y → h'.size u = h.size u := by
    intro u hua huy
    rw [hh']
    exact (update_of_ne hua ..).trans (update_of_ne huy ..)
  have hfreep : h'.freep = z := by rw [hh']; rfl
  have hsize_z : h'.size z = h.size z := hsame z (by omega) (by omega)
  have hsize_l : ∀ u ∈ l, h'.size u = h.size u := fun u hu =>
    hsame u (fun he => hal (he ▸ hu)) fun he => hyl (he ▸ hu)
  have hsize_of : ∀ u ∈ z :: y :: l, u ≠ y → h'.size u = h.size u := by
    intro u hu huy
    rcases mem_cons.mp hu with rfl | hu
    · exact hsize_z
    · exact hsize_l u ((mem_cons.mp hu).resolve_left huy)
  refine ⟨a, y :: l, rfl, ?_⟩
  rw [← hh']
  refine ⟨hfreep, ⟨?_, hr.nodup, hr.base_mem, ?_, fun u hu hub => ?_, fun u hu => ?_⟩,
    fun x => ?_, hsize_a, by omega, fun u hu hua => ?_, by rw [hh']; rfl⟩
  · rw [hptr]
    exact hr.cycle
  · rw [hsize_of base hr.base_mem hb.symm]
    exact hr.size_base
  · obtain ⟨hub', hpos⟩ := hr.pos u hu hub
    refine ⟨hub', ?_⟩
    rcases eq_or_ne u y with rfl | huy
    · rw [hsize_y]
      omega
    · rwa [hsize_of u hu huy]
  · rw [hptr]
    rcases eq_or_ne u y with rfl | huy
    · rw [hsize_y]
      refine (hr.order u hu).imp_right fun ho => ⟨by omega, fun _ => by omega⟩
    · rw [hsize_of u hu huy]
      exact hr.order u hu
  · have hlist : Umalloc.cover (blocks h' (z :: y :: l)) x = Umalloc.cover (blocks h l) x +
        Umalloc.cover [(y, r)] x + Umalloc.cover [(z, h.size z)] x := by
      rw [← blocks_congr hsize_l, ← cover_cons, ← cover_cons, ← hsize_y, ← hsize_z]
      rfl
    rw [cover_blocks_cons_cons, hlist, ← hrn, cover_split, ← ha]
    omega
  · have huy : u ≠ y := fun he => hu (he ▸ hym)
    exact hsame u hua huy

/-- A block is taken from the list, or the end of it. -/
theorem Ring.carve (hr : Ring base h z l fun _ => False) (hn : 0 < n) (hsize : n ≤ h.size (h.ptr z))
    (honce : ∀ x, Umalloc.cover (blocks h (z :: l)) x ≤ 1) :
    ∃ a l', (carve h n z (h.ptr z)).1 = a + 8 ∧
      Carved base h z l n a (carve h n z (h.ptr z)).2 l' := by
  have hb : h.ptr z ≠ base := by
    intro hb
    rw [hb, hr.size_base] at hsize
    omega
  have hlt := hr.lt_ptr mem_cons_self hb
  cases l with
  | nil =>
    have hself : h.ptr z = z := hr.cycle
    omega
  | cons y l =>
  obtain ⟨hy, -⟩ := hr.cycle
  rw [hy] at hsize hb hlt ⊢
  by_cases heq : h.size y = n
  · exact hr.carve_whole hb heq
  · exact hr.carve_end hb hlt hn hsize heq honce

/-! ### Accounts -/

/-- Every byte that was obtained is in one free block or in one block in use, and no other byte is.
The headers of blocks in use have their sizes. -/
structure Accounts (base : ℕ) (h : Heap) (R : List ℕ) (live : List (ℕ × ℕ)) : Prop where
  cover : ∀ x, cover (blocks h R) x + cover live x = cover h.obtained x
  once : ∀ x, Umalloc.cover h.obtained x ≤ 1
  live : ∀ b ∈ live, h.size b.1 = b.2 ∧ 0 < b.2 ∧ base < b.1

theorem Accounts.le_one (ha : Accounts base h R live) (x : ℕ) :
    Umalloc.cover (blocks h R) x + Umalloc.cover live x ≤ 1 :=
  (ha.cover x).trans_le (ha.once x)

theorem Accounts.congr (ha : Accounts base h R live) (hp : l'.Perm R) : Accounts base h l' live :=
  ⟨fun x => by rw [cover_blocks_perm hp x]; exact ha.cover x, ha.once, ha.live⟩

theorem Accounts.not_mem (ha : Accounts base h R live) (hb : b ∈ live) : b.1 ∉ R := by
  intro hm
  obtain ⟨hsize, hpos, hbase⟩ := ha.live b hb
  have hor := apart_of_mem ha.le_one (mem_blocks hm) hb (hsize ▸ hpos) hpos
  rw [hsize] at hor
  dsimp only at hor
  omega

theorem Carved.accounts {a : ℕ} (hc : Carved base h z l n a h' l') (hn : 0 < n)
    (ha : Accounts base h (z :: l) live) : Accounts base h' (z :: l') ((a, n) :: live) where
  cover x := by
    have hbefore := ha.cover x
    have hcarved := hc.cover x
    rw [cover_cons, hc.obtained]
    omega
  once := by
    rw [hc.obtained]
    exact ha.once
  live b hb := by
    rcases mem_cons.mp hb with rfl | hb
    · exact ⟨hc.size_self, hn, hc.above⟩
    obtain ⟨hsize, hpos, hbase⟩ := ha.live b hb
    have hne : b.1 ≠ a := by
      rintro heq
      have hle := ha.le_one a
      have h₁ := one_le_cover (x := a) hb ⟨heq.le, by omega⟩
      have h₂ := one_le_cover (x := a) (mem_singleton_self (a, n)) ⟨le_rfl, by dsimp only; omega⟩
      have hcarved := hc.cover a
      omega
    exact ⟨(hc.size b.1 (ha.not_mem hb) hne).trans hsize, hpos, hbase⟩

/-! ### `malloc` -/

section Malloc

variable {fuel calls K : ℕ} {sbrk : ℕ → Option ℕ}

theorem mallocLoop_skip {a c : ℕ} (k : ℕ) (hseg : Seg h.ptr a l c)
    (hsmall : ∀ y ∈ l, ¬ n ≤ h.size y ∧ y ≠ h.freep) :
    ∃ z ∈ a :: l, h.ptr z = c ∧ mallocLoop fuel n sbrk (k + l.length) calls h a (h.ptr a) =
      mallocLoop fuel n sbrk k calls h z c := by
  induction l generalizing a with
  | nil => exact ⟨a, mem_cons_self, hseg, by rw [show h.ptr a = c from hseg]; rfl⟩
  | cons y l ih =>
  obtain ⟨hy, hrest⟩ := hseg
  obtain ⟨hlt, hne⟩ := hsmall y mem_cons_self
  obtain ⟨z, hz, hptr, hrun⟩ := ih hrest fun u hu => hsmall u (mem_cons_of_mem y hu)
  refine ⟨z, mem_cons_of_mem a hz, hptr, ?_⟩
  rw [hy, length_cons, ← Nat.add_assoc, mallocLoop, if_neg hlt, if_neg hne]
  exact hrun

/-- Once around the list: a block is large enough, or `morecore` is called. -/
theorem Ring.scan (hr : Ring base h h.freep l X) (fuel n : ℕ) (sbrk : ℕ → Option ℕ) (calls : ℕ)
    (hK : l.length < K) :
    (∃ z ∈ h.freep :: l, n ≤ h.size (h.ptr z) ∧
      mallocLoop fuel n sbrk K calls h h.freep (h.ptr h.freep) =
        some (some (Umalloc.carve h n z (h.ptr z)).1, (Umalloc.carve h n z (h.ptr z)).2)) ∨
    (∀ y ∈ h.freep :: l, h.size y < n) ∧ ∃ k, K = k + 1 + l.length ∧
      mallocLoop fuel n sbrk K calls h h.freep (h.ptr h.freep) =
        match morecore fuel h n (sbrk calls) with
        | none => none
        | some none => some (none, h)
        | some (some h') =>
          mallocLoop fuel n sbrk k (calls + 1) h' h'.freep (h'.ptr h'.freep) := by
  have hfl := (nodup_cons.mp hr.nodup).1
  have hskip : ∀ {w : List ℕ} {c : ℕ} (k : ℕ), Seg h.ptr h.freep w c →
      (∀ y ∈ w, ¬ n ≤ h.size y ∧ y ≠ h.freep) → ∃ z ∈ h.freep :: w, h.ptr z = c ∧
        mallocLoop fuel n sbrk (k + w.length) calls h h.freep (h.ptr h.freep) =
          mallocLoop fuel n sbrk k calls h z c := mallocLoop_skip
  have htake : ∀ {k : ℕ} {z : ℕ}, n ≤ h.size (h.ptr z) →
      mallocLoop fuel n sbrk (k + 1) calls h z (h.ptr z) =
        some (some (Umalloc.carve h n z (h.ptr z)).1, (Umalloc.carve h n z (h.ptr z)).2) :=
    fun hle => by rw [mallocLoop, if_pos hle]
  cases hfind : l.find? fun y => n ≤ h.size y with
  | some y =>
    obtain ⟨hy, u, w, rfl, hu⟩ := find?_eq_some_iff_append.mp hfind
    obtain ⟨hseg, -⟩ := seg_append.mp hr.cycle
    obtain ⟨k, rfl⟩ : ∃ k, K = k + 1 + u.length := by
      simp only [length_append, length_cons] at hK
      exact ⟨K - 1 - u.length, by omega⟩
    obtain ⟨z, hz, hptr, hrun⟩ := hskip (k + 1) hseg fun v hv =>
      ⟨by simpa using hu v hv, fun he => hfl (he ▸ mem_append_left _ hv)⟩
    have hle : n ≤ h.size (h.ptr z) := by
      rw [hptr]
      simpa using hy
    refine .inl ⟨z, ?_, hle, ?_⟩
    · rcases mem_cons.mp hz with rfl | hz
      · exact mem_cons_self
      · exact mem_cons_of_mem _ (mem_append_left _ hz)
    · rw [hrun, ← hptr]
      exact htake hle
  | none =>
    have hsmall : ∀ y ∈ l, ¬ n ≤ h.size y := by
      intro y hy
      simpa using find?_eq_none.mp hfind y hy
    obtain ⟨k, rfl⟩ : ∃ k, K = k + 1 + l.length := ⟨K - 1 - l.length, by omega⟩
    obtain ⟨z, hz, hptr, hrun⟩ := hskip (k + 1) hr.cycle fun v hv =>
      ⟨hsmall v hv, fun he => hfl (he ▸ hv)⟩
    by_cases hle : n ≤ h.size h.freep
    · refine .inl ⟨z, hz, hptr.symm ▸ hle, ?_⟩
      rw [hrun, ← hptr]
      exact htake (hptr.symm ▸ hle)
    refine .inr ⟨fun y hy => ?_, k, rfl, ?_⟩
    · rcases mem_cons.mp hy with rfl | hy
      · exact not_le.mp hle
      · exact not_le.mp (hsmall y hy)
    · rw [hrun, mallocLoop, if_neg hle, if_pos rfl]

theorem Accounts.lt_fresh {r : ℕ} (ha : Accounts base h R live)
    (hfresh : ∀ b ∈ h.obtained, b.1 + 8 * b.2 ≤ r) {x : ℕ}
    (hx : 1 ≤ Umalloc.cover (blocks h R) x + Umalloc.cover live x) : x < r := by
  rw [ha.cover] at hx
  obtain ⟨b, hb, hcov⟩ := countP_pos_iff.mp hx
  have hlt := (of_decide_eq_true hcov).2
  have hle := hfresh b hb
  omega

/-- `morecore` adds a block that is large enough. -/
theorem Ring.morecore {r : ℕ} (hr : Ring base h h.freep l fun _ => False) (fuel n : ℕ)
    (ha : Accounts base h (h.freep :: l) live) (hbase : base + 8 ≤ r)
    (hfresh : ∀ b ∈ h.obtained, b.1 + 8 * b.2 ≤ r) (hfuel : l.length < fuel) :
    ∃ h' l', morecore fuel h n (some r) = some (some h') ∧
      Ring base h' h'.freep l' (fun _ => False) ∧ l'.length ≤ l.length + 1 ∧
      Accounts base h' (h'.freep :: l') live ∧ ∃ y ∈ h'.freep :: l', n ≤ h'.size y := by
  obtain ⟨nu, hnu⟩ : ∃ nu, nu = if n < 4096 then 4096 else n := ⟨_, rfl⟩
  have hn : n ≤ nu := by
    rw [hnu]
    split <;> omega
  have hpos : 0 < nu := by
    rw [hnu]
    split <;> omega
  obtain ⟨h₀, hh₀⟩ : ∃ h₀, h₀ = Heap.setSize { h with obtained := (r, nu) :: h.obtained } r nu :=
    ⟨_, rfl⟩
  have hmore : Umalloc.morecore fuel h n (some r) = (Umalloc.free fuel h₀ (r + 8)).map some := by
    rw [hh₀, hnu]
    rfl
  have hptr : h₀.ptr = h.ptr := by rw [hh₀]; rfl
  have hfreep : h₀.freep = h.freep := by rw [hh₀]; rfl
  have hobtained : h₀.obtained = (r, nu) :: h.obtained := by rw [hh₀]; rfl
  have hself : h₀.size r = nu := by
    rw [hh₀]
    exact update_self ..
  have hsize : ∀ y, y ≠ r → h₀.size y = h.size y := by
    intro y hy
    rw [hh₀]
    exact update_of_ne hy ..
  have hbelow : ∀ y ∈ h.freep :: l, y ≠ r := by
    intro y hy
    rcases eq_or_ne y base with rfl | hyb
    · omega
    · have hpos' := (hr.pos y hy hyb).2
      have hcov := one_le_cover (x := y) (mem_blocks (h := h) hy) ⟨le_rfl, by dsimp only; omega⟩
      exact (ha.lt_fresh hfresh (by omega)).ne
  have hr₀ : Ring base h₀ h₀.freep l fun _ => False := by
    rw [hfreep]
    refine ⟨hptr ▸ hr.cycle, hr.nodup, hr.base_mem, ?_, fun q hq hqb => ?_, fun q hq => ?_⟩
    · rw [hsize base (hbelow base hr.base_mem)]
      exact hr.size_base
    · rw [hsize q (hbelow q hq)]
      exact hr.pos q hq hqb
    · rw [hsize q (hbelow q hq), hptr]
      exact hr.order q hq
  have hblocks : blocks h₀ (h₀.freep :: l) = blocks h (h.freep :: l) := by
    rw [hfreep]
    exact blocks_congr fun y hy => hsize y (hbelow y hy)
  have hnew : ∀ x, Umalloc.cover h.obtained x + Umalloc.cover [(r, nu)] x ≤ 1 := by
    intro x
    rw [cover_singleton]
    split
    case isTrue hcov =>
      have hge : r ≤ x := hcov.1
      have hzero : Umalloc.cover h.obtained x = 0 := by
        by_contra hne
        have hlt := ha.lt_fresh hfresh (x := x) (by rw [ha.cover]; omega)
        omega
      omega
    case isFalse => exact ha.once x
  have hle : ∀ x, Umalloc.cover (blocks h₀ (h₀.freep :: l)) x +
      Umalloc.cover [(r, h₀.size r)] x ≤ 1 := by
    intro x
    have hsum := ha.cover x
    have hone := hnew x
    rw [hblocks, hself]
    omega
  obtain ⟨h', l', hrun, hf⟩ : ∃ h' l', Umalloc.free fuel h₀ (r + 8) = some h' ∧
      Freed base h₀ l r h' l' := hr₀.free (by omega) (hself ▸ hpos) hle hfuel
  refine ⟨h', l', by rw [hmore, hrun]; rfl, hf.ring, hf.length, ⟨fun x => ?_, fun x => ?_,
    fun b hb => ?_⟩, ?_⟩
  · have hsum := ha.cover x
    have hfree := hf.cover x
    rw [hblocks, hself] at hfree
    rw [hf.obtained, hobtained, cover_cons]
    omega
  · rw [hf.obtained, hobtained, cover_cons]
    exact hnew x
  · obtain ⟨hsize_b, hpos_b, hbase_b⟩ := ha.live b hb
    have hcov := one_le_cover (x := b.1) hb ⟨le_rfl, by omega⟩
    have hlt := ha.lt_fresh hfresh (x := b.1) (by omega)
    have hnot : b.1 ∉ h₀.freep :: l := hfreep ▸ ha.not_mem hb
    refine ⟨?_, hpos_b, hbase_b⟩
    rw [hf.size b.1 hnot hlt.ne, hsize b.1 hlt.ne, hsize_b]
  · obtain ⟨y, hy, hsy⟩ := hf.large
    rw [hself] at hsy
    exact ⟨y, hy, hn.trans hsy⟩

theorem Ring.take (hr : Ring base h h.freep l fun _ => False)
    (ha : Accounts base h (h.freep :: l) live) (hn : 0 < n) (hz : z ∈ h.freep :: l)
    (hle : n ≤ h.size (h.ptr z)) : ∃ h' a l',
      Umalloc.carve h n z (h.ptr z) = (a + 8, h') ∧ h'.size a = n ∧
      Ring base h' h'.freep l' (fun _ => False) ∧
      Accounts base h' (h'.freep :: l') ((a, n) :: live) := by
  obtain ⟨l₁, hr₁, hperm⟩ := hr.rotate hz
  have ha₁ := ha.congr hperm
  obtain ⟨a, l', hap, hc⟩ := hr₁.carve hn hle fun x => by
    have hone := ha₁.le_one x
    omega
  refine ⟨_, a, l', Prod.ext hap rfl, hc.size_self, ?_, ?_⟩
  · rw [hc.freep]
    exact hc.ring
  · rw [hc.freep]
    exact hc.accounts hn ha₁

/-- What `malloc` returns, and the heap after it. -/
def Mallocs (base : ℕ) (live : List (ℕ × ℕ)) (n : ℕ) (r : Option ℕ) (h' : Heap) : Prop :=
  ∃ l', Ring base h' h'.freep l' (fun _ => False) ∧
    ((r = none ∧ Accounts base h' (h'.freep :: l') live) ∨
      ∃ a, r = some (a + 8) ∧ h'.size a = n ∧
        Accounts base h' (h'.freep :: l') ((a, n) :: live))

theorem Ring.malloc (hr : Ring base h h.freep l fun _ => False)
    (ha : Accounts base h (h.freep :: l) live) (hn : 0 < n)
    (hfresh : ∀ r, sbrk 0 = some r → base + 8 ≤ r ∧ ∀ b ∈ h.obtained, b.1 + 8 * b.2 ≤ r)
    (hfuel : 2 * l.length + 3 ≤ fuel) :
    ∃ r h', mallocLoop fuel n sbrk fuel 0 h h.freep (h.ptr h.freep) = some (r, h') ∧
      Mallocs base live n r h' := by
  have hdone : ∀ {h : Heap} {l : List ℕ} {z : ℕ}, Ring base h h.freep l (fun _ => False) →
      Accounts base h (h.freep :: l) live → z ∈ h.freep :: l → n ≤ h.size (h.ptr z) →
      ∃ r h', some (some (Umalloc.carve h n z (h.ptr z)).1, (Umalloc.carve h n z (h.ptr z)).2) =
        some (r, h') ∧ Mallocs base live n r h' := by
    intro h l z hr ha hz hle
    obtain ⟨h', a, l', hcarve, hsize, hring, hacc⟩ := hr.take ha hn hz hle
    rw [hcarve]
    exact ⟨_, h', rfl, l', hring, .inr ⟨a, rfl, hsize, hacc⟩⟩
  rcases hr.scan fuel n sbrk 0 (K := fuel) (by omega) with
    ⟨z, hz, hle, hrun⟩ | ⟨hsmall, k, hk, hrun⟩
  · rw [hrun]
    exact hdone hr ha hz hle
  cases hs : sbrk 0 with
  | none =>
    rw [hs] at hrun
    exact ⟨none, h, hrun, l, hr, .inl ⟨rfl, ha⟩⟩
  | some r =>
  obtain ⟨hbase, habove⟩ := hfresh r hs
  obtain ⟨h', l', hmore, hr', hlen, ha', y, hy, hsy⟩ :=
    hr.morecore fuel n ha hbase habove (by omega)
  rw [hs, hmore] at hrun
  rw [hrun]
  -- now there is a large block, so `sbrk` is not called again
  rcases hr'.scan fuel n sbrk 1 (K := k) (by omega) with
    ⟨z, hz, hle, hrun'⟩ | ⟨hsmall', -⟩
  · refine Eq.subst (motive := fun x => ∃ r h', x = some (r, h') ∧ Mallocs base live n r h')
      hrun'.symm ?_
    exact hdone hr' ha' hz hle
  · exact absurd hsy (not_le.mpr (hsmall' y hy))

/-! ### The bounds do not matter -/

theorem free_mono {fuel' ap : ℕ} (hf : Umalloc.free fuel h ap = some h') (hle : fuel ≤ fuel') :
    Umalloc.free fuel' h ap = some h' := by
  unfold Umalloc.free at hf ⊢
  obtain ⟨p, hp, hh⟩ := map_eq_some_iff.mp hf
  rw [map_eq_some_iff]
  exact ⟨p, search_mono hp hle, hh⟩

theorem morecore_mono {fuel' : ℕ} {o : Option ℕ} {r : Option Heap}
    (hm : Umalloc.morecore fuel h n o = some r) (hle : fuel ≤ fuel') :
    Umalloc.morecore fuel' h n o = some r := by
  cases o with
  | none => exact hm
  | some hp =>
    obtain ⟨h', hf, hr⟩ := map_eq_some_iff.mp hm
    exact map_eq_some_iff.mpr ⟨h', free_mono hf hle, hr⟩

theorem mallocLoop_mono {fuel' k k' p prevp : ℕ} {r : Option ℕ × Heap}
    (hm : mallocLoop fuel n sbrk k calls h prevp p = some r) (hle : fuel ≤ fuel') (hk : k ≤ k') :
    mallocLoop fuel' n sbrk k' calls h prevp p = some r := by
  induction k generalizing calls h prevp p k' with
  | zero => cases hm
  | succ k ih =>
  obtain ⟨k', rfl⟩ := Nat.exists_eq_succ_of_ne_zero (Nat.ne_zero_of_lt hk)
  have hk' := Nat.le_of_succ_le_succ hk
  rw [mallocLoop] at hm ⊢
  split at hm
  case isTrue hlarge => rw [if_pos hlarge, hm]
  case isFalse hsmall =>
  rw [if_neg hsmall]
  split at hm
  case isTrue hlast =>
    rw [if_pos hlast]
    cases hmore : Umalloc.morecore fuel h n (sbrk calls) with
    | none => rw [hmore] at hm; cases hm
    | some o =>
    rw [hmore] at hm
    rw [morecore_mono hmore hle]
    cases o with
    | none => exact hm
    | some h' => exact ih hm hk'
  case isFalse hnot =>
    rw [if_neg hnot]
    exact ih hm hk'

theorem step_mono {s s' : State} {a : Action} {fuel' : ℕ}
    (hs : step base s (a, fuel) = some s') (hle : fuel ≤ fuel') :
    step base s (a, fuel') = some s' := by
  cases a with
  | malloc nbytes sbrk =>
    obtain ⟨r, hm, hr⟩ := map_eq_some_iff.mp hs
    exact map_eq_some_iff.mpr ⟨r, mallocLoop_mono hm hle hle, hr⟩
  | free ap =>
    obtain ⟨h', hf, hr⟩ := map_eq_some_iff.mp hs
    exact map_eq_some_iff.mpr ⟨h', free_mono hf hle, hr⟩

end Malloc

/-! ### Whole runs -/

/-- Nothing has been done, or the list and the accounts are in order. -/
def Inv (base : ℕ) (s : State) : Prop :=
  Init s ∨ ∃ l, Ring base s.heap s.heap.freep l (fun _ => False) ∧
    Accounts base s.heap (s.heap.freep :: l) s.live

variable {s s' : State}

theorem Inv.started (hi : Inv base s) (hbase : 0 < base) :
    ∃ l, Ring base (start base s.heap) (start base s.heap).freep l (fun _ => False) ∧
      Accounts base (start base s.heap) ((start base s.heap).freep :: l) s.live ∧
      (start base s.heap).obtained = s.heap.obtained := by
  rcases hi with ⟨hfreep, hobtained, hlive⟩ | ⟨l, hr, ha⟩
  · have hstart : start base s.heap =
        ((s.heap.setPtr base base).setSize base 0).setFreep base := if_pos hfreep
    have hptr : (((s.heap.setPtr base base).setSize base 0).setFreep base).ptr base = base :=
      update_self ..
    have hsize : (((s.heap.setPtr base base).setSize base 0).setFreep base).size base = 0 :=
      update_self ..
    rw [hstart]
    refine ⟨[], ⟨hptr, nodup_singleton _, mem_singleton_self _, hsize, fun q hq hqb => ?_,
      fun q hq => ?_⟩, ⟨fun x => ?_, fun x => ?_, fun b hb => ?_⟩, rfl⟩
    · exact absurd (mem_singleton.mp hq) hqb
    · rw [mem_singleton.mp hq]
      exact .inl hptr
    · change cover [(base,
        (((s.heap.setPtr base base).setSize base 0).setFreep base).size base)] x +
          cover s.live x = cover s.heap.obtained x
      rw [hsize, cover_singleton, if_neg not_covers_zero, hlive, hobtained, Nat.zero_add]
    · change cover s.heap.obtained x ≤ 1
      rw [hobtained]
      exact Nat.zero_le 1
    · rw [hlive] at hb
      cases hb
  · have hne : s.heap.freep ≠ 0 := by
      have hle := hr.base_le mem_cons_self
      omega
    have hstart : start base s.heap = s.heap := if_neg hne
    rw [hstart]
    exact ⟨l, hr, ha, rfl⟩

theorem Inv.malloc {nbytes f : ℕ} {sbrk : ℕ → Option ℕ} (hi : Inv base s) (hbase : 0 < base)
    (hok : Allowed base s (.malloc nbytes sbrk, f)) :
    ∃ k r h', (∀ fuel ≥ k, malloc base fuel s.heap nbytes sbrk = some (r, h')) ∧
      Mallocs base s.live (unitsOf nbytes) r h' := by
  obtain ⟨l, hr, ha, hobtained⟩ := hi.started hbase
  have hfresh := hok.2
  rw [← hobtained] at hfresh
  obtain ⟨r, h', hrun, hm⟩ := hr.malloc ha (Nat.succ_pos _) hfresh le_rfl
  exact ⟨_, r, h', fun fuel hle => mallocLoop_mono hrun hle hle, hm⟩

theorem cover_filter (hb : b ∈ live) (honce : ∀ x, cover live x ≤ 1)
    (hpos : ∀ c ∈ live, 0 < c.2) (x : ℕ) :
    cover live x = cover (live.filter fun c => c.1 ≠ b.1) x + cover [b] x := by
  obtain ⟨u, w, rfl⟩ := append_of_mem hb
  have hperm : (u ++ b :: w).Perm (b :: (u ++ w)) := perm_middle
  have hother : ∀ c ∈ u ++ w, c.1 ≠ b.1 := by
    intro c hc heq
    have hone := honce b.1
    have hpb := hpos b hb
    have hpc := hpos c (hperm.mem_iff.mpr (mem_cons_of_mem b hc))
    have h₁ := one_le_cover (x := b.1) hc ⟨heq.le, by omega⟩
    have h₂ := one_le_cover (x := b.1) (mem_singleton_self b) ⟨le_rfl, by omega⟩
    rw [cover_perm hperm, cover_cons] at hone
    omega
  have hfilter : (u ++ b :: w).filter (fun c => c.1 ≠ b.1) = u ++ w := by
    rw [filter_append, filter_cons_of_neg (by simp), ← filter_append]
    exact filter_eq_self.mpr fun c hc => decide_eq_true (hother c hc)
  rw [hfilter, cover_perm hperm, cover_cons]

theorem Inv.free {ap : ℕ} (hi : Inv base s) (hok : ∃ b ∈ s.live, ap = b.1 + 8) :
    ∃ k h', (∀ fuel ≥ k, Umalloc.free fuel s.heap ap = some h') ∧
      Inv base ⟨h', s.live.filter fun b => b.1 ≠ ap - 8⟩ := by
  obtain ⟨b, hb, rfl⟩ := hok
  rcases hi with ⟨-, -, hlive⟩ | ⟨l, hr, ha⟩
  · rw [hlive] at hb
    cases hb
  obtain ⟨hsize, hpos, hbase⟩ := ha.live b hb
  have hlive : ∀ x, cover s.live x = cover (s.live.filter fun c => c.1 ≠ b.1) x + cover [b] x :=
    cover_filter hb (fun x => by have hone := ha.le_one x; omega) fun c hc => (ha.live c hc).2.1
  have hblock : (b.1, s.heap.size b.1) = b := by rw [hsize]
  obtain ⟨h', l', hrun, hf⟩ := hr.free hbase (hsize ▸ hpos) (fun x => by
    have hone := ha.le_one x
    have hsplit := hlive x
    rw [hblock]
    omega) (Nat.lt_succ_self l.length)
  refine ⟨_, h', fun fuel hle => free_mono hrun hle, .inr ⟨l', hf.ring, fun x => ?_, fun x => ?_,
    fun c hc => ?_⟩⟩
  · have hsum := ha.cover x
    have hfree := hf.cover x
    have hsplit := hlive x
    rw [hblock] at hfree
    rw [hf.obtained, Nat.add_sub_cancel]
    dsimp only
    omega
  · rw [hf.obtained]
    exact ha.once x
  · rw [Nat.add_sub_cancel] at hc
    obtain ⟨hc, hne⟩ := mem_filter.mp hc
    obtain ⟨hsize_c, hpos_c, hbase_c⟩ := ha.live c hc
    exact ⟨(hf.size c.1 (ha.not_mem hc) (of_decide_eq_true hne)).trans hsize_c, hpos_c, hbase_c⟩

theorem Inv.step {a : Action × ℕ} (hi : Inv base s) (hbase : 0 < base) (hok : Allowed base s a)
    (hs : step base s a = some s') : Inv base s' := by
  obtain ⟨a, f⟩ := a
  cases a with
  | malloc nbytes sbrk =>
    obtain ⟨k, r, h', hrun, l', hr, hcases⟩ := hi.malloc hbase hok
    have hs' := step_mono hs (le_max_left f k)
    simp only [Umalloc.step, hrun _ (le_max_right f k), map_some, some.injEq] at hs'
    subst hs'
    rcases hcases with ⟨rfl, ha⟩ | ⟨a, rfl, -, ha⟩
    · exact .inr ⟨l', hr, ha⟩
    · refine .inr ⟨l', hr, ?_⟩
      dsimp only
      rwa [Nat.add_sub_cancel]
  | free ap =>
    obtain ⟨k, h', hrun, hi'⟩ := hi.free hok
    have hs' := step_mono hs (le_max_left f k)
    simp only [Umalloc.step, hrun _ (le_max_right f k), map_some, some.injEq] at hs'
    subst hs'
    exact hi'

theorem Ring.pairwise (hr : Ring base h base l fun _ => False) :
    (base :: l).Pairwise fun a c => a + 8 * h.size a < c := by
  have hgo : ∀ (l : List ℕ) (a : ℕ), Seg h.ptr a l base → base ∉ l →
      (∀ q ∈ a :: l, h.ptr q = base ∨ q + 8 * h.size q < h.ptr q) →
      (a :: l).Pairwise fun a c => a + 8 * h.size a < c := by
    intro l
    induction l with
    | nil => exact fun a _ _ _ => pairwise_singleton _ a
    | cons y l ih =>
    intro a hseg hb horder
    have hrest := ih y hseg.2 (fun hm => hb (mem_cons_of_mem y hm))
      fun q hq => horder q (mem_cons_of_mem a hq)
    have hfirst : a + 8 * h.size a < y := by
      have hor := horder a mem_cons_self
      rw [hseg.1] at hor
      exact hor.resolve_left fun he => hb (he ▸ mem_cons_self)
    refine pairwise_cons.mpr ⟨fun c hc => ?_, hrest⟩
    rcases mem_cons.mp hc with rfl | hc
    · exact hfirst
    · have hlt := (pairwise_cons.mp hrest).1 c hc
      omega
  refine hgo l base hr.cycle (nodup_cons.mp hr.nodup).1 fun q hq => ?_
  refine (hr.order q hq).imp_right fun ho => ?_
  have hne := ho.2 id
  omega

/-- **The heap of a user program.** After every sequence of `malloc` and `free` calls, unless there
was no call: from `freep` the pointers lead through all free blocks and back; read from `base`,
which is one of them, the addresses go up, and every block ends below the next one; free blocks do
not overlap blocks in use, and each byte that `sbrk` gave is in one block, and no other byte is. And
the next call returns, whatever it is: `malloc` with nothing or with a block for `nbytes` bytes. -/
theorem heap_invariant (hbase : 0 < base)
    (hreach : Run.Reachable (step base) (Allowed base) Init s) :
    (Init s ∨ ∃ l bs, Seg s.heap.ptr s.heap.freep l s.heap.freep ∧
      (s.heap.freep :: l).Perm (base :: bs) ∧ Seg s.heap.ptr base bs base ∧
      (base :: bs).Pairwise (fun a c => a + 8 * s.heap.size a < c) ∧
      s.heap.size base = 0 ∧ (∀ a ∈ bs, 0 < s.heap.size a) ∧
      (∀ a ∈ bs, ∀ b ∈ s.live, a + 8 * s.heap.size a ≤ b.1 ∨ b.1 + 8 * b.2 ≤ a) ∧
      ∀ x, cover (blocks s.heap bs) x + cover s.live x = cover s.heap.obtained x ∧
        cover s.heap.obtained x ≤ 1) ∧ (∀ nbytes sbrk, Allowed base s (.malloc nbytes sbrk, 0) →
      ∃ k r h', (∀ fuel ≥ k, malloc base fuel s.heap nbytes sbrk = some (r, h')) ∧
        ∀ ap, r = some ap → nbytes ≤ 8 * (h'.size (ap - 8) - 1)) ∧
    ∀ ap, Allowed base s (.free ap, 0) → ∃ k h', ∀ fuel ≥ k, free fuel s.heap ap = some h' := by
  have hi : Inv base s := hreach.invariant (fun s hs => .inl hs)
    fun s a s' hi hok hs => hi.step hbase hok hs
  refine ⟨?_, fun nbytes sbrk hok => ?_, fun ap hok => ?_⟩
  · rcases hi with hinit | ⟨l, hr, ha⟩
    · exact .inl hinit
    obtain ⟨bs, hr', hperm⟩ := hr.rotate hr.base_mem
    have ha' := ha.congr hperm
    have hpos : ∀ a ∈ bs, 0 < s.heap.size a := fun a hm =>
      (hr'.pos a (mem_cons_of_mem base hm) fun he =>
        (nodup_cons.mp hr'.nodup).1 (he ▸ hm)).2
    refine .inr ⟨l, bs, hr.cycle, hperm.symm, hr'.cycle, hr'.pairwise, hr'.size_base, hpos,
      fun a hm b hb => ?_, fun x => ⟨?_, ha'.once x⟩⟩
    · exact apart_of_mem ha'.le_one (mem_blocks (mem_cons_of_mem base hm)) hb (hpos a hm)
        (ha.live b hb).2.1
    rw [← ha'.cover x]
    refine congrArg (· + cover s.live x) ?_
    change _ = cover ((base, s.heap.size base) :: blocks s.heap bs) x
    rw [cover_cons, hr'.size_base, cover_singleton, if_neg not_covers_zero, Nat.add_zero]
  · obtain ⟨k, r, h', hrun, l', -, hcases⟩ := hi.malloc hbase hok
    refine ⟨k, r, h', hrun, fun ap hap => ?_⟩
    rcases hcases with ⟨rfl, -⟩ | ⟨a, rfl, hsize, -⟩
    · cases hap
    cases hap
    have hsmall := hok.1
    rw [Nat.add_sub_cancel, hsize, unitsOf, Nat.mod_eq_of_lt (by omega)]
    omega
  · obtain ⟨k, h', hrun, -⟩ := hi.free hok
    exact ⟨k, h', hrun⟩

/-- Two blocks are allocated and the first one is freed: three blocks are on the list. -/
theorem heap_invariant_three : ∃ s : State, Run.Reachable (step 16) (Allowed 16) Init s ∧
    s.live = [(36728, 14)] ∧ s.heap.size 36840 = 3 ∧
      ∃ l bs, Seg s.heap.ptr s.heap.freep l s.heap.freep ∧ (s.heap.freep :: l).Perm (16 :: bs) := by
  have hstart : Run.Reachable (step 16) (Allowed 16) Init
      (⟨⟨fun _ => 0, fun _ => 0, 0, []⟩, []⟩ : State) := .start ⟨rfl, rfl, rfl⟩
  obtain ⟨s, hs, hq⟩ := hstart.exists_of_exec
    ([(.malloc 10 fun _ => some 4096, 10), (.malloc 100 fun _ => none, 10), (.free 36848, 10)] :
      List (Action × ℕ))
    (fun s : State => decide (s.live = [(36728, 14)] ∧ s.heap.size 36840 = 3 ∧ s.heap.freep ≠ 0))
    (by decide +kernel)
  obtain ⟨hlive, hsize, hfreep⟩ := of_decide_eq_true hq
  rcases (heap_invariant (by decide) hs).1 with hinit | ⟨l, bs, hseg, hperm, -⟩
  · exact absurd hinit.1 hfreep
  · exact ⟨s, hs, hlive, hsize, l, bs, hseg, hperm⟩

end Xv6.Umalloc
