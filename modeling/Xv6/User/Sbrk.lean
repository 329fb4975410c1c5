import Mathlib.Algebra.Ring.Int.Defs
import Xv6.User.Umalloc
import Xv6.Vm.Grow

/-!
# The allocator in a process

`malloc` of `Umalloc` together with the memory of the process. The number of bytes that `morecore`
asks for is a 32-bit product, and `sbrk` takes it as a signed number: a request of 2^31 bytes or
more is a request to shrink. `growproc` then cuts the process, or it finds the new size above the
old one and reports success without doing anything, and `malloc` goes on as if it had been given
the memory. For the last few sizes already the rounding to units wraps, and one unit is allocated.

Pointers are the natural numbers of `Umalloc`. In 32 bits the end of a region wraps only where the
process was cut, or is the start of the region where nothing was asked for; no test of the
allocator tells the difference in the second case. The memory that `sbrk` pretends to give starts at
the old size. If the header there is not on a page of the process, the first store to it is a page
fault, which ends the process; else all stores of `free` and `malloc` are to pages that it has.
-/

namespace Xv6.Sbrk

open Cyclic Hoare List Option
open Umalloc (Heap Ring Accounts Mallocs Inv carve morecore unitsOf cover blocks Covers cover_cons
  cover_singleton one_le_cover apart_of_mem mem_blocks)

/-! ### The code -/

def KERNBASE : ℕ := 2 ^ 31

def PGROUNDUP (sz : ℕ) : ℕ := (sz + 4095) / 4096 * 4096

structure Mem where
  sz : ℕ
  mapped : ℕ
  deriving DecidableEq

/-- Grow the memory by `n` bytes; `short` if there is no page left. -/
def growproc (short : Bool) (m : Mem) (n : ℤ) : Bool × Mem :=
  let newsz := ((m.sz + n) % 2 ^ 32).toNat
  if 0 < n then
    -- `allocuvm`
    if KERNBASE ≤ newsz then (false, m)
    else if newsz < m.sz then (true, m)
    else if PGROUNDUP m.sz < newsz ∧ short = true then (false, m)
    else (true, ⟨newsz, max m.mapped (PGROUNDUP newsz)⟩)
  else if n < 0 then
    -- `deallocuvm`, which returns the old size where the new one is not below it
    if m.sz ≤ newsz then (decide (m.sz ≠ 0), m)
    else if newsz = 0 then (false, ⟨m.sz, min m.mapped (PGROUNDUP newsz)⟩)
    else (true, ⟨newsz, min m.mapped (PGROUNDUP newsz)⟩)
  else (true, m)

/-- A 32-bit number as an `int`. -/
def signed (b : ℕ) : ℤ := if b < 2 ^ 31 then b else b - 2 ^ 32

/-- `sys_sbrk`: the old size, or nothing for -1. -/
def sbrk (short : Bool) (m : Mem) (b : ℕ) : Option ℕ × Mem :=
  let r := growproc short m (signed b)
  (if r.1 then some m.sz else none, r.2)

/-- `nu * sizeof(Header)`, with the `nu` of `morecore`. -/
def moreBytes (nu : ℕ) : ℕ := (if nu < 4096 then 4096 else nu) * 8 % 2 ^ 32

/-- `hp->s.size = nu` is a page fault. -/
def faults (hp : Option ℕ) (m : Mem) : Bool := hp.any fun hp => m.mapped < hp + 8

/-- The loop of `malloc`; `short c` is what the `c`-th call of `sbrk` finds. A page fault is an
error, with the memory that is left. -/
def mallocLoop (fuel nunits : ℕ) (short : ℕ → Bool) :
    ℕ → ℕ → Heap → Mem → ℕ → ℕ → Option (Except Mem (Option ℕ × Heap × Mem))
  | 0, _, _, _, _, _ => none
  | k + 1, calls, h, m, prevp, p =>
    if nunits ≤ h.size p then
      let r := carve h nunits prevp p
      some (.ok (some r.1, r.2, m))
    else if p = h.freep then
      let r := sbrk (short calls) m (moreBytes nunits)
      if faults r.1 r.2 then some (.error r.2)
      else match morecore fuel h nunits r.1 with
      | none => none
      | some none => some (.ok (none, h, r.2))
      | some (some h') =>
        mallocLoop fuel nunits short k (calls + 1) h' r.2 h'.freep (h'.ptr h'.freep)
    else mallocLoop fuel nunits short k calls h m p (h.ptr p)

/-- `malloc` with its static header at `base`. -/
def malloc (base fuel : ℕ) (h : Heap) (m : Mem) (nbytes : ℕ) (short : ℕ → Bool) :
    Option (Except Mem (Option ℕ × Heap × Mem)) :=
  let h := Umalloc.start base h
  mallocLoop fuel (unitsOf nbytes) short fuel 0 h m h.freep (h.ptr h.freep)

/-! ### Runs -/

structure State where
  heap : Heap
  live : List (ℕ × ℕ)
  mem : Mem

inductive Action where
  | malloc (nbytes : ℕ) (short : ℕ → Bool)
  | free (ap : ℕ)

def step (base : ℕ) (s : State) (a : Action × ℕ) : Option State :=
  match a.1 with
  | .malloc nbytes short =>
    match malloc base a.2 s.heap s.mem nbytes short with
    | some (.ok (none, h, m)) => some ⟨h, s.live, m⟩
    | some (.ok (some ap, h, m)) => some ⟨h, (ap - 8, unitsOf nbytes) :: s.live, m⟩
    | _ => none
  | .free ap =>
    (Umalloc.free a.2 s.heap ap).map fun h => ⟨h, s.live.filter fun b => b.1 ≠ ap - 8, s.mem⟩

/-- A request that rounding and the signed argument leave as it is. -/
def Small (nbytes : ℕ) : Prop := ((nbytes + 8 - 1) / 8 + 1) * 8 < 2 ^ 31

instance (nbytes : ℕ) : Decidable (Small nbytes) := inferInstanceAs (Decidable (_ < _))

/-- Requests are small, and what is freed is a block in use. -/
def Allowed (s : State) (a : Action × ℕ) : Prop :=
  match a.1 with
  | .malloc nbytes _ => Small nbytes
  | .free ap => ∃ b ∈ s.live, ap = b.1 + 8

/-- Before the first call; `base` is in the memory, behind the program's first instructions. -/
structure Init (base : ℕ) (s : State) : Prop where
  heap : Umalloc.Init ⟨s.heap, s.live⟩
  low : 8 ≤ base
  base_le : base + 8 ≤ s.mem.sz
  lt : s.mem.sz < KERNBASE
  mapped : s.mem.sz ≤ s.mem.mapped

/-- The `n` bytes at `ap` share nothing with a block. -/
def Apart (ap n : ℕ) (b : ℕ × ℕ) : Prop := ap + n ≤ b.1 ∨ b.1 + 8 * b.2 ≤ ap

/-- `nbytes` bytes of the process at `ap`, apart from the blocks in use and the free blocks. -/
structure Usable (h : Heap) (live : List (ℕ × ℕ)) (m : Mem) (ap nbytes : ℕ) : Prop where
  inside : ap + nbytes ≤ m.sz
  live : ∀ b ∈ live, Apart ap nbytes b
  free : ∃ l, Seg h.ptr h.freep l h.freep ∧ ∀ q ∈ h.freep :: l, Apart ap nbytes (q, h.size q)

/-- `malloc(nbytes)` returns, with 0 or with usable memory, and the process does not shrink. -/
def Honours (base : ℕ) (s : State) (nbytes : ℕ) (short : ℕ → Bool) : Prop :=
  ∃ k, ∀ fuel ≥ k, ∃ r h' m', malloc base fuel s.heap s.mem nbytes short = some (.ok (r, h', m')) ∧
    s.mem.sz ≤ m'.sz ∧ s.mem.mapped ≤ m'.mapped ∧ ∀ ap, r = some ap → Usable h' s.live m' ap nbytes

/-! ### `sbrk` -/

section Grow

variable {short : Bool} {m : Mem} {b : ℕ}

theorem le_PGROUNDUP (sz : ℕ) : sz ≤ PGROUNDUP sz := by
  unfold PGROUNDUP
  omega

theorem sbrk_eq {ok : Bool} {m' : Mem} (h : growproc short m (signed b) = (ok, m')) :
    sbrk short m b = (if ok then some m.sz else none, m') := by
  unfold sbrk
  rw [h]

theorem signed_of_lt (h : b < 2 ^ 31) : signed b = b := if_pos h

theorem signed_of_ge (h : 2 ^ 31 ≤ b) : signed b = b - 2 ^ 32 := if_neg (not_lt.mpr h)

theorem sbrk_of_pos (hb : 0 < b) (hlt : b < 2 ^ 31) (hsz : m.sz < KERNBASE) :
    sbrk short m b = (none, m) ∨ m.sz + b < KERNBASE ∧
      sbrk short m b = (some m.sz, ⟨m.sz + b, max m.mapped (PGROUNDUP (m.sz + b))⟩) := by
  have hnew : (((m.sz : ℤ) + signed b) % 2 ^ 32).toNat = m.sz + b := by
    rw [signed_of_lt hlt]
    unfold KERNBASE at hsz
    omega
  have hpos : 0 < signed b := by
    rw [signed_of_lt hlt]
    omega
  have hgrow : growproc short m (signed b) = if KERNBASE ≤ m.sz + b then (false, m)
      else if PGROUNDUP m.sz < m.sz + b ∧ short = true then (false, m)
      else (true, ⟨m.sz + b, max m.mapped (PGROUNDUP (m.sz + b))⟩) := by
    unfold growproc
    rw [hnew, if_pos hpos, if_neg (by omega : ¬ m.sz + b < m.sz)]
  split at hgrow
  · exact .inl (sbrk_eq hgrow)
  next hfit =>
  split at hgrow
  · exact .inl (sbrk_eq hgrow)
  · exact .inr ⟨not_le.mp hfit, sbrk_eq hgrow⟩

theorem sbrk_le (hb : b = 0 ∨ 2 ^ 31 ≤ b) (hlt : b < 2 ^ 32) :
    (sbrk short m b).2.sz ≤ m.sz ∧ (sbrk short m b).2.mapped ≤ m.mapped := by
  have hnot : ¬ 0 < signed b := by
    rcases hb with rfl | hge
    · decide
    · rw [signed_of_ge hge]
      omega
  change (growproc short m (signed b)).2.sz ≤ m.sz ∧
    (growproc short m (signed b)).2.mapped ≤ m.mapped
  unfold growproc
  dsimp only
  rw [if_neg hnot]
  split
  · split
    · exact ⟨le_rfl, le_rfl⟩
    next hcut =>
    split
    · exact ⟨le_rfl, min_le_left ..⟩
    · exact ⟨(not_le.mp hcut).le, min_le_left ..⟩
  · exact ⟨le_rfl, le_rfl⟩

theorem sbrk_idle (hpos : 0 < m.sz) (hb : b = 0 ∨ 2 ^ 31 ≤ b ∧ m.sz + b < 2 ^ 32) :
    sbrk short m b = (some m.sz, m) := by
  suffices hgrow : growproc short m (signed b) = (true, m) from sbrk_eq hgrow
  rcases hb with rfl | ⟨hge, hlt⟩
  · rfl
  have hneg : signed b < 0 := by
    rw [signed_of_ge hge]
    omega
  have hnew : (((m.sz : ℤ) + signed b) % 2 ^ 32).toNat = m.sz + b := by
    rw [signed_of_ge hge]
    omega
  unfold growproc
  rw [hnew, if_neg (by omega : ¬ 0 < signed b), if_pos hneg, if_pos (by omega : m.sz ≤ m.sz + b),
    decide_eq_true (by omega : m.sz ≠ 0)]

theorem sbrk_cut (hmapped : m.sz ≤ m.mapped) (hlt : b < 2 ^ 32) (hge : 2 ^ 32 ≤ m.sz + b)
    (hsz : m.sz < KERNBASE) :
    (sbrk short m b).2.sz < m.sz ∨ (sbrk short m b).2.mapped < m.mapped := by
  unfold KERNBASE at hsz
  have hsigned : signed b = b - 2 ^ 32 := signed_of_ge (by omega)
  have hneg : signed b < 0 := by
    rw [hsigned]
    omega
  have hnew : (((m.sz : ℤ) + signed b) % 2 ^ 32).toNat = m.sz + b - 2 ^ 32 := by
    rw [hsigned]
    omega
  change (growproc short m (signed b)).2.sz < m.sz ∨
    (growproc short m (signed b)).2.mapped < m.mapped
  unfold growproc
  rw [hnew, if_neg (by omega : ¬ 0 < signed b), if_pos hneg,
    if_neg (by omega : ¬ m.sz ≤ m.sz + b - 2 ^ 32)]
  split
  · next hzero =>
    right
    have hup : PGROUNDUP 0 = 0 := rfl
    dsimp only
    rw [hzero, hup]
    omega
  · left
    dsimp only
    omega

end Grow

/-! ### Against the page tables -/

section Sizes

variable {M : Vm.Machine} {s : Vm.Mem} {q : Vm.Proc} {d oldsz newsz : ℕ}

theorem wp_any {α β : Type} {x : Vm.VmM α} {f : α → Vm.VmM β} {Q : β → Vm.Mem → Prop}
    (h : ∀ a s', wp (f a) Q (fun _ => True) s') : wp (x >>= f) Q (fun _ => True) s := by
  rw [wp_bind, wp]
  split
  · exact h _ _
  · trivial

theorem wp_allocLoop (fuel a : ℕ) : wp (Vm.allocLoop M d oldsz newsz fuel a)
    (fun r _ => r = newsz ∨ r = 0 ∧ a < newsz) (fun _ => True) s := by
  induction fuel generalizing a s with
  | zero => exact .inl rfl
  | succ fuel ih =>
  rw [Vm.allocLoop, wp_ite]
  split
  · next hlt =>
    refine wp_any fun mem s₁ => ?_
    rw [wp_ite]
    split
    · exact wp_any fun _ _ => .inr ⟨rfl, hlt⟩
    refine wp_any fun _ s₂ => wp_any fun ok s₃ => ?_
    rw [wp_ite]
    split
    · exact (ih _).imp fun r _ hr => hr.imp_right fun h => ⟨h.1, hlt⟩
    · exact wp_any fun _ _ => wp_any fun _ _ => .inr ⟨rfl, hlt⟩
  · exact .inl rfl

/-- `growproc` makes of the size what it does in the model with page tables. -/
theorem growproc_sizes (hsz : q.sz < KERNBASE) {n : ℤ} (hn : n < 2 ^ 31) (top : ℕ) :
    wp (Vm.growproc M q n) (fun r _ => ∃ short, (growproc short ⟨q.sz, top⟩ n).1 = r.1 ∧
      (growproc short ⟨q.sz, top⟩ n).2.sz = r.2.sz) (fun _ => True) s := by
  unfold KERNBASE at hsz
  have hround : Vm.PGROUNDUP q.sz = PGROUNDUP q.sz := by
    unfold Vm.PGROUNDUP PGROUNDUP Vm.PGSIZE
    omega
  have hnew : 0 < n → (((q.sz : ℤ) + n) % 2 ^ 32).toNat ≠ 0 := by omega
  unfold Vm.growproc growproc Vm.addSigned
  dsimp only
  generalize (((q.sz : ℤ) + n) % 2 ^ 32).toNat = newsz at hnew ⊢
  rw [wp_ite]
  split
  · next hpos =>
    rw [wp_bind, Vm.allocuvm, wp_ite]
    split
    · next hlarge =>
      have hlarge : KERNBASE ≤ newsz := hlarge
      exact ⟨false, by simp [hlarge]⟩
    next hlarge =>
    have hlarge : ¬ KERNBASE ≤ newsz := hlarge
    rw [wp_ite]
    split
    · next hlt =>
      rw [wp_pure, wp_ite, if_neg (Nat.ne_zero_of_lt hlt)]
      exact ⟨false, by simp⟩
    refine (wp_allocLoop _ _).imp ?_
    rintro r _ (rfl | ⟨rfl, hlt⟩)
    · rw [wp_ite, if_neg (hnew hpos)]
      exact ⟨false, by simp⟩
    · rw [hround] at hlt
      exact ⟨true, by simp [hlt]⟩
  · rw [wp_ite]
    split
    · rw [wp_bind, Vm.deallocuvm, wp_ite]
      split
      · rw [wp_pure, wp_ite]
        split_ifs with hzero <;> exact ⟨false, by simp [hzero]⟩
      refine wp_any fun _ _ => wp_pure.mpr ?_
      rw [wp_ite]
      split_ifs <;> exact ⟨false, by simp⟩
    · exact ⟨false, rfl, rfl⟩

end Sizes

theorem moreBytes_lt (n : ℕ) : moreBytes n < 2 ^ 32 := Nat.mod_lt _ (by decide)

theorem moreBytes_of_lt {n : ℕ} (h : 8 * n < 2 ^ 31) :
    moreBytes n = 8 * (if n < 4096 then 4096 else n) ∧ 0 < moreBytes n ∧ moreBytes n < 2 ^ 31 := by
  unfold moreBytes
  split <;> omega

theorem moreBytes_of_ge {n : ℕ} (h : 2 ^ 31 ≤ 8 * n) (hle : 8 * n ≤ 2 ^ 32) :
    moreBytes n = 0 ∨ 2 ^ 31 ≤ moreBytes n := by
  unfold moreBytes
  split <;> omega

theorem unitsOf_le (nbytes : ℕ) : 8 * unitsOf nbytes ≤ 2 ^ 32 := by
  unfold unitsOf
  omega

/-! ### The loop -/

section Loop

variable {fuel n k calls prevp p : ℕ} {short : ℕ → Bool} {h h' : Heap} {m m' : Mem} {r : Option ℕ}

/-- The memory after so many calls of `sbrk`. -/
def memAt (short : ℕ → Bool) (m : Mem) (b : ℕ) : ℕ → Mem
  | 0 => m
  | c + 1 => (sbrk (short c) (memAt short m b c) b).2

/-- What the calls of `sbrk` answer. -/
def answers (short : ℕ → Bool) (m : Mem) (b c : ℕ) : Option ℕ :=
  (sbrk (short c) (memAt short m b c) b).1

/-- The two loops return the same, but for faults. -/
def Erases : Option (Except Mem (Option ℕ × Heap × Mem)) → Option (Option ℕ × Heap) → Prop
  | none, y => y = none
  | some (.error _), _ => True
  | some (.ok (r, h, _)), y => y = some (r, h)

theorem mallocLoop_erases :
    Erases (mallocLoop fuel n short k calls h (memAt short m (moreBytes n) calls) prevp p)
      (Umalloc.mallocLoop fuel n (answers short m (moreBytes n)) k calls h prevp p) := by
  induction k generalizing calls h prevp p with
  | zero => rfl
  | succ k ih =>
  rw [mallocLoop, Umalloc.mallocLoop]
  split
  · rfl
  split
  · dsimp only
    rw [show (sbrk (short calls) (memAt short m (moreBytes n) calls) (moreBytes n)).1 =
      answers short m (moreBytes n) calls from rfl]
    split
    · trivial
    cases morecore fuel h n (answers short m (moreBytes n) calls) with
    | none => rfl
    | some o =>
    cases o with
    | none => rfl
    | some h' => exact @ih (calls + 1) h'.freep (h'.ptr h'.freep) h'
  · exact ih

theorem mallocLoop_keeps {Q : Mem → Prop}
    (hQ : ∀ c m, Q m → Q (sbrk (short c) m (moreBytes n)).2) (hm : Q m)
    (hrun : mallocLoop fuel n short k calls h m prevp p = some (.ok (r, h', m'))) :
    Q m' ∧ (r = none → ∃ c m₀, Q m₀ ∧ (sbrk (short c) m₀ (moreBytes n)).1 = none) := by
  induction k generalizing calls h m prevp p with
  | zero => cases hrun
  | succ k ih =>
  rw [mallocLoop] at hrun
  split at hrun
  · cases hrun
    exact ⟨hm, fun hr => absurd hr (some_ne_none _)⟩
  split at hrun
  · dsimp only at hrun
    split at hrun
    · cases hrun
    cases hs : (sbrk (short calls) m (moreBytes n)).1 with
    | none =>
      rw [hs] at hrun
      cases hrun
      exact ⟨hQ calls m hm, fun _ => ⟨calls, m, hm, hs⟩⟩
    | some hp =>
    rw [hs] at hrun
    cases hmore : morecore fuel h n (some hp) with
    | none =>
      rw [hmore] at hrun
      cases hrun
    | some o =>
    rw [hmore] at hrun
    cases o with
    | none =>
      obtain ⟨h'', -, hne⟩ := map_eq_some_iff.mp hmore
      cases hne
    | some h'' => exact ih (hQ calls m hm) hrun
  · exact ih hm hrun

theorem mallocLoop_calls {Q : Mem → Prop} {S : List ℕ}
    (hQ : ∀ c m, Q m → Q (sbrk (short c) m (moreBytes n)).2)
    (hsmall : ∀ q ∈ S, h.size q < n) (hnext : ∀ q ∈ S, h.ptr q ∈ S) (hp : p ∈ S)
    (hm : Q (sbrk (short calls) m (moreBytes n)).2)
    (hrun : mallocLoop fuel n short k calls h m prevp p = some (.ok (r, h', m'))) : Q m' := by
  induction k generalizing prevp p with
  | zero => cases hrun
  | succ k ih =>
  rw [mallocLoop, if_neg (not_le.mpr (hsmall p hp))] at hrun
  split at hrun
  · dsimp only at hrun
    split at hrun
    · cases hrun
    cases hmore : morecore fuel h n (sbrk (short calls) m (moreBytes n)).1 with
    | none =>
      rw [hmore] at hrun
      cases hrun
    | some o =>
    rw [hmore] at hrun
    cases o with
    | none =>
      cases hrun
      exact hm
    | some h'' => exact (mallocLoop_keeps hQ hm hrun).1
  · exact ih (hnext p hp) hrun

/-! ### Memory that was obtained -/

/-- What was obtained is in the memory of the process, and all of that is mapped. -/
structure Within (h : Heap) (m : Mem) : Prop where
  obtained : ∀ b ∈ h.obtained, b.1 + 8 * b.2 ≤ m.sz
  lt : m.sz < KERNBASE
  mapped : m.sz ≤ m.mapped

theorem obtained_free {ap : ℕ} (hf : Umalloc.free fuel h ap = some h') :
    h'.obtained = h.obtained := by
  obtain ⟨q, -, rfl⟩ := map_eq_some_iff.mp hf
  have hupper : ∀ bp, (h.joinUpper q bp).obtained = h.obtained := by
    intro bp
    unfold Heap.joinUpper
    split <;> rfl
  have hlower : ∀ (g : Heap) (bp : ℕ), (g.joinLower q bp).obtained = g.obtained := by
    intro g bp
    unfold Heap.joinLower
    split <;> rfl
  exact (hlower _ _).trans (hupper _)

theorem obtained_morecore {hp : ℕ} (hmore : morecore fuel h n (some hp) = some (some h')) :
    h'.obtained = (hp, if n < 4096 then 4096 else n) :: h.obtained := by
  obtain ⟨h'', hf, heq⟩ := map_eq_some_iff.mp hmore
  cases heq
  rw [obtained_free hf]
  rfl

theorem obtained_carve : (carve h n prevp p).2.obtained = h.obtained := by
  unfold carve
  split <;> rfl

/-- A small request meets no page fault, and the process does not shrink. -/
theorem mallocLoop_within {x : Except Mem (Option ℕ × Heap × Mem)} (hn : 8 * n < 2 ^ 31)
    (hw : Within h m) (hrun : mallocLoop fuel n short k calls h m prevp p = some x) :
    ∃ r h' m', x = .ok (r, h', m') ∧ Within h' m' ∧ m.sz ≤ m'.sz ∧ m.mapped ≤ m'.mapped := by
  obtain ⟨hbytes, hpos, hlt⟩ := moreBytes_of_lt hn
  induction k generalizing calls h m prevp p with
  | zero => cases hrun
  | succ k ih =>
  rw [mallocLoop] at hrun
  split at hrun
  · cases hrun
    exact ⟨_, _, _, rfl, ⟨obtained_carve (h := h) ▸ hw.obtained, hw.lt, hw.mapped⟩, le_rfl, le_rfl⟩
  split at hrun
  · dsimp only at hrun
    rcases @sbrk_of_pos (short calls) m _ hpos hlt hw.lt with hs | ⟨hfit, hs⟩
    · rw [hs] at hrun
      cases hrun
      exact ⟨_, _, _, rfl, hw, le_rfl, le_rfl⟩
    have hup := le_PGROUNDUP (m.sz + moreBytes n)
    have hok : ¬ faults (some m.sz)
        ⟨m.sz + moreBytes n, max m.mapped (PGROUNDUP (m.sz + moreBytes n))⟩ = true := by
      rw [faults, any_some, decide_eq_true_eq]
      dsimp only
      omega
    rw [hs, if_neg hok] at hrun
    cases hmore : morecore fuel h n (some m.sz) with
    | none =>
      rw [hmore] at hrun
      cases hrun
    | some o =>
    rw [hmore] at hrun
    cases o with
    | none =>
      obtain ⟨h'', -, hne⟩ := map_eq_some_iff.mp hmore
      cases hne
    | some h'' =>
    have hw' : Within h'' ⟨m.sz + moreBytes n, max m.mapped (PGROUNDUP (m.sz + moreBytes n))⟩ := by
      refine ⟨fun b hb => ?_, hfit, hup.trans (le_max_right ..)⟩
      rw [obtained_morecore hmore] at hb
      rcases mem_cons.mp hb with rfl | hb
      · dsimp only
        omega
      · exact (hw.obtained b hb).trans (Nat.le_add_right ..)
    obtain ⟨r, g, m', hx, hw'', hsz, hmapped⟩ := ih hw' hrun
    exact ⟨r, g, m', hx, hw'', (Nat.le_add_right ..).trans hsz, (le_max_left ..).trans hmapped⟩
  · exact ih hw hrun

end Loop

/-! ### What a call returns -/

section Returns

variable {base fuel n nbytes : ℕ} {short : ℕ → Bool} {h h' : Heap} {m m' : Mem} {r : Option ℕ}
  {l : List ℕ} {live : List (ℕ × ℕ)} {s s' : State}

theorem sbrk_some {b x : ℕ} {low : Bool} (hs : (sbrk low m b).1 = some x) : x = m.sz := by
  unfold sbrk at hs
  dsimp only at hs
  split at hs
  · exact (some.inj hs).symm
  · cases hs

theorem returns_none_iff {answer : ℕ → Option ℕ} (hr : Ring base h h.freep l fun _ => False)
    (ha : Accounts base h (h.freep :: l) live)
    (hfresh : ∀ x, answer 0 = some x → base + 8 ≤ x ∧ ∀ b ∈ h.obtained, b.1 + 8 * b.2 ≤ x)
    (hfuel : 2 * l.length + 3 ≤ fuel)
    (hrun : Umalloc.mallocLoop fuel n answer fuel 0 h h.freep (h.ptr h.freep) = some (r, h')) :
    r = none ↔ (∀ y ∈ h.freep :: l, h.size y < n) ∧ answer 0 = none := by
  rcases hr.scan fuel n answer 0 (K := fuel) (by omega) with
    ⟨z, hz, hle, hfound⟩ | ⟨hsmall, k, hk, hcall⟩
  · rw [hfound] at hrun
    cases hrun
    refine iff_of_false (some_ne_none _) fun hc => ?_
    exact absurd hle (not_le.mpr (hc.1 _ (hr.ptr_mem hz)))
  cases hs : answer 0 with
  | none =>
    rw [hs] at hcall
    rw [hcall] at hrun
    cases hrun
    exact iff_of_true rfl ⟨hsmall, rfl⟩
  | some x =>
  obtain ⟨hbase, habove⟩ := hfresh x hs
  obtain ⟨h₁, l₁, hmore, hr₁, hlen, ha₁, y, hy, hsy⟩ :=
    hr.morecore fuel n ha hbase habove (by omega)
  rw [hs, hmore] at hcall
  rw [hcall] at hrun
  refine iff_of_false ?_ fun hc => absurd hc.2 (some_ne_none _)
  rintro rfl
  rcases hr₁.scan fuel n answer 1 (K := k) (by omega) with
    ⟨z, hz, hle, hfound⟩ | ⟨hsmall', -⟩
  · have hcontra := hfound.symm.trans hrun
    cases hcontra
  · exact absurd hsy (not_le.mpr (hsmall' y hy))

theorem block_le {b : ℕ × ℕ} (ha : Accounts base h (h.freep :: l) live) (hw : Within h m)
    (hb : b ∈ blocks h (h.freep :: l) ∨ b ∈ live) (hpos : 0 < b.2) : b.1 + 8 * b.2 ≤ m.sz := by
  have hcov : 1 ≤ cover (blocks h (h.freep :: l)) (b.1 + 8 * b.2 - 1) +
      cover live (b.1 + 8 * b.2 - 1) := by
    have hin : Covers (b.1 + 8 * b.2 - 1) b := ⟨by omega, by omega⟩
    rcases hb with hb | hb
    · exact (one_le_cover hb hin).trans (Nat.le_add_right ..)
    · exact (one_le_cover hb hin).trans (Nat.le_add_left ..)
  have hlt := ha.lt_fresh hw.obtained hcov
  omega

theorem usable_of_mallocs {ap : ℕ} (hm : Mallocs base live n (some ap) h') (hw : Within h' m')
    (hn : nbytes + 8 ≤ 8 * n) : Usable h' live m' ap nbytes := by
  obtain ⟨l', hr, ⟨hnone, -⟩ | ⟨a, hap, -, ha⟩⟩ := hm
  · cases hnone
  cases hap
  obtain ⟨-, hpos, hbase⟩ := ha.live (a, n) mem_cons_self
  dsimp only at hpos hbase
  refine ⟨?_, fun b hb => ?_, l', hr.cycle, fun q hq => ?_⟩
  · have hle := block_le ha hw (.inr mem_cons_self) hpos
    dsimp only at hle
    omega
  · have hone : ∀ x, cover [(a, n)] x + cover live x ≤ 1 := by
      intro x
      have hle := ha.le_one x
      rw [cover_cons] at hle
      omega
    have hb' := (ha.live b (mem_cons_of_mem _ hb)).2.1
    have hor := apart_of_mem hone (mem_singleton_self _) hb hpos hb'
    unfold Apart
    dsimp only at hor
    omega
  · unfold Apart
    dsimp only
    rcases eq_or_ne q base with rfl | hne
    · rw [hr.size_base]
      omega
    · have hor := apart_of_mem ha.le_one (mem_blocks hq) mem_cons_self (hr.pos q hq hne).2 hpos
      dsimp only at hor
      omega

/-! ### Whole runs -/

/-- The invariant of runs with small requests. -/
structure Sound (base : ℕ) (s : State) : Prop where
  inv : Inv base ⟨s.heap, s.live⟩
  within : Within s.heap s.mem
  low : 8 ≤ base
  base_le : base + 8 ≤ s.mem.sz

theorem malloc_erases (base fuel nbytes : ℕ) (short : ℕ → Bool) (s : State) :
    Erases (malloc base fuel s.heap s.mem nbytes short) (Umalloc.malloc base fuel s.heap nbytes
      (answers short s.mem (moreBytes (unitsOf nbytes)))) :=
  mallocLoop_erases

theorem malloc_of_ok (hrun : malloc base fuel s.heap s.mem nbytes short = some (.ok (r, h', m'))) :
    Umalloc.malloc base fuel s.heap nbytes (answers short s.mem (moreBytes (unitsOf nbytes))) =
      some (r, h') := by
  have herase := malloc_erases base fuel nbytes short s
  rwa [hrun] at herase

theorem Sound.started (hi : Sound base s) : ∃ l,
    Ring base (Umalloc.start base s.heap) (Umalloc.start base s.heap).freep l (fun _ => False) ∧
    Accounts base (Umalloc.start base s.heap) ((Umalloc.start base s.heap).freep :: l) s.live ∧
    Within (Umalloc.start base s.heap) s.mem := by
  have hlow := hi.low
  obtain ⟨l, hr, ha, hobtained⟩ := hi.inv.started (by omega)
  exact ⟨l, hr, ha, hobtained ▸ hi.within.obtained, hi.within.lt, hi.within.mapped⟩

theorem Sound.fresh (hi : Sound base s) (hw : Within h s.mem) (b x : ℕ)
    (hs : answers short s.mem b 0 = some x) :
    base + 8 ≤ x ∧ ∀ c ∈ h.obtained, c.1 + 8 * c.2 ≤ x := by
  rw [sbrk_some hs]
  exact ⟨hi.base_le, hw.obtained⟩

theorem Sound.malloc (hi : Sound base s) (nbytes : ℕ) (short : ℕ → Bool) :
    ∃ k, ∀ fuel ≥ k, ∃ x, malloc base fuel s.heap s.mem nbytes short = some x ∧
      ∀ r h' m', x = .ok (r, h', m') → Mallocs base s.live (unitsOf nbytes) r h' := by
  obtain ⟨l, hr, ha, hw⟩ := hi.started
  refine ⟨2 * l.length + 3, fun fuel hfuel => ?_⟩
  have hpos : 0 < unitsOf nbytes := Nat.succ_pos _
  have hfresh : ∀ x, answers short s.mem (moreBytes (unitsOf nbytes)) 0 = some x → _ :=
    hi.fresh hw (moreBytes (unitsOf nbytes))
  obtain ⟨r, h', hrun, hm⟩ := hr.malloc ha hpos hfresh hfuel
  have herase := malloc_erases base fuel nbytes short s
  unfold Umalloc.malloc at herase
  rw [hrun] at herase
  cases hx : Sbrk.malloc base fuel s.heap s.mem nbytes short with
  | none =>
    rw [hx] at herase
    cases herase
  | some x =>
  refine ⟨x, rfl, ?_⟩
  rintro r' h'' m' rfl
  rw [hx] at herase
  cases herase
  exact hm

theorem Sound.returns_none_iff (hi : Sound base s) (nbytes : ℕ) (short : ℕ → Bool) :
    ∃ l, Ring base (Umalloc.start base s.heap) (Umalloc.start base s.heap).freep l
        (fun _ => False) ∧
      ∃ k, ∀ fuel ≥ k, ∀ r h' m', Sbrk.malloc base fuel s.heap s.mem nbytes short =
        some (.ok (r, h', m')) → (r = none ↔ (∀ y ∈ (Umalloc.start base s.heap).freep :: l,
            (Umalloc.start base s.heap).size y < unitsOf nbytes) ∧
          (sbrk (short 0) s.mem (moreBytes (unitsOf nbytes))).1 = none) := by
  obtain ⟨l, hr, ha, hw⟩ := hi.started
  refine ⟨l, hr, 2 * l.length + 3, fun fuel hfuel r h' m' hrun => ?_⟩
  exact Sbrk.returns_none_iff hr ha (hi.fresh hw _) hfuel (malloc_of_ok hrun)

theorem small_units (h : Small nbytes) :
    8 * unitsOf nbytes < 2 ^ 31 ∧ nbytes + 8 ≤ 8 * unitsOf nbytes := by
  unfold Small at h
  unfold unitsOf
  omega

theorem Sound.honours (hi : Sound base s) (hsmall : Small nbytes) (short : ℕ → Bool) :
    Honours base s nbytes short := by
  obtain ⟨hlt, hle⟩ := small_units hsmall
  obtain ⟨l, -, -, hw⟩ := hi.started
  obtain ⟨k, hk⟩ := hi.malloc nbytes short
  refine ⟨k, fun fuel hfuel => ?_⟩
  obtain ⟨x, hrun, hm⟩ := hk fuel hfuel
  obtain ⟨r, h', m', rfl, hw', hsz, hmapped⟩ := mallocLoop_within hlt hw hrun
  refine ⟨r, h', m', hrun, hsz, hmapped, ?_⟩
  rintro ap rfl
  exact usable_of_mallocs (hm _ _ _ rfl) hw' hle

theorem Sound.step {a : Action × ℕ} (hi : Sound base s) (hok : Allowed s a)
    (hs : step base s a = some s') : Sound base s' := by
  have hlow := hi.low
  obtain ⟨a, f⟩ := a
  cases a with
  | malloc nbytes short =>
    suffices hgoal : ∀ {r h' m'}, Sbrk.malloc base f s.heap s.mem nbytes short =
        some (.ok (r, h', m')) → Sound base ⟨h', r.elim s.live fun ap =>
          (ap - 8, unitsOf nbytes) :: s.live, m'⟩ by
      unfold Sbrk.step at hs
      dsimp only at hs
      split at hs
      · next hrun =>
        cases hs
        exact hgoal hrun
      · next hrun =>
        cases hs
        exact hgoal hrun
      · cases hs
    intro r h' m' hrun
    obtain ⟨l, -, -, hw⟩ := hi.started
    obtain ⟨_, _, _, heq, hw', hsz, -⟩ := mallocLoop_within (small_units hok).1 hw hrun
    cases heq
    refine ⟨?_, hw', hlow, hi.base_le.trans hsz⟩
    have hallowed : Umalloc.Allowed base ⟨s.heap, s.live⟩
        (.malloc nbytes (answers short s.mem (moreBytes (unitsOf nbytes))), f) :=
      ⟨hok, hi.fresh hi.within _⟩
    refine hi.inv.step (by omega) hallowed ?_
    refine map_eq_some_iff.mpr ⟨(r, h'), malloc_of_ok hrun, ?_⟩
    cases r <;> rfl
  | free ap =>
    obtain ⟨h', hrun, rfl⟩ := map_eq_some_iff.mp hs
    have hobtained := obtained_free hrun
    refine ⟨?_, ⟨hobtained ▸ hi.within.obtained, hi.within.lt, hi.within.mapped⟩, hlow, hi.base_le⟩
    have hallowed : Umalloc.Allowed base ⟨s.heap, s.live⟩ (.free ap, f) := hok
    refine hi.inv.step (by omega) hallowed ?_
    exact map_eq_some_iff.mpr ⟨h', hrun, rfl⟩

theorem sound_of_reachable (h : Run.Reachable (Sbrk.step base) Allowed (Init base) s) :
    Sound base s := by
  refine h.invariant (fun s hs => ?_) fun s a s' hi hok hs => hi.step hok hs
  refine ⟨.inl hs.heap, ⟨fun b hb => ?_, hs.lt, hs.mapped⟩, hs.low, hs.base_le⟩
  rw [show s.heap.obtained = [] from hs.heap.2.1] at hb
  cases hb

/-! ### Large requests -/

/-- A request whose size is negative for `sbrk` is not honoured. -/
theorem Sound.not_honours_of_large (hi : Sound base s) (hn : nbytes + 7 < 2 ^ 32)
    (hlarge : ¬ Small nbytes) (short : ℕ → Bool) : ¬ Honours base s nbytes short := by
  rintro ⟨k, hk⟩
  have hunits : unitsOf nbytes = (nbytes + 7) / 8 + 1 := by
    unfold unitsOf
    omega
  have hge : 2 ^ 31 ≤ 8 * unitsOf nbytes := by
    unfold Small at hlarge
    omega
  have hbytes := moreBytes_of_ge hge (unitsOf_le nbytes)
  have hbound := moreBytes_lt (unitsOf nbytes)
  have hbase := hi.base_le
  have hlow := hi.low
  have hlt := hi.within.lt
  obtain ⟨l, hr, ha, hw⟩ := hi.started
  obtain ⟨k', hk'⟩ := hi.malloc nbytes short
  obtain ⟨r, h', m', hrun, hsz, hmapped, husable⟩ := hk (max k k') (le_max_left ..)
  obtain ⟨x, hrun', hm⟩ := hk' (max k k') (le_max_right ..)
  cases hrun.symm.trans hrun'
  replace hm := hm _ _ _ rfl
  by_cases hcut : 2 ^ 32 ≤ s.mem.sz + moreBytes (unitsOf nbytes)
  · -- no block is as large, so `sbrk` is called, and the memory does not grow again
    have hsmall : ∀ q ∈ (Umalloc.start base s.heap).freep :: l,
        (Umalloc.start base s.heap).size q < unitsOf nbytes := by
      intro q hq
      rcases Nat.eq_zero_or_pos ((Umalloc.start base s.heap).size q) with hzero | hpos
      · omega
      have hle := block_le ha hw (.inl (mem_blocks hq)) hpos
      unfold KERNBASE at hlt
      dsimp only at hle
      omega
    have hcuts := @sbrk_cut (short 0) s.mem _ hi.within.mapped hbound hcut hlt
    have hnever := mallocLoop_calls (Q := fun m => m.sz < s.mem.sz ∨ m.mapped < s.mem.mapped)
      (fun c m hm => ?_) hsmall (fun q hq => hr.ptr_mem hq) (hr.ptr_mem mem_cons_self) hcuts
      hrun
    · omega
    · obtain ⟨hle, hle'⟩ := @sbrk_le (short c) m _ hbytes hbound
      exact hm.imp (lt_of_le_of_lt hle) (lt_of_le_of_lt hle')
  -- `sbrk` answers with the old size and does nothing
  have hidle : ∀ c, sbrk (short c) s.mem (moreBytes (unitsOf nbytes)) =
      (some s.mem.sz, s.mem) := fun c =>
    sbrk_idle (by omega) (hbytes.imp_right fun hb => ⟨hb, not_le.mp hcut⟩)
  obtain ⟨hsame, hnone⟩ := mallocLoop_keeps (Q := fun m => m = s.mem) (fun c m hm => by
    rw [hm, hidle]) rfl hrun
  cases r with
  | none =>
    obtain ⟨c, m₀, rfl, hc⟩ := hnone rfl
    rw [hidle] at hc
    cases hc
  | some ap =>
  obtain ⟨l', -, ⟨hno, -⟩ | ⟨a, hap, -, ha'⟩⟩ := hm
  · cases hno
  cases hap
  have hin := (husable _ rfl).inside
  have habove := (ha'.live _ mem_cons_self).2.2
  rw [hsame] at hin
  unfold KERNBASE at hlt
  dsimp only at habove
  omega

/-- The only block in the list is `base`. -/
def NoBlock (h : Heap) : Prop := h.ptr h.freep = h.freep

theorem noBlock_iff (hr : Ring base h h.freep l fun _ => False) :
    NoBlock h ↔ ∀ y ∈ h.freep :: l, h.size y < 1 := by
  constructor
  · intro hno y hy
    cases l with
    | nil =>
      rw [mem_singleton.mp hy, ← mem_singleton.mp hr.base_mem, hr.size_base]
      exact Nat.one_pos
    | cons z l =>
    have hz : h.ptr h.freep = z := hr.cycle.1
    rw [← hz, hno] at hr
    exact absurd mem_cons_self (nodup_cons.mp hr.nodup).1
  · intro hzero
    have hall : ∀ y ∈ h.freep :: l, y = base := by
      intro y hy
      by_contra hne
      have hpos := (hr.pos y hy hne).2
      have hlt := hzero y hy
      omega
    rw [NoBlock, hall _ (hr.ptr_mem mem_cons_self), hall _ mem_cons_self]

theorem Sound.honours_wrapped_iff (hi : Sound base s) (hge : 2 ^ 32 ≤ nbytes + 7)
    (hn : nbytes < 2 ^ 32) (short : ℕ → Bool) : Honours base s nbytes short ↔
      NoBlock (Umalloc.start base s.heap) ∧ (sbrk (short 0) s.mem 32768).1 = none := by
  have hunits : unitsOf nbytes = 1 := by
    unfold unitsOf
    omega
  have hbytes : moreBytes (unitsOf nbytes) = 32768 := by
    rw [hunits]
    rfl
  have hsmall : 8 * unitsOf nbytes < 2 ^ 31 := by omega
  obtain ⟨l₀, -, -, hw⟩ := hi.started
  obtain ⟨l, hr, k', hnone⟩ := hi.returns_none_iff nbytes short
  rw [hunits, ← noBlock_iff hr, ← hunits, hbytes] at hnone
  obtain ⟨k'', hk''⟩ := hi.malloc nbytes short
  constructor
  · rintro ⟨k, hk⟩
    obtain ⟨r, h', m', hrun, -, -, husable⟩ := hk (max k k') (le_max_left ..)
    obtain ⟨_, _, _, heq, hw', -⟩ := mallocLoop_within hsmall hw hrun
    cases heq
    refine (hnone _ (le_max_right ..) r h' m' hrun).mp ?_
    by_contra hne
    obtain ⟨ap, rfl⟩ := ne_none_iff_exists'.mp hne
    have hin := (husable ap rfl).inside
    have hlt := hw'.lt
    unfold KERNBASE at hlt
    omega
  · intro hno
    refine ⟨max k' k'', fun fuel hfuel => ?_⟩
    obtain ⟨x, hrun, -⟩ := hk'' fuel ((le_max_right ..).trans hfuel)
    obtain ⟨r, h', m', rfl, -, hsz, hmapped⟩ := mallocLoop_within hsmall hw hrun
    refine ⟨r, h', m', hrun, hsz, hmapped, fun ap hap => ?_⟩
    have hr := (hnone fuel ((le_max_left ..).trans hfuel) r h' m' hrun).mpr hno
    rw [hap] at hr
    cases hr

/-- **The requests that are honoured**, in every state that small requests lead to: the small ones;
and those whose rounding wraps, if there is no block and no memory to give. -/
theorem malloc_honours_iff (hreach : Run.Reachable (Sbrk.step base) Allowed (Init base) s)
    (hn : nbytes < 2 ^ 32) : Honours base s nbytes short ↔ Small nbytes ∨
      2 ^ 32 ≤ nbytes + 7 ∧ NoBlock (Umalloc.start base s.heap) ∧
        (sbrk (short 0) s.mem 32768).1 = none := by
  have hi := sound_of_reachable hreach
  by_cases hsmall : Small nbytes
  · exact iff_of_true (hi.honours hsmall short) (.inl hsmall)
  by_cases hwrap : 2 ^ 32 ≤ nbytes + 7
  · rw [hi.honours_wrapped_iff hwrap hn short]
    exact ⟨fun h => .inr ⟨hwrap, h⟩, fun h => (h.resolve_left hsmall).2⟩
  · refine iff_of_false (hi.not_honours_of_large (not_le.mp hwrap) hsmall short) fun h => ?_
    exact hwrap (h.resolve_left hsmall).1

end Returns

/-! ### A small process -/

def fresh : State := ⟨⟨fun _ => 0, fun _ => 0, 0, []⟩, [], ⟨0x20000, 0x20000⟩⟩

theorem init_fresh : Init 16 fresh :=
  ⟨⟨rfl, rfl, rfl⟩, by decide, by decide, by decide, by decide⟩

/-- A request of a hundred bytes. -/
theorem malloc_honours_iff_hundred : Honours 16 fresh 100 fun _ => false :=
  (malloc_honours_iff (.start init_fresh) (by decide)).mpr (.inl (by decide))

/-- `malloc(4294901752)` is `sbrk(-65536)`: the process loses half of its memory, and the store to
the header at its old end is a page fault. -/
theorem malloc_cuts : Run.Reachable (step 16) Allowed (Init 16) fresh ∧
    malloc 16 10 fresh.heap fresh.mem 4294901752 (fun _ => false) =
      some (.error ⟨0x10000, 0x10000⟩) ∧ ¬ Honours 16 fresh 4294901752 fun _ => false := by
  have hreach : Run.Reachable (step 16) Allowed (Init 16) fresh := .start init_fresh
  refine ⟨hreach, by rfl, ?_⟩
  exact (sound_of_reachable hreach).not_honours_of_large (by decide) (by decide) _

end Xv6.Sbrk
