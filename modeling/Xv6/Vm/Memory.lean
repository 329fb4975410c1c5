import Mathlib.Algebra.GroupWithZero.Nat
import Xv6.Lib.Hoare

/-!
# Physical pages and page tables

`kalloc.c` and `vm.c`. Memory is a set of pages of 1024 words; a page is its number, and 0 stands
for the null pointer. A page table is a page, so a freed table is overwritten with junk, whose
entries have the present bit set.

An entry is a word: the page it points to, times 4096, and twelve flags. Virtual addresses are
natural numbers below 2³²; where an operation of the source can wrap, the reduction is written out.

A failing `kalloc` is an input: a list says which of the coming calls find no page. Otherwise
`kalloc` fails when the free list is empty.

The kernel's mappings depend on where the linker puts `data`, and the pages that can be allocated
on `end`. Both are parameters of the machine.
-/

namespace Xv6.Vm

open Hoare

def PGSIZE : ℕ := 4096

/-- Number of directory entries per page directory, and of entries per page table. -/
def NPDENTRIES : ℕ := 1024

def KERNBASE : ℕ := 2 ^ 31

def PDX (va : ℕ) : ℕ := va / 2 ^ 22 % 1024

def PTX (va : ℕ) : ℕ := va / 2 ^ 12 % 1024

def PGADDR (d t o : ℕ) : ℕ := (d * 2 ^ 22 + t * 2 ^ 12 + o) % 2 ^ 32

def PGROUNDUP (sz : ℕ) : ℕ := (sz + PGSIZE - 1) % 2 ^ 32 / PGSIZE * PGSIZE

def PGROUNDDOWN (a : ℕ) : ℕ := a / PGSIZE * PGSIZE

/-! ### Entries -/

def PTE_W : ℕ := 2

def PTE_U : ℕ := 4

/-- `*pte & PTE_P`. -/
def Present (w : ℕ) : Prop := w % 2 = 1

/-- `*pte & PTE_U`. -/
def IsUser (w : ℕ) : Prop := w / 4 % 2 = 1

instance (w : ℕ) : Decidable (Present w) := inferInstanceAs (Decidable (_ = _))

instance (w : ℕ) : Decidable (IsUser w) := inferInstanceAs (Decidable (_ = _))

/-- The page of `PTE_ADDR`. -/
def pageOf (w : ℕ) : ℕ := w / 4096

/-- `PTE_FLAGS`. -/
def flagsOf (w : ℕ) : ℕ := w % 4096

/-- `pa | perm | PTE_P`, for the page `p`. -/
def mkEntry (p perm : ℕ) : ℕ := 4096 * p + perm / 2 * 2 + 1

/-- `*pte & ~PTE_U`. -/
def clearUser (w : ℕ) : ℕ := w - w / 4 % 2 * 4

/-! ### The machine -/

/-- An element of `kmap[]`: an address, a number of bytes, the first physical page, permissions. -/
structure Kmap where
  virt : ℕ
  size : ℕ
  phys : ℕ
  perm : ℕ
  virt_ge : KERNBASE ≤ virt
  size_pos : 0 < size
  fits : virt + size ≤ 2 ^ 32
  perm_le : perm ≤ PTE_W

/-- What the linker and `memlayout.h` decide. -/
structure Machine where
  kmap : List Kmap
  kend : ℕ
  /-- `PHYSTOP`, in pages. -/
  phystop : ℕ
  kend_pos : 0 < kend

/-- The machine of `memlayout.h`, with the kernel's data at page `data`. -/
def xv6 (data kend : ℕ) (hdata : 256 < data) (hlt : data < 0xE000) (hkend : 0 < kend) :
    Machine where
  kmap :=
    [ -- I/O space
     ⟨KERNBASE, 2 ^ 20, 0, PTE_W, by decide, by decide, by decide, by decide⟩,
     -- kern text+rodata
     ⟨KERNBASE + 2 ^ 20, 4096 * data - 2 ^ 20, 256, 0, by omega, by omega,
      by rw [KERNBASE]; omega, by decide⟩,
     -- kern data+memory
     ⟨KERNBASE + 4096 * data, 4096 * (0xE000 - data), data, PTE_W, by omega, by omega,
      by rw [KERNBASE]; omega, by decide⟩,
     -- more devices
     ⟨0xFE000000, 2 ^ 32 - 0xFE000000, 0xFE000, PTE_W, by decide, by decide, by decide, by decide⟩]
  kend := kend
  phystop := 0xE000
  kend_pos := hkend

/-- A page that `kfree` accepts. -/
def Machine.Allocatable (M : Machine) (x : ℕ) : Prop := M.kend ≤ x ∧ x < M.phystop

instance (M : Machine) (x : ℕ) : Decidable (M.Allocatable x) :=
  inferInstanceAs (Decidable (_ ∧ _))

structure Mem where
  /-- `kmem.freelist`. -/
  freelist : List ℕ
  /-- Which of the coming calls of `kalloc` find no page. -/
  fails : List Bool
  word : ℕ → ℕ → ℕ

/-- The panics, and the places where the source follows a null pointer. -/
inductive Panic where
  | kfree
  | remap
  | noPgdir
  | addressShouldExist
  | notAligned
  | pteShouldExist
  | pageNotPresent
  | clearpteu
  | nullPointer
  deriving DecidableEq

abbrev VmM : Type → Type := StateT Mem (Except Panic)

/-! ### Pages -/

/-- Read word `i` of page `p`. -/
def load (p i : ℕ) : VmM ℕ := do return (← get).word p i

def Mem.fill (s : Mem) (p : ℕ) (f : ℕ → ℕ) : Mem := { s with word := Function.update s.word p f }

/-- Store word `i` of page `p`. -/
def Mem.store (s : Mem) (p i w : ℕ) : Mem := s.fill p (Function.update (s.word p) i w)

def store (p i w : ℕ) : VmM Unit := modify fun s => s.store p i w

/-- `memset`, `memmove` or `readi` to a whole page. -/
def fill (p : ℕ) (f : ℕ → ℕ) : VmM Unit := modify fun s => s.fill p f

/-- Allocate one page of physical memory; zero if it cannot be allocated. -/
def kalloc : VmM ℕ := do
  let s ← get
  if s.fails.headD false then do
    set { s with fails := s.fails.tail }
    return 0
  else match s.freelist with
    | [] => do
      set { s with fails := s.fails.tail }
      return 0
    | r :: next => do
      set { s with freelist := next, fails := s.fails.tail }
      return r

/-- `memset(v, 1, PGSIZE)`. -/
def junk : ℕ := 0x01010101

section Functions

variable (M : Machine)

def kfree (p : ℕ) : VmM Unit := do
  if M.Allocatable p then do
    fill p fun _ => junk
    modify fun s => { s with freelist := p :: s.freelist }
  else throw .kfree

/-! ### Page tables -/

/-- The entry of virtual address `va`, as a page table and an index; with `alloc`, create the page
table if there is none. -/
def walkpgdir (pgdir va : ℕ) (alloc : Bool) : VmM (Option (ℕ × ℕ)) := do
  let pde ← load pgdir (PDX va)
  if Present pde then return some (pageOf pde, PTX va)
  else if alloc = false then return none
  else do
    let pgtab ← kalloc
    if pgtab = 0 then return none
    else do
      -- Make sure all those PTE_P bits are zero.
      fill pgtab fun _ => 0
      store pgdir (PDX va) (mkEntry pgtab (PTE_W + PTE_U))
      return some (pgtab, PTX va)

/-- The loop of `mappages`: `true` for 0 and `false` for -1. -/
def mapLoop (pgdir perm last : ℕ) : ℕ → ℕ → ℕ → VmM Bool
  | 0, _, _ => return true
  | fuel + 1, a, pp => do
    match ← walkpgdir pgdir a true with
    | none => return false
    | some (t, j) => do
      let pte ← load t j
      if Present pte then throw .remap
      else do
        store t j (mkEntry pp perm)
        if a = last then return true
        else mapLoop pgdir perm last fuel (a + PGSIZE) (pp + 1)

/-- Create entries for virtual addresses starting at `va` that refer to physical pages starting at
`pp`. -/
def mappages (pgdir va size pp perm : ℕ) : VmM Bool :=
  let a := PGROUNDDOWN va
  let last := PGROUNDDOWN (va + size - 1)
  mapLoop pgdir perm last ((last - a) / PGSIZE + 1) a pp

/-- Free the page of an entry, if it is present, and clear it. -/
def clearEntry (t j : ℕ) : VmM Unit := do
  let pte ← load t j
  if Present pte then
    if pageOf pte = 0 then throw .kfree
    else do
      kfree M (pageOf pte)
      store t j 0
  else pure ()

/-- The loop of `deallocuvm`. -/
def deallocLoop (pgdir oldsz : ℕ) : ℕ → ℕ → VmM Unit
  | 0, _ => return ()
  | fuel + 1, a =>
    if a < oldsz then do
      match ← walkpgdir pgdir a false with
      | none => deallocLoop pgdir oldsz fuel (PGADDR (PDX a + 1) 0 0)
      | some (t, j) => do
        clearEntry M t j
        deallocLoop pgdir oldsz fuel (a + PGSIZE)
    else return ()

/-- Deallocate user pages to bring the process size from `oldsz` to `newsz`. -/
def deallocuvm (pgdir oldsz newsz : ℕ) : VmM ℕ := do
  if newsz ≥ oldsz then return oldsz
  else do
    deallocLoop M pgdir oldsz (oldsz / PGSIZE + 1) (PGROUNDUP newsz)
    return newsz

/-- Free a page table and all the physical memory pages in the user part. -/
def freevm (pgdir : ℕ) : VmM Unit := do
  if pgdir = 0 then throw .noPgdir
  else do
    let _ ← deallocuvm M pgdir KERNBASE 0
    forUpTo (fun i => do
      let pde ← load pgdir i
      if Present pde then kfree M (pageOf pde) else pure ()) NPDENTRIES
    kfree M pgdir

/-- The loop of `setupkvm`. -/
def mapKernel (pgdir : ℕ) : List Kmap → VmM Bool
  | [] => return true
  | k :: ks => do
    if ← mappages pgdir k.virt k.size k.phys k.perm then mapKernel pgdir ks
    else return false

/-- Set up kernel part of a page table; zero if there is no memory. -/
def setupkvm : VmM ℕ := do
  let pgdir ← kalloc
  if pgdir = 0 then return 0
  else do
    fill pgdir fun _ => 0
    if ← mapKernel pgdir M.kmap then return pgdir
    else do
      freevm M pgdir
      return 0

/-- The loop of `allocuvm`. -/
def allocLoop (pgdir oldsz newsz : ℕ) : ℕ → ℕ → VmM ℕ
  | 0, _ => return newsz
  | fuel + 1, a =>
    if a < newsz then do
      let mem ← kalloc
      if mem = 0 then do
        let _ ← deallocuvm M pgdir newsz oldsz
        return 0
      else do
        fill mem fun _ => 0
        if ← mappages pgdir a PGSIZE mem (PTE_W + PTE_U) then
          allocLoop pgdir oldsz newsz fuel (a + PGSIZE)
        else do
          let _ ← deallocuvm M pgdir newsz oldsz
          kfree M mem
          return 0
    else return newsz

/-- Allocate page tables and physical memory to grow process from `oldsz` to `newsz`. Returns the
new size, or 0 on error. -/
def allocuvm (pgdir oldsz newsz : ℕ) : VmM ℕ := do
  if newsz ≥ KERNBASE then return 0
  else if newsz < oldsz then return oldsz
  else allocLoop M pgdir oldsz newsz (newsz / PGSIZE + 1) (PGROUNDUP oldsz)

/-- The loop of `copyuvm`, from `pgdir` to `d`: `false` for `goto bad`. -/
def copyLoop (pgdir sz d : ℕ) : ℕ → ℕ → VmM Bool
  | 0, _ => return true
  | fuel + 1, i =>
    if i < sz then do
      match ← walkpgdir pgdir i false with
      | none => throw .pteShouldExist
      | some (t, j) => do
        let pte ← load t j
        if Present pte then do
          let mem ← kalloc
          if mem = 0 then return false
          else do
            let s ← get
            fill mem (s.word (pageOf pte))
            if ← mappages d i PGSIZE mem (flagsOf pte) then
              copyLoop pgdir sz d fuel (i + PGSIZE)
            else do
              kfree M mem
              return false
        else throw .pageNotPresent
    else return true

/-- Given a parent process's page table, create a copy of it for a child. -/
def copyuvm (pgdir sz : ℕ) : VmM ℕ := do
  let d ← setupkvm M
  if d = 0 then return 0
  else do
    if ← copyLoop M pgdir sz d (sz / PGSIZE + 1) 0 then return d
    else do
      freevm M d
      return 0

def clearpteu (pgdir uva : ℕ) : VmM Unit := do
  match ← walkpgdir pgdir uva false with
  | none => throw .clearpteu
  | some (t, j) => do
    let pte ← load t j
    store t j (clearUser pte)

end Functions

/-! ### Contents of user pages -/

/-- Byte `k` of a page with words `f`. -/
def byteAt (f : ℕ → ℕ) (k : ℕ) : UInt8 := UInt8.ofNat (f (k / 4) / 256 ^ (k % 4))

/-- The words of a page with bytes `b`. -/
def ofBytes (b : ℕ → UInt8) (i : ℕ) : ℕ :=
  (b (4 * i)).toNat + 256 * (b (4 * i + 1)).toNat + 65536 * (b (4 * i + 2)).toNat +
    16777216 * (b (4 * i + 3)).toNat

/-- A page with words `f` after bytes were stored from `off` on. -/
def overwrite (f : ℕ → ℕ) (off : ℕ) (bs : List UInt8) : ℕ → ℕ :=
  ofBytes fun k => if off ≤ k then bs[k - off]?.getD (byteAt f k) else byteAt f k

/-- `memmove` of bytes to offset `off` of page `p`. -/
def memmove (p off : ℕ) (bs : List UInt8) : VmM Unit :=
  modify fun s => s.fill p (overwrite (s.word p) off bs)

/-- `readi`, from a file that is not a device: the bytes it delivers, or `none` for -1. -/
def readi (file : List UInt8) (off n : ℕ) : Option (List UInt8) :=
  if off > file.length ∨ (off + n) % 2 ^ 32 < off then none else some ((file.drop off).take n)

/-- The loop of `loaduvm`. -/
def loadLoop (pgdir addr : ℕ) (file : List UInt8) (offset sz : ℕ) : ℕ → ℕ → VmM Bool
  | 0, _ => return true
  | fuel + 1, i =>
    if i < sz then do
      match ← walkpgdir pgdir ((addr + i) % 2 ^ 32) false with
      | none => throw .addressShouldExist
      | some (t, j) => do
        let pte ← load t j
        let n := if sz - i < PGSIZE then sz - i else PGSIZE
        match readi file ((offset + i) % 2 ^ 32) n with
        | none => return false
        | some bs => do
          memmove (pageOf pte) 0 bs
          if bs.length = n then loadLoop pgdir addr file offset sz fuel (i + PGSIZE)
          else return false
    else return true

/-- Load a program segment into `pgdir`: `true` for 0 and `false` for -1. -/
def loaduvm (pgdir addr : ℕ) (file : List UInt8) (offset sz : ℕ) : VmM Bool := do
  if addr % PGSIZE ≠ 0 then throw .notAligned
  else loadLoop pgdir addr file offset sz (sz / PGSIZE + 1) 0

/-- Map user virtual address to the page behind it. The source does not ask whether `walkpgdir`
found an entry. -/
def uva2ka (pgdir uva : ℕ) : VmM (Option ℕ) := do
  match ← walkpgdir pgdir uva false with
  | none => throw .nullPointer
  | some (t, j) => do
    let pte ← load t j
    if Present pte ∧ IsUser pte then return some (pageOf pte) else return none

/-- The loop of `copyout`. -/
def copyoutLoop (pgdir : ℕ) : ℕ → ℕ → List UInt8 → VmM Bool
  | 0, _, _ => return true
  | fuel + 1, va, buf =>
    if buf.length > 0 then do
      let va0 := PGROUNDDOWN va
      match ← uva2ka pgdir va0 with
      | none => return false
      | some pa0 => do
        let n := min (PGSIZE - (va - va0)) buf.length
        memmove pa0 (va - va0) (buf.take n)
        copyoutLoop pgdir fuel ((va0 + PGSIZE) % 2 ^ 32) (buf.drop n)
    else return true

/-- Copy bytes to user address `va`: `true` for 0 and `false` for -1. Every turn of the loop copies
at least one byte. -/
def copyout (pgdir va : ℕ) (buf : List UInt8) : VmM Bool :=
  copyoutLoop pgdir (buf.length + 1) va buf

end Xv6.Vm
