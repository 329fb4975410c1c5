import Xv6.Disk
import Xv6.Lib.Crash

/-!
# The write-ahead log on the disk

`log.c` from `install_trans` to `commit`: how a transaction gets to the disk and how a reboot
finishes one that was cut off. The functions are the source's, run as crash programs: `bwrite` is
the one durable write, and the run may end before any of them.

## What is volatile

The in-memory log header, and the buffers marked `B_DIRTY`. A buffer that is not dirty holds what
the disk holds and may be evicted and read again at any time, so it is not part of the state:
`bread` returns the dirty buffer if there is one and the disk block otherwise. `bwrite` sends the
buffer to the disk and leaves it clean.

The in-memory header is the list `block[0..n)`. Entries past `n` are never read: every loop runs to
`n`, and `n` grows only by storing the new entry.
-/

namespace Xv6

open CrashM Function List

/-- What a power failure erases: the in-memory log header and the dirty buffers. -/
structure LogMem where
  /-- `log.lh.block[0..log.lh.n)`. -/
  lh : List ℕ
  /-- The buffers that differ from the disk, by block number. -/
  dirty : ℕ → Option Block

def LogMem.boot : LogMem := ⟨[], fun _ => none⟩

abbrev LogM : Type → Type := CrashM LogMem Disk

/-! ### The buffer cache, as the log sees it -/

/-- The contents of the buffer for block `b`. -/
def bread (b : ℕ) : LogM Block := do
  let v ← volatile
  let d ← durable
  return (v.dirty b).getD (d b)

/-- Write the contents `data` of `b`'s buffer to the disk; the buffer is clean afterwards. -/
def bwrite (b : ℕ) (data : Block) : LogM Unit := do
  write fun d => update d b data
  modifyVolatile fun v => { v with dirty := update v.dirty b none }

/-! ### The header block -/

/-- `lh->n`, a signed `int`. -/
def headN (b : Block) : ℤ :=
  if getWord b 0 < 2 ^ 31 then getWord b 0 else (getWord b 0 : ℤ) - 2 ^ 32

/-- The header stored in a block: `block[0..n)`, empty when `n` is not positive. -/
def headBlocks (b : Block) : List ℕ := (range (headN b).toNat).map fun i => getWord b (i + 1)

/-- `hb->n = lh.n` and `hb->block[i] = lh.block[i]` for `i < n`; the rest of the block is kept. -/
def putHead (b : Block) (lh : List ℕ) : Block :=
  (range lh.length).foldl (fun b i => setWord b (i + 1) (lh.getD i 0))
    (setWord b 0 lh.length)

section Functions

variable (start : ℕ)

/-- Read the log header from disk into the in-memory log header. -/
def readHead : LogM Unit := do
  let buf ← bread start
  modifyVolatile fun v => { v with lh := headBlocks buf }

/-- Write in-memory log header to disk. This is the true point at which the current transaction
commits. -/
def writeHead : LogM Unit := do
  let buf ← bread start
  let v ← volatile
  bwrite start (putHead buf v.lh)

def installTrans : LogM Unit := do
  let v ← volatile
  forUpTo (fun tail => do
    let lbuf ← bread (start + tail + 1)
    bwrite (v.lh.getD tail 0) lbuf) v.lh.length

def recoverFromLog : LogM Unit := do
  readHead start
  installTrans start
  modifyVolatile fun v => { v with lh := [] }
  writeHead start

def writeLog : LogM Unit := do
  let v ← volatile
  forUpTo (fun tail => do
    let src ← bread (v.lh.getD tail 0)
    bwrite (start + tail + 1) src) v.lh.length

def commit : LogM Unit := do
  let v ← volatile
  if v.lh.length > 0 then
    writeLog start
    writeHead start
    installTrans start
    modifyVolatile fun v => { v with lh := [] }
    writeHead start
  else
    pure ()

end Functions

/-! ### Header round trip -/

theorem headN_of_lt {b : Block} {n : ℕ} (h : getWord b 0 = n) (hn : n < 2 ^ 31) : headN b = n := by
  rw [headN, h, if_pos hn]

theorem getWord_foldl_setWord {f : ℕ → ℕ} (hf : ∀ i, f i < 2 ^ 32) (b : Block) :
    ∀ n : ℕ, n < NINDIRECT → ∀ j : ℕ,
      getWord ((range n).foldl (fun b i => setWord b (i + 1) (f i)) b) j
        = if 1 ≤ j ∧ j ≤ n then f (j - 1) else getWord b j
  | 0, _, j => by
    rw [if_neg (by omega)]
    rfl
  | n + 1, hn, j => by
    rw [range_succ, foldl_append, foldl_cons, foldl_nil]
    rcases eq_or_ne j (n + 1) with rfl | hj
    · rw [getWord_setWord_self hn (hf n), if_pos (by omega), Nat.add_sub_cancel]
    · rw [getWord_setWord_of_ne hj, getWord_foldl_setWord hf b n (by omega)]
      exact if_congr (by omega) rfl rfl

/-- **Header round trip.** What `writeHead` stores, `readHead` reads back, provided the header
fits the block: that is `initlog`'s check on `sizeof(struct logheader)`. -/
theorem headBlocks_putHead {b : Block} {lh : List ℕ} (hlen : lh.length < NINDIRECT)
    (hlt : ∀ x ∈ lh, x < 2 ^ 32) : headBlocks (putHead b lh) = lh := by
  have hN : NINDIRECT = 128 := rfl
  have hget : ∀ i, lh.getD i 0 < 2 ^ 32 := by
    intro i
    rw [getD_eq_getElem?_getD]
    cases h : lh[i]? with
    | none => simp
    | some x => exact hlt x (mem_of_getElem? h)
  have hn : headN (putHead b lh) = lh.length := by
    refine headN_of_lt ?_ (by omega)
    rw [putHead, getWord_foldl_setWord hget _ _ hlen, if_neg (by omega),
      getWord_setWord_self (by omega) (by omega)]
  rw [headBlocks, hn, Int.toNat_natCast]
  refine ext_getElem (by simp) fun i h1 h2 => ?_
  simp only [getElem_map, getElem_range]
  rw [putHead, getWord_foldl_setWord hget _ _ hlen, if_pos (by omega), Nat.add_sub_cancel,
    getD_eq_getElem?_getD, getElem?_eq_getElem h2, Option.getD_some]

theorem headBlocks_eq_nil {b : Block} (h : headN b ≤ 0) : headBlocks b = [] := by
  rw [headBlocks, Int.toNat_of_nonpos h, range_zero, map_nil]

/-! ### Specifications of the buffer operations -/

variable {C : ℕ → Disk → Prop} {P : LogMem → Disk → Prop}

theorem triple_bind_bread {α : Type} {b m : ℕ} {f : Block → LogM α} {Q : α → LogMem → Disk → Prop}
    (hf : ∀ x, (∃ v d, P v d ∧ (v.dirty b).getD (d b) = x) → Triple P (f x) m Q C) :
    Triple P (bread b >>= f) m Q C :=
  fun v d hP k => hf _ ⟨v, d, hP, rfl⟩ v d hP k

theorem triple_bwrite {b : ℕ} {data : Block} {Q : Unit → LogMem → Disk → Prop} :
    Triple (fun v d => C 0 d ∧ Q () { v with dirty := update v.dirty b none } (update d b data))
      (bwrite b data) 1 Q C := by
  intro v d hp k
  cases k with
  | zero => exact ⟨fun _ => ⟨d, rfl, hp.1⟩, fun h => absurd h (by omega)⟩
  | succ k => exact ⟨fun h => absurd h (by omega), fun _ => ⟨(), _, _, rfl, hp.2⟩⟩

end Xv6
