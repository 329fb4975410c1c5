import Xv6.Names.Namespace

/-!
# Inode references over whole runs

`exec` looks the program up, reads it under the lock of its inode, and gives the inode back whether
or not it can load the program. With it, every call of the kernel that takes or drops references to
inodes is modelled, and between calls the reference counts of the inode cache are exact.

What the memory has to do with it is an input: which allocations succeed, and whether the arguments
fit on the stack.
-/

namespace Xv6.Names

open Hoare Tally

def field (bytes : List UInt8) (off len : ℕ) : ℕ :=
  ((bytes.drop off).take len).foldr (fun c n => c.toNat + 256 * n) 0

/-- `sizeof(struct elfhdr)` -/
def ELFHDR : ℕ := 52

/-- `sizeof(struct proghdr)` -/
def PROGHDR : ℕ := 32

def ELF_MAGIC : ℕ := 0x464C457F

def ELF_PROG_LOAD : ℕ := 1

/-- What `exec` depends on besides the file system. -/
structure Env where
  /-- `setupkvm` finds memory. -/
  setup : Bool
  /-- `allocuvm` finds memory for a program header. -/
  alloc : ℕ → Bool
  /-- `allocuvm` finds memory for the stack. -/
  stack : Bool
  /-- The arguments are few, and `copyout` succeeds. -/
  args : Bool
  /-- `devsw[ip->major].read` -/
  read : Option (ℕ → ℤ × List UInt8)

section Exec

variable (p : Fin NPROC) (env : Env) (ip : Ptr)

/-- `readi`, also of a device. The console gives up the lock of the inode while it waits. -/
def readAny (off n : ℕ) : KM (ℤ × List UInt8) := do
  let d ← inode ip
  if d.type = T_DEV then
    match env.read with
    | none => return (-1, [])
    | some read => do
      iunlock ip
      ilock ip
      return read n
  else readi ip off n

/-- The loop of `loaduvm`, as far as it reads. The first argument bounds the number of pages. -/
def loadLoop (off sz : ℕ) : ℕ → ℕ → KM Bool
  | 0, _ => return true
  | k + 1, i =>
    if i < sz then do
      let r ← readAny env ip ((off + i) % 2 ^ 32) (min (sz - i) 4096)
      if r.1 ≠ min (sz - i) 4096 then return false
      else loadLoop off sz k (i + 4096)
    else return true

/-- The loop over the program headers: `k` are left, and header `i` is at `off`. -/
def segments : ℕ → ℕ → ℕ → KM Bool
  | 0, _, _ => return true
  | k + 1, i, off => do
    let ph ← readAny env ip off PROGHDR
    if ph.1 ≠ PROGHDR then return false
    else if field ph.2 0 4 ≠ ELF_PROG_LOAD then segments k (i + 1) ((off + PROGHDR) % 2 ^ 32)
    else if field ph.2 20 4 < field ph.2 16 4 then return false
    else if (field ph.2 8 4 + field ph.2 20 4) % 2 ^ 32 < field ph.2 8 4 then return false
    else if env.alloc i = false then return false
    else if field ph.2 8 4 % 4096 ≠ 0 then return false
    else do
      let ok ← loadLoop env ip (field ph.2 4 4) (field ph.2 16 4) (field ph.2 16 4 / 4096 + 1) 0
      if ok then segments k (i + 1) ((off + PROGHDR) % 2 ^ 32) else return false

def loadProgram : KM Bool := do
  let elf ← readAny env ip 0 ELFHDR
  if elf.1 ≠ ELFHDR then return false
  else if field elf.2 0 4 ≠ ELF_MAGIC then return false
  else if env.setup = false then return false
  else segments env ip (field elf.2 44 2) 0 (field elf.2 28 4)

/-- What `exec` does to inodes. On every path the inode is given back once. -/
def exec (path : Option Path) : KM ℤ :=
  match path with
  | none => return -1
  | some path => do
    match ← namei p path with
    | none => return -1
    | some ip => do
      ilock ip
      let ok ← loadProgram env ip
      iunlockput ip
      if ok ∧ env.stack ∧ env.args then return 0 else return -1

end Exec

/-! ### `exec` leaves everything as it was -/

section Via

variable {v u : View} {p : Fin NPROC} {env : Env} {ip : Ptr} {i : ℕ}

/-- The inode is locked, and what happens under the lock changes nothing. -/
structure Reading (v u : View) (ip : Ptr) (i : ℕ) : Prop where
  quiet : v.locked ip = false
  live : (v.inode i).type ≠ 0
  at_take : (v.take ip i).At ip i
  eq : u = oneLocked v ip i

theorem via_readAny (h : Reading v u ip i) (off n : ℕ) :
    Via Shows (readAny env ip off n) (fun _ w => u = w) (fun _ => True) u := by
  obtain ⟨hquiet, hlive, hat, rfl⟩ := h
  refine Via.cont (via_inode hat View.locked_lock_self ?_)
  refine Via.ite (fun _ => ?_) fun _ => ?_
  · split
    · exact Via.pure rfl
    · refine Via.seq (u := v.take ip i) (via_iunlock hat View.locked_lock_self
        (View.unlock_lock hquiet)) ?_
      exact Via.cont (via_ilock hat hquiet (fun _ => Via.pure rfl) fun _ => trivial)
  · refine Via.cont (via_inode hat View.locked_lock_self ?_)
    exact Via.ite (fun _ => Via.pure rfl) fun _ => Via.pure rfl

theorem via_loadLoop (h : Reading v u ip i) (off sz : ℕ) : ∀ k j,
    Via Shows (loadLoop env ip off sz k j) (fun _ w => u = w) (fun _ => True) u := by
  intro k
  induction k with
  | zero => exact fun _ => Via.pure rfl
  | succ k ih =>
  intro j
  refine Via.ite (fun _ => ?_) fun _ => Via.pure rfl
  refine Via.bind (via_readAny h _ _) ?_
  rintro r _ rfl
  exact Via.ite (fun _ => Via.pure rfl) fun _ => ih _

theorem via_segments (h : Reading v u ip i) : ∀ k j off,
    Via Shows (segments env ip k j off) (fun _ w => u = w) (fun _ => True) u := by
  intro k
  induction k with
  | zero => exact fun _ _ => Via.pure rfl
  | succ k ih =>
  intro j off
  refine Via.bind (via_readAny h _ _) ?_
  rintro ph _ rfl
  refine Via.ite (fun _ => Via.pure rfl) fun _ => ?_
  refine Via.ite (fun _ => ih _ _) fun _ => ?_
  refine Via.ite (fun _ => Via.pure rfl) fun _ => ?_
  refine Via.ite (fun _ => Via.pure rfl) fun _ => ?_
  refine Via.ite (fun _ => Via.pure rfl) fun _ => ?_
  refine Via.ite (fun _ => Via.pure rfl) fun _ => ?_
  refine Via.bind (via_loadLoop h _ _ _ _) ?_
  rintro ok _ rfl
  exact Via.ite (fun _ => ih _ _) fun _ => Via.pure rfl

theorem via_loadProgram (h : Reading v u ip i) :
    Via Shows (loadProgram env ip) (fun _ w => u = w) (fun _ => True) u := by
  refine Via.bind (via_readAny h _ _) ?_
  rintro elf _ rfl
  refine Via.ite (fun _ => Via.pure rfl) fun _ => ?_
  refine Via.ite (fun _ => Via.pure rfl) fun _ => ?_
  exact Via.ite (fun _ => Via.pure rfl) fun _ => via_segments h _ _ _

theorem via_exec {path : Option Path} (hv : Idle v) (hp : (v.procs p).live = true) :
    Via Shows (exec p env path) (fun _ w => v = w) (fun _ => True) v := by
  obtain ⟨cwd, hcwd⟩ := hv.rest.exact.at_cwd hp
  cases path with
  | none => exact Via.pure rfl
  | some path =>
  refine Via.cont (via_namei hv.lookable hcwd (fun _ => Via.pure rfl) (fun ip i x _ hg => ?_)
    fun _ _ => trivial)
  refine Via.cont (via_ilock hg.at_take (hv.rest.quiet ip) (fun h₀ => ?_) fun _ => trivial)
  refine Via.bind (via_loadProgram ⟨hv.rest.quiet ip, h₀, hg.at_take, rfl⟩) ?_
  rintro ok _ rfl
  exact hv.lookable.via_leave hg (Via.ite (fun _ => Via.pure rfl) fun _ => Via.pure rfl)

end Via

/-! ### All calls -/

inductive FsCall where
  | call (c : Call)
  | exec (path : Option Path) (env : Env)

def fsStep (ninodes : ℕ) (s : Kernel) (a : Fin NPROC × FsCall) : Option Kernel :=
  match a.2 with
  | .call c => step ninodes s (a.1, c)
  | .exec path env =>
    if (s.procs a.1).live = true then
      match exec a.1 env path s with
      | .ok (_, s') => some s'
      | .error _ => none
    else none

variable {ninodes : ℕ} {s s' : Kernel}

theorem Between.fsStep {a : Fin NPROC × FsCall} (h : Between ninodes s)
    (hs : fsStep ninodes s a = some s') : Between ninodes s' := by
  obtain ⟨p, c⟩ := a
  cases c with
  | call c =>
    obtain ⟨hen, r, hrun⟩ := step_eq_some (a := (p, c)) hs
    exact (h.done hen hrun).1
  | exec path env =>
  simp only [Names.fsStep] at hs
  split at hs
  case isFalse => cases hs
  case isTrue hp =>
  split at hs
  case h_2 => cases hs
  case h_1 r t hrun =>
  cases hs
  obtain ⟨w, ⟨hc, hview⟩, rfl⟩ := (via_exec h.idle hp s ⟨h.coherent, rfl⟩).of_ok hrun
  exact ⟨h.fits, hc, hview ▸ h.rest, hview ▸ h.base⟩

theorem tally_ite_eq_card {ι α : Type} [Fintype ι] (q : α → Prop) [DecidablePred q] (h : ι → α) :
    tally Finset.univ (fun x => if q x then 1 else 0) h =
      (Finset.univ.filter fun x => q (h x)).card :=
  (Finset.card_filter _ _).symm

/-- **Inode reference counts are exact.** After every sequence of `open`, `close`, `link`, `unlink`,
`mkdir`, `mknod`, `chdir`, `exec`, `fork` and `exit` calls that returned, by any processes: the
reference count of an entry of the inode cache is the number of open files on it plus the number of
processes that exist and have it as current directory; no inode is locked; and no inode has two
referenced entries. -/
theorem inode_refs_exact (h : Run.Reachable (fsStep ninodes) (fun _ _ => True) (Start ninodes) s) :
    (∀ ip, (s.icache ip).ref =
        (Finset.univ.filter fun f => (s.ftable f).type = .inode ∧ (s.ftable f).ip = ip).card +
          (Finset.univ.filter fun p => (s.procs p).live = true ∧ (s.procs p).cwd = ip).card) ∧
      (∀ ip, (s.icache ip).locked = false) ∧
      ∀ ip ip', 0 < (s.icache ip).ref → 0 < (s.icache ip').ref →
        (s.icache ip).inum = (s.icache ip').inum → ip = ip' := by
  have hb : Between ninodes s :=
    h.invariant (fun s hs => hs.between) fun s a s' hi _ hs => hi.fsStep hs
  refine ⟨fun ip => ?_, hb.rest.quiet, hb.coherent.inj⟩
  have hcount : Held.count (s.view.cache ip) = (s.icache ip).ref := by
    change Held.count (s.icache ip).held = (s.icache ip).ref
    unfold Incore.held
    split
    case isTrue h0 => exact h0.symm
    case isFalse h0 => exact Nat.succ_pred_eq_of_ne_zero h0
  rw [← hcount, hb.rest.exact.inodes ip]
  exact congrArg₂ (· + ·) (tally_ite_eq_card (fun x : File => x.type = .inode ∧ x.ip = ip) s.ftable)
    (tally_ite_eq_card (fun x : Proc => x.live = true ∧ x.cwd = ip) s.procs)

/-- A file is made, the process forks, and the child tries to run the empty file: two processes have
the root as current directory. -/
theorem inode_refs_exact_fork : ∃ s,
    Run.Reachable (fsStep 200) (fun _ _ => True) (Start 200) s ∧ (s.icache 0).ref = 2 ∧
      ∀ ip, (s.icache ip).locked = false := by
  have hstart : Run.Reachable (fsStep 200) (fun _ _ => True) (Start 200) boot := .start start_boot
  obtain ⟨s, hs, hq⟩ := hstart.exists_of_exec
    ([(0, .call (.open (some [47, 97]) 0x202)), (0, .call (.fork (some 1))),
      (1, .exec (some [47, 97]) ⟨true, fun _ => true, true, true, none⟩)] :
        List (Fin NPROC × FsCall))
    (fun s => (s.icache 0).ref = 2) (by decide +kernel)
  exact ⟨s, hs, of_decide_eq_true hq, (inode_refs_exact hs).2.1⟩

end Xv6.Names
