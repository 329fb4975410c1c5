import Xv6.Vm.Load

/-!
# `exec`

The stack of a new program, and `exec` as a whole: the process, the memory, and what `exec` holds of
the file system (a reference to the inode, its lock, and a transaction).

Arguments are pushed downwards from the end of the stack page. Below it is the guard page, which is
not for user code. An argument that is too long for the page makes `copyout` touch the guard page,
however long it is: the bytes are contiguous, and at most three are skipped for alignment. So
whatever `exec` accepts lies in the one stack page.

A run that follows the null pointer in `uva2ka` (when an argument is so long that the stack pointer
wraps around to addresses without a page table) does not return in the model.
-/

namespace Xv6.Vm

open Footprint Tally Hoare List

open Names (field ELFHDR PROGHDR ELF_MAGIC ELF_PROG_LOAD)

/-! ### The program -/

/-- An argument: a C string without its NUL, of a length that fits a word. -/
abbrev Arg : Type := {a : List UInt8 // (0 : UInt8) ∉ a ∧ a.length + 1 < 2 ^ 32}

def MAXARG : ℕ := 32

/-- `(sp - n) & ~3` -/
def pushDown (sp n : ℕ) : ℕ := (sp + 2 ^ 32 - n) % 2 ^ 32 / 4 * 4

/-- Push argument strings, prepare rest of stack in `ustack`. -/
def pushArgs (pgdir : ℕ) : List Arg → ℕ → ℕ → List ℕ → VmM (Option (ℕ × List ℕ))
  | [], _, sp, ptrs => return some (sp, ptrs)
  | a :: argv, argc, sp, ptrs =>
    if argc ≥ MAXARG then return none
    else do
      let sp := pushDown sp (a.1.length + 1)
      if ← copyout pgdir sp (a.1 ++ [0]) then
        pushArgs pgdir argv (argc + 1) sp (ptrs ++ [sp])
      else return none

def wordBytes (w : ℕ) : List UInt8 :=
  [UInt8.ofNat w, UInt8.ofNat (w / 256), UInt8.ofNat (w / 65536), UInt8.ofNat (w / 16777216)]

/-- The array `ustack`: fake return PC, `argc`, `argv` pointer, the pointers and a zero. -/
def ustack (sp : ℕ) (ptrs : List ℕ) : List ℕ :=
  [0xffffffff, ptrs.length, (sp + 2 ^ 32 - (ptrs.length + 1) * 4) % 2 ^ 32] ++ ptrs ++ [0]

/-- Copy `ustack` below the strings. -/
def pushTable (pgdir sp : ℕ) (ptrs : List ℕ) : VmM (Option ℕ) := do
  let sp' := (sp + 2 ^ 32 - (3 + ptrs.length + 1) * 4) % 2 ^ 32
  if ← copyout pgdir sp' ((ustack sp ptrs).flatMap wordBytes) then return some sp' else return none

/-- Allocate two pages at the next page boundary. Make the first inaccessible. Use the second as the
user stack. -/
def setupStack (M : Machine) (pgdir sz : ℕ) (argv : List Arg) : VmM (Option (ℕ × ℕ)) := do
  let base := PGROUNDUP sz
  let sz ← allocuvm M pgdir base ((base + 2 * PGSIZE) % 2 ^ 32)
  if sz = 0 then return none
  else do
    clearpteu pgdir (sz - 2 * PGSIZE)
    match ← pushArgs pgdir argv 0 sz [] with
    | none => return none
    | some (sp, ptrs) => do
      match ← pushTable pgdir sp ptrs with
      | none => return none
      | some sp => return some (sz, sp)

-- so that no goal about it is evaluated up to the comparison of sizes
attribute [irreducible] setupStack

/-- Memory, and what the caller holds of the inode at the path and of the log. -/
structure Ctx where
  mem : Mem
  /-- `ip->ref` -/
  ref : ℕ
  held : ℕ
  /-- `log.outstanding` -/
  outstanding : ℕ

abbrev ExecM : Type → Type := StateT Ctx (Except Panic)

def onMem {α : Type} (p : VmM α) : ExecM α := fun c =>
  match p c.mem with
  | .ok (a, mem) => .ok (a, { c with mem := mem })
  | .error e => .error e

def beginOp : ExecM Unit := modify fun c => { c with outstanding := c.outstanding + 1 }

def endOp : ExecM Unit := modify fun c => { c with outstanding := c.outstanding - 1 }

/-- `namei` found the inode and took a reference. -/
def takeInode : ExecM Unit := modify fun c => { c with ref := c.ref + 1 }

def ilock : ExecM Unit := modify fun c => { c with held := c.held + 1 }

def iunlockput : ExecM Unit := modify fun c => { c with held := c.held - 1, ref := c.ref - 1 }

/-- `p->name`: the last element of the path, cut to 15 bytes. -/
def progName (path : List UInt8) : List UInt8 :=
  ((path.reverse.takeWhile (· ≠ 47)).reverse).take 15

section Exec

variable (M : Machine) (p : Proc)

/-- `if(pgdir) freevm(pgdir)` -/
def dropPgdir (pgdir : ℕ) : ExecM Unit := if pgdir ≠ 0 then onMem (freevm M pgdir) else pure ()

/-- `if(ip){ iunlockput(ip); end_op(); }` -/
def dropInode (ip : Bool) : ExecM Unit :=
  if ip then do
    iunlockput
    endOp
  else pure ()

/-- The label `bad`. -/
def bad (pgdir : ℕ) (ip : Bool) : ExecM (Bool × Proc) := do
  dropPgdir M pgdir
  dropInode ip
  return (false, p)

def commit (path : List UInt8) (pgdir sz entry sp : ℕ) : ExecM (Bool × Proc) := do
  onMem (freevm M p.pgdir)
  return (true, ⟨pgdir, sz, entry, sp, progName path⟩)

def execImage (path file hdr : List UInt8) (argv : List Arg) : ExecM (Bool × Proc) := do
  let pgdir ← onMem (setupkvm M)
  if pgdir = 0 then bad M p 0 true
  else do
    match ← onMem (loadSegments M pgdir file (field hdr 44 2) (field hdr 28 4) 0) with
    | none => bad M p pgdir true
    | some sz => do
      iunlockput
      endOp
      match ← onMem (setupStack M pgdir sz argv) with
      | none => bad M p pgdir false
      | some (sz, sp) => commit M p path pgdir sz (field hdr 24 4) sp

/-- `exec`: `true` for 0 and `false` for -1. The file at the path is an input, `none` if there is
none. -/
def exec (path : List UInt8) (file : Option (List UInt8)) (argv : List Arg) :
    ExecM (Bool × Proc) := do
  beginOp
  match file with
  | none => do
    endOp
    return (false, p)
  | some file => do
    takeInode
    ilock
    match readi file 0 ELFHDR with
    | none => bad M p 0 true
    | some hdr =>
      if hdr.length ≠ ELFHDR then bad M p 0 true
      else if field hdr 0 4 ≠ ELF_MAGIC then bad M p 0 true
      else execImage M p path file hdr argv

end Exec

variable {M : Machine} {s s' s₀ : Mem} {d g n m i a va sz sp : ℕ} {E : Panic → Prop}

/-! ### Where arguments go -/

variable {buf : List UInt8}

theorem CopyoutPost.rewritten {ok : Bool} (h : CopyoutPost s d va buf ok s') :
    Rewritten s s' d := ⟨h.moves, h.entry_eq⟩

/-- The stack page is page `g + 1`, and the guard page below it is not for user code. -/
structure Guarded (s : Mem) (d g : ℕ) : Prop where
  tidy : Tidy s (space s d)
  hidden : KernelHidden s d
  below : g + 2 ≤ USERPAGES
  stack : Mapped s d (g + 1)
  present : Present (entry s d g)
  guard : ¬ IsUser (entry s d g)

theorem Guarded.rewritten (h : Guarded s d g) (hre : Rewritten s s' d) : Guarded s' d g := by
  have hle := USERPAGES_le
  have hg : g + 2 ≤ VPAGES := h.below.trans hle
  refine ⟨h.tidy.moves hre.moves, fun m hm hmap => ?_, h.below, ?_, ?_, ?_⟩
  · exact h.hidden m hm (hmap.of_entry_eq (hre.entry_eq m hm).symm)
  · exact h.stack.of_entry_eq (hre.entry_eq _ (by omega))
  · rw [hre.entry_eq g (by omega)]
    exact h.present
  · rw [hre.entry_eq g (by omega)]
    exact h.guard

theorem Guarded.fits (h : Guarded s d g) (hpos : 0 < buf.length)
    (hlen : buf.length < 2 ^ 32) (hlo : PGSIZE * (g + 1) ≤ sp) (hhi : sp ≤ PGSIZE * (g + 2))
    (halign : sp % 4 = 0) (hpost : CopyoutPost s d (pushDown sp buf.length) buf true s') :
    PGSIZE * (g + 1) ≤ pushDown sp buf.length ∧ pushDown sp buf.length + buf.length ≤ sp := by
  have hbelow := hpost.below rfl hpos
  have hg := h.below
  set va := pushDown sp buf.length with hva
  have hend : va + buf.length ≤ sp ∧ sp < va + buf.length + 4 := by
    unfold KERNBASE at hbelow
    unfold USERPAGES at hg
    unfold pushDown at hva
    unfold PGSIZE at hhi
    omega
  refine ⟨?_, hend.1⟩
  by_contra hlow
  -- the last byte that is below the stack page is a byte of the guard page
  have hover : Overlaps va buf.length g := by
    refine ⟨min (va + buf.length - 1) (PGSIZE * (g + 1) - 1), ?_, ?_, ?_⟩
    all_goals
      unfold PGSIZE at *
      omega
  have hmap := hpost.mapped rfl g (by have := USERPAGES_le; omega) hover
  exact h.guard hmap.2

/-! ### Strings on the stack -/

/-- A NUL-terminated string at address `ptr`. -/
def StringAt (s : Mem) (d : ℕ) (x : List UInt8 × ℕ) : Prop :=
  ∀ i c, (x.1 ++ [0])[i]? = some c → ubyte s d (x.2 + i) = c

/-- Strings lie in the stack page from `sp` on, each below the one before. -/
structure Pushed (s : Mem) (d g : ℕ) (strs : List (List UInt8 × ℕ)) (sp : ℕ) : Prop where
  lo : PGSIZE * (g + 1) ≤ sp
  hi : sp ≤ PGSIZE * (g + 2)
  align : sp % 4 = 0
  count : strs.length ≤ MAXARG
  strings : ∀ x ∈ strs, StringAt s d x
  inside : ∀ x ∈ strs, sp ≤ x.2 ∧ x.2 + x.1.length + 1 ≤ PGSIZE * (g + 2)
  apart : strs.Pairwise fun x y => y.2 + y.1.length + 1 ≤ x.2

theorem Guarded.page (h : Guarded s d g) (hlo : PGSIZE * (g + 1) ≤ a) (hhi : a < PGSIZE * (g + 2)) :
    a / PGSIZE < USERPAGES ∧ Present (entry s d (a / PGSIZE)) := by
  have hpage : a / PGSIZE = g + 1 := by
    unfold PGSIZE at *
    omega
  have := h.below
  rw [hpage]
  exact ⟨by omega, h.stack.1⟩

theorem CopiedOut.string_kept {x : List UInt8 × ℕ} (h : CopiedOut s s' d va buf)
    (hg : Guarded s d g) (hs : StringAt s d x) (hlo : PGSIZE * (g + 1) ≤ x.2)
    (hhi : x.2 + x.1.length + 1 ≤ PGSIZE * (g + 2)) (habove : va + buf.length ≤ x.2) :
    StringAt s' d x := by
  intro i c hc
  have hi : i < (x.1 ++ [0]).length := (List.getElem?_eq_some_iff.mp hc).1
  rw [List.length_append, List.length_singleton] at hi
  obtain ⟨hu, hp⟩ := hg.page (a := x.2 + i) (by omega) (by omega)
  rw [h.ubyte_eq _ hu hp, if_pos (by omega), getElem?_eq_none (by omega), hs i c hc]
  rfl

theorem CopiedOut.ubyte_getElem {c : UInt8} (h : CopiedOut s s' d va buf)
    (hg : Guarded s d g) (hlo : PGSIZE * (g + 1) ≤ va) (hhi : va + buf.length ≤ PGSIZE * (g + 2))
    (hc : buf[i]? = some c) : ubyte s' d (va + i) = c := by
  have hi : i < buf.length := (List.getElem?_eq_some_iff.mp hc).1
  obtain ⟨hu, hp⟩ := hg.page (a := va + i) (by omega) (by omega)
  rw [h.ubyte_eq _ hu hp, if_pos (by omega), Nat.add_sub_cancel_left, hc]
  rfl

variable {strs : List (List UInt8 × ℕ)}

theorem Pushed.push {str : List UInt8} (h : Pushed s d g strs sp)
    (hg : Guarded s d g) (hlen : str.length + 1 < 2 ^ 32) (hcount : strs.length < MAXARG)
    (hpost : CopyoutPost s d (pushDown sp (str.length + 1)) (str ++ [0]) true s') :
    Pushed s' d g (strs ++ [(str, pushDown sp (str.length + 1))])
      (pushDown sp (str.length + 1)) := by
  have hbuf : (str ++ [(0 : UInt8)]).length = str.length + 1 := by
    rw [length_append, length_singleton]
  have hcopy := hpost.copied rfl
  rw [← hbuf] at hpost hcopy hlen ⊢
  obtain ⟨hlo, hend⟩ := hg.fits (by omega) hlen h.lo h.hi h.align hpost
  have hhi := h.hi
  refine ⟨hlo, by omega, Nat.mul_mod_left _ _, ?_, fun x hx => ?_, fun x hx => ?_, ?_⟩
  · rw [length_append, length_singleton]
    omega
  · rcases mem_append.mp hx with hx | hx
    · obtain ⟨habove, htop⟩ := h.inside x hx
      exact hcopy.string_kept hg (h.strings x hx) (h.lo.trans habove) htop (by omega)
    · rw [mem_singleton.mp hx]
      exact fun i c hc => hcopy.ubyte_getElem hg hlo (by omega) hc
  · rcases mem_append.mp hx with hx | hx
    · obtain ⟨habove, htop⟩ := h.inside x hx
      exact ⟨by omega, htop⟩
    rw [mem_singleton.mp hx]
    refine ⟨le_refl _, ?_⟩
    dsimp only
    omega
  · rw [pairwise_append]
    refine ⟨h.apart, pairwise_singleton _ _, fun x hx y hy => ?_⟩
    rw [mem_singleton.mp hy]
    have := (h.inside x hx).1
    dsimp only
    omega

theorem wp_pushArgs (argv : List Arg) : ∀ (sp : ℕ) (strs : List (List UInt8 × ℕ)) (s : Mem),
    Guarded s d g → Pushed s d g strs sp →
    wp (pushArgs d argv strs.length sp (strs.map Prod.snd)) (fun r s' => Rewritten s s' d ∧
      ∀ sp' ptrs, r = some (sp', ptrs) → ∃ strs', Pushed s' d g strs' sp' ∧
        strs'.map Prod.fst = strs.map Prod.fst ++ argv.map Subtype.val ∧
        ptrs = strs'.map Prod.snd) (fun e => e = .nullPointer) s := by
  induction argv with
  | nil =>
    intro sp strs s _ hp
    refine ⟨.refl _ _, fun sp' ptrs heq => ?_⟩
    obtain ⟨rfl, rfl⟩ := Prod.mk.inj (Option.some.inj heq)
    exact ⟨strs, hp, by rw [map_nil, append_nil], rfl⟩
  | cons str argv ih =>
  intro sp strs s hg hp
  rw [pushArgs, wp_ite]
  split
  · exact ⟨.refl _ _, nofun⟩
  next hcount =>
  dsimp only
  rw [wp_bind]
  have hva : pushDown sp (str.1.length + 1) < 2 ^ 32 := by
    unfold pushDown
    omega
  refine (wp_copyout hva hg.tidy hg.hidden).mono ?_ fun _ h => h.1
  intro ok s₁ hpost
  cases ok with
  | false => exact ⟨hpost.rewritten, nofun⟩
  | true =>
  have hp₁ := hp.push hg str.2.2 (not_le.mp hcount) hpost
  have hnext := ih _ _ s₁ (hg.rewritten hpost.rewritten) hp₁
  rw [length_append, length_singleton, map_append, map_append] at hnext
  simp only [if_true]
  refine hnext.imp ?_
  rintro r s' ⟨hre, hres⟩
  refine ⟨hpost.rewritten.trans hre, fun sp' ptrs heq => ?_⟩
  obtain ⟨strs', hp', hfst, hsnd⟩ := hres sp' ptrs heq
  refine ⟨strs', hp', ?_, hsnd⟩
  rw [hfst, append_assoc]
  rfl

/-! ### The table of pointers -/

/-- The word at address `a`. -/
def uword (s : Mem) (d a : ℕ) : ℕ :=
  (ubyte s d a).toNat + 256 * (ubyte s d (a + 1)).toNat + 65536 * (ubyte s d (a + 2)).toNat +
    16777216 * (ubyte s d (a + 3)).toNat

theorem length_flatMap_wordBytes (ws : List ℕ) : (ws.flatMap wordBytes).length = 4 * ws.length := by
  induction ws with
  | nil => rfl
  | cons w ws ih =>
  rw [flatMap_cons, length_append, ih, length_cons]
  change 4 + _ = _
  omega

theorem getElem?_flatMap_wordBytes {ws : List ℕ} {w : ℕ} : ∀ {i : ℕ}, ws[i]? = some w →
    ∀ j < 4, (ws.flatMap wordBytes)[4 * i + j]? = (wordBytes w)[j]? := by
  induction ws with
  | nil => exact fun h => absurd h nofun
  | cons x ws ih =>
  intro i h j hj
  rw [flatMap_cons]
  cases i with
  | zero =>
    obtain rfl := Option.some.inj h
    rw [Nat.mul_zero, Nat.zero_add, getElem?_append_left hj]
  | succ i =>
  rw [getElem?_cons_succ] at h
  have hidx : 4 * (i + 1) + j - (wordBytes x).length = 4 * i + j := by
    change 4 * (i + 1) + j - 4 = _
    omega
  rw [getElem?_append_right (by change 4 ≤ _; omega), hidx]
  exact ih h j hj

theorem CopiedOut.uword_eq {ws : List ℕ} {w : ℕ} (h : CopiedOut s s' d va (ws.flatMap wordBytes))
    (hg : Guarded s d g) (hlo : PGSIZE * (g + 1) ≤ va)
    (hhi : va + (ws.flatMap wordBytes).length ≤ PGSIZE * (g + 2)) (hw : w < 2 ^ 32)
    (hi : ws[i]? = some w) : uword s' d (va + 4 * i) = w := by
  have hbyte : ∀ j < 4, ∀ c, (wordBytes w)[j]? = some c → ubyte s' d (va + 4 * i + j) = c := by
    intro j hj c hc
    rw [← getElem?_flatMap_wordBytes hi j hj] at hc
    rw [Nat.add_assoc]
    exact h.ubyte_getElem hg hlo hhi hc
  have h0 := hbyte 0 (by decide) _ rfl
  have h1 := hbyte 1 (by decide) _ rfl
  have h2 := hbyte 2 (by decide) _ rfl
  have h3 := hbyte 3 (by decide) _ rfl
  rw [Nat.add_zero] at h0
  rw [uword, h0, h1, h2, h3]
  simp only [UInt8.toNat_ofNat']
  omega

/-- What a program finds at its stack pointer: a return address, `argc`, a pointer to the pointers,
these with a zero after them, and the strings. All of it is in the page below `sz`, under which
there is a page that is not for user code. -/
structure ArgsOnStack (s : Mem) (d sz sp : ℕ) (argv : List (List UInt8))
    (strs : List (List UInt8 × ℕ)) : Prop where
  args : strs.map Prod.fst = argv
  table : ∀ i w, ([0xffffffff, argv.length, sp + 12] ++ strs.map Prod.snd ++ [0])[i]? = some w →
    uword s d (sp + 4 * i) = w
  strings : ∀ x ∈ strs, StringAt s d x
  align : sp % 4 = 0
  below : PGSIZE * 2 ≤ sz ∧ sz ≤ KERNBASE
  page : sz % PGSIZE = 0 ∧ sz - PGSIZE ≤ sp
  inside : ∀ x ∈ strs, sp + 4 * (argv.length + 4) ≤ x.2 ∧ x.2 + x.1.length + 1 ≤ sz
  top : sp + 4 * (argv.length + 4) ≤ sz
  apart : strs.Pairwise fun x y => y.2 + y.1.length + 1 ≤ x.2
  stack : Mapped s d (sz / PGSIZE - 1)
  guard : Present (entry s d (sz / PGSIZE - 2)) ∧ ¬ IsUser (entry s d (sz / PGSIZE - 2))

theorem wp_pushTable (hg : Guarded s d g) (hp : Pushed s d g strs sp) :
    wp (pushTable d sp (strs.map Prod.snd)) (fun r s' => Rewritten s s' d ∧ ∀ sp', r = some sp' →
        ArgsOnStack s' d (PGSIZE * (g + 2)) sp' (strs.map Prod.fst) strs)
      (fun e => e = .nullPointer) s := by
  have hbelow := hg.below
  obtain ⟨hlo, hhi, halign, hcount, hstr, hin, hapart⟩ := hp
  have hsp : sp < 2 ^ 31 + 1 := by
    unfold USERPAGES at hbelow
    unfold PGSIZE at hhi
    omega
  set ws := ustack sp (strs.map Prod.snd) with hws
  have hwslen : ws.length = strs.length + 4 := by
    rw [hws, ustack, length_append, length_append, length_map]
    simp only [length_cons, length_nil]
    omega
  have hbuflen : (ws.flatMap wordBytes).length = 4 * (strs.length + 4) := by
    rw [length_flatMap_wordBytes, hwslen]
  unfold MAXARG at hcount
  have hdown : (sp + 2 ^ 32 - (3 + (strs.map Prod.snd).length + 1) * 4) % 2 ^ 32 =
      pushDown sp (ws.flatMap wordBytes).length := by
    rw [hbuflen, length_map]
    unfold pushDown
    omega
  unfold pushTable
  dsimp only
  rw [hdown, wp_bind, ← hws]
  refine (wp_copyout ?_ hg.tidy hg.hidden).mono ?_ fun _ h => h.1
  · unfold pushDown
    omega
  intro ok s' hpost
  cases ok with
  | false => exact ⟨hpost.rewritten, nofun⟩
  | true =>
  refine ⟨hpost.rewritten, fun sp' heq => ?_⟩
  obtain rfl := Option.some.inj heq
  obtain ⟨hfirst, hend⟩ := hg.fits (by omega) (by omega) hlo hhi halign hpost
  have hcopy := hpost.copied rfl
  have hg' := hg.rewritten hpost.rewritten
  have hsize : PGSIZE * (g + 2) / PGSIZE = g + 2 := Nat.mul_div_cancel_left _ (by decide)
  have hva : pushDown sp (ws.flatMap wordBytes).length + 4 * (strs.length + 4) = sp := by
    rw [hbuflen] at hend ⊢
    unfold pushDown at *
    omega
  set va := pushDown sp (ws.flatMap wordBytes).length
  have hthird : (sp + 2 ^ 32 - (strs.length + 1) * 4) % 2 ^ 32 = va + 12 := by omega
  have hsmall : ∀ w ∈ ws, w < 2 ^ 32 := by
    intro w hw
    rw [hws, ustack, length_map, hthird] at hw
    simp only [mem_append, mem_cons, not_mem_nil, or_false, mem_map] at hw
    rcases hw with ((rfl | rfl | rfl) | ⟨x, hx, rfl⟩) | rfl
    · decide
    · omega
    · omega
    · have := (hin x hx).2
      unfold USERPAGES at hbelow
      unfold PGSIZE at this
      omega
    · decide
  refine ⟨rfl, fun i w hw => ?_, fun x hx => ?_, Nat.mul_mod_left _ _, ⟨?_, ?_⟩, ⟨?_, ?_⟩,
    fun x hx => ?_, ?_, hapart, ?_, ?_⟩
  · rw [length_map, ← hthird] at hw
    have hw' : ws[i]? = some w := by
      rw [hws, ustack, length_map]
      exact hw
    exact hcopy.uword_eq hg hfirst (by omega) (hsmall w (mem_of_getElem? hw')) hw'
  · obtain ⟨habove, htop⟩ := hin x hx
    exact hcopy.string_kept hg (hstr x hx) (hlo.trans habove) htop (by omega)
  · unfold PGSIZE
    omega
  · unfold USERPAGES at hbelow
    unfold KERNBASE PGSIZE
    omega
  · exact Nat.mul_mod_right _ _
  · unfold PGSIZE at *
    omega
  · obtain ⟨habove, htop⟩ := hin x hx
    rw [length_map]
    exact ⟨by omega, htop⟩
  · rw [length_map]
    omega
  · rw [hsize]
    exact hg'.stack
  · rw [hsize]
    exact ⟨hg'.present, hg'.guard⟩

/-! ### The stack -/

theorem Whole.roundup (h : Whole M s d sz) (hlt : PGROUNDUP sz < KERNBASE) :
    Whole M s d (PGROUNDUP sz) := by
  have hpages : pages (PGROUNDUP sz) = pages sz := by
    rw [PGROUNDUP_eq h.sz_lt.le]
    unfold pages PGSIZE
    omega
  refine .of_entries h.good hlt (fun m hu => ?_) h.kernel
  rw [hpages, h.present_iff hu]

theorem wp_setupStack (h : Whole M s d sz) (argv : List Arg) :
    wp (setupStack M d sz argv) (fun r s' => heap.Moves s (space s d) s' (space s' d) ∧
      ∀ sz' sp, r = some (sz', sp) → ∃ strs, ArgsOnStack s' d sz' sp (argv.map Subtype.val) strs)
      (fun e => e = .nullPointer) s := by
  have hsz := h.sz_lt
  have hround : PGROUNDUP sz = PGSIZE * pages sz := PGROUNDUP_eq hsz.le
  have hpages := pages_le_USERPAGES hsz.le
  rcases le_or_gt KERNBASE (PGROUNDUP sz + 2 * PGSIZE) with hbig | hbig
  · have hmod : (PGROUNDUP sz + 2 * PGSIZE) % 2 ^ 32 ≥ KERNBASE := by
      rw [hround] at hbig ⊢
      unfold USERPAGES at hpages
      unfold KERNBASE PGSIZE at *
      omega
    unfold setupStack
    dsimp only
    rw [wp_bind, allocuvm, wp_ite, if_pos hmod, wp_pure, wp_ite, if_pos rfl]
    exact ⟨.refl _ _, fun _ _ h => by cases h⟩
  have hmod : (PGROUNDUP sz + 2 * PGSIZE) % 2 ^ 32 = PGROUNDUP sz + 2 * PGSIZE := by
    unfold KERNBASE at hbig
    omega
  unfold setupStack
  dsimp only
  rw [wp_bind, hmod]
  have hw := h.roundup (by omega)
  refine (hw.wp_allocuvm _).imp ?_
  rintro r s₁ (⟨hr, hext⟩ | ⟨rfl, hext⟩)
  · have hr : r = PGSIZE * (pages sz + 2) := by
      rw [hr, Nat.max_eq_right (Nat.le_add_right _ _), hround]
      unfold PGSIZE
      omega
    subst hr
    set g := pages sz
    have hbelow : g + 2 ≤ USERPAGES := by
      rw [hround] at hbig
      unfold KERNBASE PGSIZE at hbig
      unfold USERPAGES
      omega
    have hle := USERPAGES_le
    have hfirst : pages (PGROUNDUP sz) = g := by
      rw [hround]
      unfold pages PGSIZE
      omega
    have hlast : pages (PGSIZE * (g + 2)) = g + 2 := by
      unfold pages PGSIZE
      omega
    have hguard : PGSIZE * (g + 2) - 2 * PGSIZE = PGSIZE * g := by
      unfold PGSIZE
      omega
    have hdiv : PGSIZE * g / PGSIZE = g := Nat.mul_div_cancel_left _ (by decide)
    have hva : PGSIZE * g < 2 ^ 32 := by
      unfold USERPAGES at hbelow
      unfold PGSIZE
      omega
    have hzg := hext.zeroed g (by omega) (by omega)
    have hzs := hext.zeroed (g + 1) (by omega) (by omega)
    have htab : Present (s₁.word d (PGSIZE * g / PGSIZE / 1024)) := by
      rw [hdiv]
      by_contra habs
      have := hzg.present
      rw [entry, if_neg habs] at this
      exact not_present_zero this
    rw [wp_ite, if_neg (by unfold PGSIZE; omega), hguard, wp_bind]
    have hclear := Vm.wp_clearpteu (E := fun e => e = .nullPointer) hva hext.whole.good
      fun habs => absurd htab habs
    have hwhole := hext.whole.wp_clearpteu (E := fun e => e = .nullPointer) hva
      fun habs => absurd htab habs
    refine (hclear.and hwhole).mono ?_ fun _ h => h.1
    rintro - s₂ ⟨⟨hm₂, hkept, hentry, -⟩, hw₂⟩
    rw [hdiv] at hkept hentry
    have hg₂ : Guarded s₂ d g := by
      refine ⟨hw₂.good.toTidy, hw₂.hidden, hbelow, ?_, ?_, ?_⟩
      · obtain ⟨p, hp, -⟩ := hzs
        rw [Mapped, (hkept (g + 1) (by omega) (by omega)).entry_eq, hp]
        refine ⟨present_mkEntry, ?_⟩
        unfold IsUser mkEntry PTE_W PTE_U
        omega
      · rw [hentry, present_clearUser]
        exact hzg.present
      · rw [hentry]
        exact not_user_clearUser _
    have hp₂ : Pushed s₂ d g [] (PGSIZE * (g + 2)) := by
      refine ⟨?_, le_refl _, ?_, Nat.zero_le _, forall_mem_nil _, forall_mem_nil _,
        List.Pairwise.nil⟩
      · unfold PGSIZE
        omega
      · unfold PGSIZE
        omega
    rw [wp_bind]
    refine (wp_pushArgs argv _ [] s₂ hg₂ hp₂).imp ?_
    rintro r s₃ ⟨hre₃, hres⟩
    have hm₃ := (hext.moves.trans hm₂).trans hre₃.moves
    cases r with
    | none => exact ⟨hm₃, fun _ _ h => by cases h⟩
    | some x =>
    obtain ⟨sp, ptrs⟩ := x
    obtain ⟨strs, hp₃, hfst, rfl⟩ := hres sp ptrs rfl
    dsimp only
    rw [wp_bind]
    refine (wp_pushTable (hg₂.rewritten hre₃) hp₃).imp ?_
    rintro r s₄ ⟨hre₄, hargs⟩
    have hm₄ := hm₃.trans hre₄.moves
    cases r with
    | none => exact ⟨hm₄, fun _ _ h => by cases h⟩
    | some sp' =>
    refine ⟨hm₄, fun sz' sp'' heq => ?_⟩
    obtain ⟨rfl, rfl⟩ := Prod.mk.inj (Option.some.inj heq)
    refine ⟨strs, ?_⟩
    have hdone := hargs sp' rfl
    rw [hfst] at hdone
    exact hdone
  · rw [wp_ite, if_pos rfl]
    exact ⟨hext.moves, fun _ _ h => by cases h⟩

/-! ### `exec` -/

theorem ArgsOnStack.kept {argv : List (List UInt8)}
    (h : ArgsOnStack s d sz sp argv strs) (hk : ∀ n < VPAGES, Kept s s' d n) :
    ArgsOnStack s' d sz sp argv strs := by
  obtain ⟨hargs, htable, hstr, halign, hbelow, hpage, hin, htop, hapart, hstack, hguard⟩ := h
  have hpages : sz / PGSIZE ≤ USERPAGES := by
    have := hbelow.2
    unfold KERNBASE at this
    unfold PGSIZE USERPAGES
    omega
  have htwo : 2 ≤ sz / PGSIZE := (Nat.le_div_iff_mul_le (by decide)).mpr (by
    rw [Nat.mul_comm]
    exact hbelow.1)
  have hle := USERPAGES_le
  have hbyte : ∀ a, sz - PGSIZE ≤ a → a < sz → ubyte s' d a = ubyte s d a := by
    intro a hlo hhi
    have ha : a / PGSIZE = sz / PGSIZE - 1 := by
      have := hpage.1
      unfold PGSIZE at *
      omega
    refine (hk (a / PGSIZE) (by omega)).ubyte_eq (by omega) ?_
    rw [ha]
    exact hstack.1
  refine ⟨hargs, fun i w hw => ?_, fun x hx i c hc => ?_, halign, hbelow, hpage, hin, htop, hapart,
    hstack.of_entry_eq (hk _ (by omega)).entry_eq, ?_⟩
  · have hi := (List.getElem?_eq_some_iff.mp hw).1
    have hlen : strs.length = argv.length := by rw [← hargs, List.length_map]
    simp only [length_append, length_cons, length_nil, length_map] at hi
    have hlow := hpage.2
    rw [← htable i w hw, uword, uword, hbyte _ (by omega) (by omega), hbyte _ (by omega) (by omega),
      hbyte _ (by omega) (by omega), hbyte _ (by omega) (by omega)]
  · have hi := (List.getElem?_eq_some_iff.mp hc).1
    rw [List.length_append, List.length_singleton] at hi
    obtain ⟨hlo, hhi⟩ := hin x hx
    have hlow := hpage.2
    rw [hbyte _ (by omega) (by omega)]
    exact hstr x hx i c hc
  · rw [(hk (sz / PGSIZE - 2) (by omega)).entry_eq]
    exact hguard

section Run

variable {c : Ctx} {p : Proc} {ip : Bool}

theorem wp_onMem {α : Type} {q : VmM α} {Q : α → Ctx → Prop} :
    wp (onMem q) Q E c ↔ wp q (fun a mem => Q a { c with mem := mem }) E c.mem := by
  unfold wp onMem
  cases q c.mem <;> exact Iff.rfl

/-- `iunlockput` and `end_op`. -/
def Ctx.release (c : Ctx) : Ctx :=
  { c with ref := c.ref - 1, held := c.held - 1, outstanding := c.outstanding - 1 }

theorem wp_iunlockput {Q : Unit → Ctx → Prop} : wp iunlockput Q E c ↔
    Q () { c with held := c.held - 1, ref := c.ref - 1 } := Iff.rfl

theorem wp_endOp {Q : Unit → Ctx → Prop} : wp endOp Q E c ↔
    Q () { c with outstanding := c.outstanding - 1 } := Iff.rfl

def Failed (s₀ : Mem) (p : Proc) (c : Ctx) (r : Bool × Proc) (c' : Ctx) : Prop :=
  r = (false, p) ∧ ∃ mem, heap.Moves s₀ 0 mem 0 ∧ c' = { c with mem := mem }

theorem wp_bad_inode (hg : Good M s₀ 0)
    (hm : (d = 0 ∧ heap.Moves s₀ 0 c.mem 0) ∨ heap.Moves s₀ 0 c.mem (space c.mem d)) :
    wp (bad M p d true) (Failed s₀ p c.release) E c := by
  unfold bad dropPgdir
  rw [wp_bind, wp_ite]
  split
  · next hd =>
    have hm := hm.resolve_left fun hc => hd hc.1
    rw [wp_onMem]
    refine (wp_freevm (hg.moves hm)).imp ?_
    rintro - mem hfree
    exact ⟨rfl, mem, hm.trans hfree, rfl⟩
  next hd =>
  rcases hm with ⟨-, hm⟩ | hm
  · exact ⟨rfl, c.mem, hm, rfl⟩
  · exact absurd (not_not.mp hd) (hg.moves hm).dir_ne_zero

theorem wp_bad_dir (hg : Good M s₀ 0) (hm : heap.Moves s₀ 0 c.mem (space c.mem d)) :
    wp (bad M p d false) (Failed s₀ p c) E c := by
  unfold bad dropPgdir
  rw [wp_bind, wp_ite, if_pos (hg.moves hm).dir_ne_zero, wp_onMem]
  refine (wp_freevm (hg.moves hm)).imp ?_
  rintro - mem hfree
  exact ⟨rfl, mem, hm.trans hfree, rfl⟩

def Succeeded (argv : List Arg) (r : Bool × Proc) (c' : Ctx) : Prop :=
  r.1 = true ∧
    ∃ strs, ArgsOnStack c'.mem r.2.pgdir r.2.sz r.2.esp (argv.map Subtype.val) strs

theorem wp_commit {path : List UInt8} {entry : ℕ} {argv : List Arg}
    {strs : List (List UInt8 × ℕ)} (hg : Good M s₀ (space s₀ p.pgdir))
    (hm : heap.Moves s₀ 0 c.mem (space c.mem d))
    (hargs : ArgsOnStack c.mem d sz sp (argv.map Subtype.val) strs) :
    wp (commit M p path d sz entry sp) (Succeeded argv) E c := by
  obtain ⟨hspace, -⟩ := kept_of_moves hm (by rw [zero_add]; exact hg.sole)
  have hboth : Good M c.mem (space c.mem p.pgdir + space c.mem d) := by
    rw [hspace, add_comm]
    refine hg.moves ?_
    have := hm.add (space s₀ p.pgdir)
    rwa [zero_add] at this
  unfold commit
  rw [wp_bind, wp_onMem]
  refine (wp_freevm hboth.left).imp ?_
  rintro - mem hfree
  exact ⟨rfl, strs, hargs.kept (kept_of_moves hfree hboth.sole).2⟩

theorem wp_execImage {path file hdr : List UInt8} (argv : List Arg) (hsep : Separate M.kmap)
    (hfile : file.length < 2 ^ 32) (hg : Good M c.mem (space c.mem p.pgdir)) :
    wp (execImage M p path file hdr argv)
      (fun r c' => Failed c.mem p c.release r c' ∨ Succeeded argv r c')
      (fun e => e = .nullPointer) c := by
  have hg₀ : Good M c.mem 0 := hg.toZero
  unfold execImage
  rw [wp_bind, wp_onMem]
  refine (wp_setupkvm hsep hg₀).imp ?_
  rintro d s₁ ⟨⟨rfl, hm₁⟩ | ⟨hd, hm₁, -, hk⟩, -⟩
  · rw [wp_ite, if_pos rfl]
    exact (wp_bad_inode hg₀ (.inl ⟨rfl, hm₁⟩)).imp fun _ _ h => .inl h
  rw [wp_ite, if_neg hd, wp_bind, wp_onMem]
  refine (wp_loadSegments hfile _ _ 0 [] s₁ (whole_setup hg₀ hm₁ hk).loaded).imp ?_
  rintro r s₂ ⟨hm₂, hloaded⟩
  cases r with
  | none =>
    refine (wp_bad_inode hg₀ (.inr ?_)).imp fun _ _ h => .inl h
    exact hm₁.trans hm₂
  | some sz =>
  dsimp only
  rw [wp_bind, wp_iunlockput, wp_bind, wp_endOp, wp_bind, wp_onMem]
  refine (wp_setupStack (hloaded sz rfl).whole argv).imp ?_
  rintro r s₃ ⟨hm₃, hargs⟩
  have hmall := (hm₁.trans hm₂).trans hm₃
  cases r with
  | none => exact (wp_bad_dir hg₀ hmall).imp fun _ _ h => .inl h
  | some x =>
  obtain ⟨sz', sp⟩ := x
  obtain ⟨strs, hargs⟩ := hargs sz' sp rfl
  exact (wp_commit hg hmall hargs).imp fun _ _ h => .inr h

theorem wp_exec {path : List UInt8} {file : Option (List UInt8)} (argv : List Arg)
    (hsep : Separate M.kmap) (hfile : ∀ f, file = some f → f.length < 2 ^ 32)
    (hg : Good M c.mem (space c.mem p.pgdir)) :
    wp (exec M p path file argv) (fun r c' => Failed c.mem p c r c' ∨ Succeeded argv r c')
      (fun e => e = .nullPointer) c := by
  have hg₀ : Good M c.mem 0 := hg.toZero
  unfold exec
  rw [wp_bind]
  cases file with
  | none => exact .inl ⟨rfl, c.mem, .refl _ _, rfl⟩
  | some f =>
  -- what is held now is given back by `iunlockput` and `end_op`
  let c₁ : Ctx := ⟨c.mem, c.ref + 1, c.held + 1, c.outstanding + 1⟩
  have hrel : c₁.release = c := rfl
  have hbad : wp (bad M p 0 true) (fun r c' => Failed c.mem p c r c' ∨ Succeeded argv r c')
      (fun e => e = .nullPointer) c₁ := by
    have := wp_bad_inode (c := c₁) (p := p) (E := fun e => e = Panic.nullPointer) hg₀
      (.inl ⟨rfl, .refl _ _⟩)
    rw [hrel] at this
    exact this.imp fun _ _ h => .inl h
  change wp (match readi f 0 ELFHDR with
    | none => bad M p 0 true
    | some hdr =>
      if hdr.length ≠ ELFHDR then bad M p 0 true
      else if field hdr 0 4 ≠ ELF_MAGIC then bad M p 0 true
      else execImage M p path f hdr argv) _ _ c₁
  cases readi f 0 ELFHDR with
  | none => exact hbad
  | some hdr =>
  dsimp only
  rw [wp_ite]
  split
  · exact hbad
  rw [wp_ite]
  split
  · exact hbad
  · have himage : wp (execImage M p path f hdr argv) _ _ c₁ :=
      wp_execImage argv hsep (hfile f rfl) hg
    rwa [hrel] at himage

/-! ### An empty program -/

def emptyProgram : List UInt8 := [0x7F, 0x45, 0x4C, 0x46] ++ replicate 48 0

/-- The argument `a`. -/
def oneArg : Arg := ⟨[97], by decide⟩

theorem length_emptyProgram : ∀ f, some emptyProgram = some f → f.length < 2 ^ 32 := by
  intro f hf
  obtain rfl := Option.some.inj hf
  decide

/-- **`exec` fails cleanly**, for every path, file, list of arguments and memory: when it returns
-1, the process is as before, the pages are back on the free list and the others have not changed,
and the inode and the log are as before. The only way not to return is the null pointer. -/
theorem exec_fails_cleanly (hsep : Separate M.kmap) (path : List UInt8)
    (file : Option (List UInt8)) (hfile : ∀ f, file = some f → f.length < 2 ^ 32)
    (argv : List Arg) (hg : Good M c.mem (space c.mem p.pgdir)) :
    wp (exec M p path file argv) (fun r c' => r.1 = false → r.2 = p ∧
      c'.mem.freelist.Perm c.mem.freelist ∧
      (∀ x, x ∉ c.mem.freelist → c'.mem.word x = c.mem.word x) ∧
      c'.ref = c.ref ∧ c'.held = c.held ∧ c'.outstanding = c.outstanding)
      (fun e => e = .nullPointer) c := by
  refine (wp_exec argv hsep hfile hg).imp ?_
  rintro r c' (⟨rfl, mem, hm, rfl⟩ | ⟨hr, -⟩) hfalse
  · refine ⟨rfl, perm_iff_count.mpr fun x => hm.conserve x, fun x hx => hm.frame x ?_, rfl,
      rfl, rfl⟩
    rw [Pi.zero_apply, Nat.add_zero]
    exact count_eq_zero.mpr hx
  · rw [hr] at hfalse
    exact absurd hfalse nofun

/-- With two free pages, there is no page table for the stack, and `exec` returns -1. -/
theorem exec_without_memory : ((exec bareMachine ⟨1, 4096, 0, 0, []⟩ [97] (some emptyProgram)
      [oneArg] ⟨stocked [10, 11], 1, 0, 0⟩).toOption.map fun r => r.1.1) = some false ∧
    wp (exec bareMachine ⟨1, 4096, 0, 0, []⟩ [97] (some emptyProgram) [oneArg])
      (fun r c' => r.1 = false → r.2 = ⟨1, 4096, 0, 0, []⟩ ∧ c'.mem.freelist.Perm [10, 11] ∧
        (∀ x, x ∉ [10, 11] → c'.mem.word x = onePage.word x) ∧
        c'.ref = 1 ∧ c'.held = 0 ∧ c'.outstanding = 0)
      (fun e => e = .nullPointer) ⟨stocked [10, 11], 1, 0, 0⟩ :=
  ⟨by decide +kernel, exec_fails_cleanly (p := ⟨1, 4096, 0, 0, []⟩)
    (c := ⟨stocked [10, 11], 1, 0, 0⟩) separate_bareMachine [97] (some emptyProgram)
    length_emptyProgram [oneArg] (good_stocked (by decide) (by decide))⟩

/-- **`exec` passes arguments faithfully**, for every list of arguments on which it returns 0. -/
theorem exec_passes_arguments (hsep : Separate M.kmap) (path : List UInt8)
    (file : Option (List UInt8)) (hfile : ∀ f, file = some f → f.length < 2 ^ 32)
    (argv : List Arg) (hg : Good M c.mem (space c.mem p.pgdir)) :
    wp (exec M p path file argv) (fun r c' => r.1 = true → ∃ strs,
      ArgsOnStack c'.mem r.2.pgdir r.2.sz r.2.esp (argv.map Subtype.val) strs)
      (fun e => e = .nullPointer) c := by
  refine (wp_exec argv hsep hfile hg).imp ?_
  rintro r c' (⟨rfl, -⟩ | ⟨-, hargs⟩) htrue
  · exact absurd htrue nofun
  · exact hargs

/-- With eight free pages it returns 0. -/
theorem exec_one_argument : ((exec bareMachine ⟨1, 4096, 0, 0, []⟩ [97] (some emptyProgram)
      [oneArg] ⟨stocked eightPages, 1, 0, 0⟩).toOption.map fun r => r.1.1) = some true ∧
    wp (exec bareMachine ⟨1, 4096, 0, 0, []⟩ [97] (some emptyProgram) [oneArg])
      (fun r c' => r.1 = true → ∃ strs, ArgsOnStack c'.mem r.2.pgdir r.2.sz r.2.esp [[97]] strs)
      (fun e => e = .nullPointer) ⟨stocked eightPages, 1, 0, 0⟩ :=
  ⟨by decide +kernel, exec_passes_arguments (p := ⟨1, 4096, 0, 0, []⟩)
    (c := ⟨stocked eightPages, 1, 0, 0⟩) separate_bareMachine [97] (some emptyProgram)
    length_emptyProgram [oneArg] image_stocked.good⟩

end Run

end Xv6.Vm
