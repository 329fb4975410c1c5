import Xv6.Lib.Run
import Xv6.Vm.Copy
import Xv6.Vm.Load

/-!
# Many address spaces

Any number of processes whose memory is created, copied by `fork`, resized by `growproc`, written
and freed by `wait`, in any order and with `kalloc` failing anywhere. `exec` is a sequence of these
operations, on a process of its own: it makes the new image, and frees the old one, or the new one
where it fails. Over every such run a page is on the free list once or belongs to one address space
once, no operation reaches a panic, and none of them changes the mappings or the contents of another
process's memory.

Each operation is specified by the pages that it owns, so one lemma about exchanging the pages of
some processes for those of others, next to processes that are left alone, serves all of them.
-/

namespace Xv6.Vm

open Footprint Hoare

/-- Physical memory, and the processes that have an address space. -/
structure Spaces where
  mem : Mem
  procs : List Proc

/-- What is done to the memory of a process, by `growproc`, by `exec` and by `wait`. -/
inductive SpaceOp where
  | growproc (n : ℤ)
  | loaduvm (v : ℕ) (file : List UInt8) (off n : ℕ)
  | clearpteu (uva : ℕ)
  | copyout (va : ℕ) (buf : List UInt8)
  | freevm

/-- The process afterwards, if it is still there. -/
def SpaceOp.run (M : Machine) (p : Proc) : SpaceOp → VmM (List Proc)
  | .growproc n => do
    let r ← Vm.growproc M p n
    return [r.2]
  | .loaduvm v file off n => do
    let _ ← Vm.loaduvm p.pgdir (PGSIZE * v) file off n
    return [p]
  | .clearpteu uva => do
    Vm.clearpteu p.pgdir uva
    return [p]
  | .copyout va buf => do
    let _ ← Vm.copyout p.pgdir va buf
    return [p]
  | .freevm => do
    Vm.freevm M p.pgdir
    return []

/-- A process gives back less than its size, since otherwise `growproc` frees pages below a size
that it leaves as it is. Other addresses are below the size. -/
def SpaceOp.Ok (p : Proc) : SpaceOp → Prop
  | .growproc n => 0 ≤ n ∨ 0 < (p.sz : ℤ) + n
  | .loaduvm v file off n => file.length < 2 ^ 32 ∧ off < 2 ^ 32 ∧ PGSIZE * v + n ≤ p.sz
  | .clearpteu uva => uva < p.sz
  | .copyout va buf => va + buf.length ≤ p.sz
  | .freevm => True

inductive SpaceAction where
  /-- `setupkvm`, as in `userinit` and `exec`. -/
  | create
  /-- The `copyuvm` of a `fork` by process `i`. -/
  | fork (i : ℕ)
  | run (i : ℕ) (op : SpaceOp)

/-- A new process, if there is a directory for it. -/
def addSpace (ps : List Proc) (p : Proc) (d : ℕ) : List Proc :=
  if d = 0 then ps else { p with pgdir := d } :: ps

def Spaces.step (M : Machine) (σ : Spaces) : SpaceAction → Except Panic Spaces
  | .create => do
    let (d, mem) ← setupkvm M σ.mem
    return ⟨mem, addSpace σ.procs ⟨0, 0, 0, 0, []⟩ d⟩
  | .fork i =>
    match σ.procs[i]? with
    | none => return σ
    | some p => do
      let (d, mem) ← copyuvm M p.pgdir p.sz σ.mem
      return ⟨mem, addSpace σ.procs p d⟩
  | .run i op =>
    match σ.procs[i]? with
    | none => return σ
    | some p => do
      let (ps, mem) ← op.run M p σ.mem
      return ⟨mem, ps ++ σ.procs.eraseIdx i⟩

def Spaces.Ok (σ : Spaces) : SpaceAction → Prop
  | .run i op => ∀ p, σ.procs[i]? = some p → op.Ok p
  | _ => True

/-- The processes whose memory is not meant to change. -/
def Spaces.others (σ : Spaces) : SpaceAction → List Proc
  | .run i _ => σ.procs.eraseIdx i
  | _ => σ.procs

variable {M : Machine} {s s' s₀ : Mem} {O O' : ℕ → ℕ} {σ : Spaces} {a : SpaceAction}
  {E : Panic → Prop} {ps mine rest : List Proc} {p : Proc} {d : ℕ}

/-- The pages of all address spaces. -/
def total (s : Mem) (ps : List Proc) : ℕ → ℕ := (ps.map fun p => space s p.pgdir).sum

theorem total_cons (s : Mem) (p : Proc) (ps : List Proc) :
    total s (p :: ps) = space s p.pgdir + total s ps := rfl

theorem total_of_perm (h : ps.Perm (mine ++ rest)) : total s ps = total s mine + total s rest := by
  rw [total, (h.map _).sum_eq, List.map_append, List.sum_append]
  rfl

/-- The pages below the size of a process are mapped, and the kernel's, and no others. -/
structure Sized (M : Machine) (s : Mem) (p : Proc) : Prop where
  sz_lt : p.sz < KERNBASE
  user : ∀ m < USERPAGES, Present (entry s p.pgdir m) ↔ m < pages p.sz
  kernel : ∀ m < VPAGES, USERPAGES ≤ m → entry s p.pgdir m = kernelEntry M.kmap 0 m

theorem Whole.sized (h : Whole M s p.pgdir p.sz) : Sized M s p :=
  ⟨h.sz_lt, fun _ => h.present_iff, h.kernel⟩

theorem Sized.kept (h : Sized M s p) (hk : ∀ n < VPAGES, Kept s s' p.pgdir n) : Sized M s' p where
  sz_lt := h.sz_lt
  user m hm := by rw [(hk m (lt_of_lt_of_le hm USERPAGES_le)).entry_eq, h.user m hm]
  kernel m hm hge := by rw [(hk m hm).entry_eq, h.kernel m hm hge]

/-- The processes have their memory, and all of it comes from the free list of `s₀`. -/
structure Spaces.Inv (M : Machine) (s₀ : Mem) (σ : Spaces) : Prop where
  moves : heap.Moves s₀ 0 σ.mem (total σ.mem σ.procs)
  sized : ∀ p ∈ σ.procs, Sized M σ.mem p

/-- Address spaces that an operation does not own stay as they are. -/
theorem total_frame (hm : heap.Moves s O s' O') (hs : heap.Sole s (O + total s ps)) :
    total s' ps = total s ps ∧ ∀ q ∈ ps, ∀ n < VPAGES, Kept s s' q.pgdir n := by
  induction ps with
  | nil => exact ⟨by rw [total, total, List.map_nil, List.map_nil], by simp⟩
  | cons p ps ih =>
  simp only [total_cons] at hs ⊢
  rw [← add_assoc] at hs
  obtain ⟨hspace, hkept⟩ := kept_of_moves hm hs.left
  have hs' : heap.Sole s (O + total s ps) := fun x => by
    have := hs x
    simp only [Pi.add_apply] at this ⊢
    omega
  obtain ⟨htotal, hrest⟩ := ih hs'
  rw [hspace, htotal]
  exact ⟨rfl, List.forall_mem_cons.mpr ⟨hkept, hrest⟩⟩

/-- **Exchange.** The processes `mine` become the processes `mine'`, beside the others. -/
theorem Spaces.Inv.exchange (mine mine' : List Proc) (h₀ : Good M s₀ 0) (hi : Inv M s₀ ⟨s, ps⟩)
    (hps : ps.Perm (mine ++ rest)) (hm : heap.Moves s (total s mine) s' (total s' mine'))
    (hnew : ∀ q ∈ mine', Sized M s' q) :
    Inv M s₀ ⟨s', mine' ++ rest⟩ ∧ ∀ q ∈ rest, ∀ n < VPAGES, Kept s s' q.pgdir n := by
  have hall : heap.Moves s₀ 0 s (total s mine + total s rest) := total_of_perm hps ▸ hi.moves
  obtain ⟨htotal, hkept⟩ := total_frame hm (h₀.moves hall).sole
  refine ⟨⟨?_, fun q hq => ?_⟩, hkept⟩
  · rw [total_of_perm (.refl _), htotal]
    exact hall.trans (hm.add _)
  · rcases List.mem_append.mp hq with hq | hq
    · exact hnew q hq
    · exact (hi.sized q (hps.mem_iff.mpr (List.mem_append_right _ hq))).kept (hkept q hq)

/-- The pages of process `p` alone. -/
theorem Spaces.Inv.whole (h₀ : Good M s₀ 0) (hi : Inv M s₀ ⟨s, ps⟩) (hps : ps.Perm ([p] ++ rest)) :
    Whole M s p.pgdir p.sz := by
  have hall := h₀.moves hi.moves
  rw [total_of_perm hps, total_cons] at hall
  have hsz := hi.sized p (hps.mem_iff.mpr List.mem_cons_self)
  exact .of_entries hall.left.left hsz.sz_lt hsz.user hsz.kernel

theorem total_single (s : Mem) (p : Proc) : total s [p] = space s p.pgdir := add_zero _

/-! ### The operations -/

theorem Whole.wp_growproc {n : ℤ} (h : Whole M s p.pgdir p.sz) (hn : 0 ≤ n ∨ 0 < (p.sz : ℤ) + n) :
    wp (growproc M p n) (fun r s' =>
      heap.Moves s (space s p.pgdir) s' (space s' r.2.pgdir) ∧ Sized M s' r.2) E s := by
  have hsz := h.sz_lt
  unfold KERNBASE at hsz
  unfold growproc
  rw [wp_ite]
  split
  · rw [wp_bind]
    refine (h.wp_allocuvm _).imp ?_
    rintro r s' (⟨hr, hext⟩ | ⟨rfl, hext⟩)
    · rw [wp_ite]
      split
      · have hzero : r = p.sz := by omega
        exact ⟨hext.moves, (hzero ▸ hext.whole).sized⟩
      · exact ⟨hext.moves, hext.whole.sized⟩
    · rw [wp_ite, if_pos rfl]
      exact ⟨hext.moves, hext.whole.sized⟩
  rw [wp_ite]
  split
  · have hnew : 0 < addSigned p.sz n ∧ addSigned p.sz n < p.sz := by
      unfold addSigned
      omega
    rw [wp_bind]
    refine (wp_deallocuvm h.sz_lt.le hnew.2 h.good).imp ?_
    rintro r s' ⟨rfl, hm, hkept, habs⟩
    rw [wp_ite, if_neg hnew.1.ne']
    refine ⟨hm, hnew.2.trans h.sz_lt, fun m hu => ?_, fun m hv hge => ?_⟩
    · dsimp only
      by_cases hin : addSigned p.sz n ≤ PGSIZE * m ∧ PGSIZE * m < p.sz
      · exact iff_of_false (habs m hin.1 hin.2) (by rw [lt_pages_iff]; omega)
      · rw [(hkept m (lt_of_lt_of_le hu USERPAGES_le) hin).entry_eq, h.present_iff hu,
          lt_pages_iff, lt_pages_iff]
        omega
    · refine (hkept m hv ?_).entry_eq.trans (h.kernel m hv hge)
      unfold USERPAGES at hge
      unfold PGSIZE
      omega
  · exact ⟨.refl _ _, h.sized⟩

theorem Whole.table {m sz : ℕ} (h : Whole M s d sz) (hm : PGSIZE * m < sz) :
    Present (s.word d (m / 1024)) := by
  by_contra habs
  have hpres := (h.present_iff (lt_USERPAGES h.sz_lt.le hm)).mpr (lt_pages_iff.mpr hm)
  rw [entry, if_neg habs] at hpres
  exact not_present_zero hpres

theorem Whole.wp_run {op : SpaceOp} (h : Whole M s p.pgdir p.sz) (hok : op.Ok p) :
    wp (op.run M p) (fun ps s' => heap.Moves s (total s [p]) s' (total s' ps) ∧
      ∀ q ∈ ps, Sized M s' q) (fun _ => False) s := by
  have hsz : p.sz < 2 ^ 32 := h.sz_lt.trans (by decide)
  have hpage : ∀ a, a < p.sz → PGSIZE * (a / PGSIZE) < p.sz := fun a =>
    lt_of_le_of_lt (Nat.mul_div_le a PGSIZE)
  have hone : ∀ {q s'}, heap.Moves s (space s p.pgdir) s' (space s' q.pgdir) → Sized M s' q →
      heap.Moves s (total s [p]) s' (total s' [q]) ∧ ∀ q' ∈ [q], Sized M s' q' := by
    intro q s' hm hq
    rw [total_single, total_single]
    exact ⟨hm, by simpa using hq⟩
  cases op with
  | growproc n =>
    rw [SpaceOp.run, wp_bind]
    exact (h.wp_growproc hok).imp fun _ _ hr => hone hr.1 hr.2
  | loaduvm v file off n =>
    obtain ⟨hfile, hoff, hn⟩ := hok
    rw [SpaceOp.run, wp_bind]
    refine (wp_loaduvm hfile hoff h.good fun m _ hlt => ?_).imp fun _ _ hr =>
      hone hr.1.moves (hr.1.whole h).sized
    have hu := lt_USERPAGES h.sz_lt.le (hlt.trans_le hn)
    exact ⟨hu, (h.present_iff hu).mpr (lt_pages_iff.mpr (hlt.trans_le hn))⟩
  | clearpteu uva =>
    have habs : ¬ Present (s.word p.pgdir (uva / PGSIZE / 1024)) → False :=
      absurd (h.table (hpage uva hok))
    have hva : uva < 2 ^ 32 := lt_trans hok hsz
    rw [SpaceOp.run, wp_bind]
    exact ((Vm.wp_clearpteu (E := fun _ => False) hva h.good habs).and
      (h.wp_clearpteu (E := fun _ => False) hva habs)).mono
        (fun _ _ hr => hone hr.1.1 hr.2.sized) fun _ he => he.1
  | copyout va buf =>
    have hva : va < 2 ^ 32 := ((Nat.le_add_right _ _).trans hok).trans_lt hsz
    rw [SpaceOp.run, wp_bind]
    refine (wp_copyout hva h.good.toTidy h.hidden).mono (fun _ s' hpost => ?_) ?_
    · exact hone hpost.moves (Rewritten.whole ⟨hpost.moves, hpost.entry_eq⟩ h).sized
    · rintro _ ⟨-, j, hstop, habs⟩
      obtain ⟨a, -, hlt, rfl⟩ := hstop.overlaps
      exact habs (h.table (hpage a (hlt.trans_le hok)))
  | freevm =>
    rw [SpaceOp.run, wp_bind]
    refine (wp_freevm h.good).imp fun _ s' hm => ⟨?_, by simp⟩
    rw [total_single]
    exact hm

/-- What `setupkvm` and `copyuvm` return: nothing, or an address space for a new process. -/
theorem Spaces.Inv.addSpace (h₀ : Good M s₀ 0) (hi : Inv M s₀ ⟨s, ps⟩)
    (h : (d = 0 ∧ heap.Moves s 0 s' 0) ∨ (d ≠ 0 ∧ heap.Moves s 0 s' (space s' d) ∧
      Sized M s' { p with pgdir := d })) :
    Inv M s₀ ⟨s', addSpace ps p d⟩ ∧ ∀ q ∈ ps, ∀ n < VPAGES, Kept s s' q.pgdir n := by
  unfold Vm.addSpace
  rcases h with ⟨rfl, hm⟩ | ⟨hd, hm, hsized⟩
  · rw [if_pos rfl]
    exact hi.exchange [] [] h₀ (.refl _) hm (by simp)
  · rw [if_neg hd]
    refine hi.exchange [] [{ p with pgdir := d }] h₀ (.refl _) ?_
      (by simpa using hsized)
    rw [total_single]
    exact hm

/-- **One step**: it does not stop, and only the memory of its process changes. -/
theorem Spaces.Inv.step (hsep : Separate M.kmap) (h₀ : Good M s₀ 0) (hi : Inv M s₀ σ)
    (hok : σ.Ok a) : ∃ σ', σ.step M a = .ok σ' ∧ Inv M s₀ σ' ∧
      ∀ q ∈ σ.others a, ∀ n < VPAGES, Kept σ.mem σ'.mem q.pgdir n := by
  obtain ⟨s, ps⟩ := σ
  have hperm : ∀ {i : ℕ} {p : Proc}, ps[i]? = some p → ps.Perm ([p] ++ ps.eraseIdx i) := by
    intro i p hp
    obtain ⟨hlt, rfl⟩ := List.getElem?_eq_some_iff.mp hp
    exact (List.getElem_cons_eraseIdx_perm hlt).symm
  cases a with
  | create =>
    have hgood : Good M s 0 := (h₀.moves hi.moves).toZero
    obtain ⟨d, s', hrun, hres, -⟩ := wp_ok.mp (wp_setupkvm hsep hgood)
    obtain ⟨hi', hkept⟩ := hi.addSpace (p := ⟨0, 0, 0, 0, []⟩) h₀
      (hres.imp_right fun h => ⟨h.1, h.2.1, (whole_setup hgood h.2.1 h.2.2.2).sized⟩)
    exact ⟨_, by rw [Spaces.step, hrun]; rfl, hi', hkept⟩
  | fork i =>
    rw [Spaces.step]
    cases hp : ps[i]? with
    | none => exact ⟨_, rfl, hi, fun _ _ _ _ => .refl _ _ _⟩
    | some p =>
    have hw := hi.whole h₀ (hperm hp)
    have hle := hw.sz_lt.le
    have hpres : ∀ m, PGSIZE * m < p.sz → Present (entry s p.pgdir m) := fun m hm =>
      (hw.present_iff (lt_USERPAGES hle hm)).mpr (lt_pages_iff.mpr hm)
    obtain ⟨d, s', hrun, hres⟩ := wp_ok.mp (wp_copyuvm hsep hle hw.good hpres)
    obtain ⟨hi', hkept⟩ := hi.addSpace (p := p) h₀ (hres.imp_right fun ⟨hd, h⟩ => by
      have hclone := h.clone hle hw.good hpres
      refine ⟨hd, h.moves, hw.sz_lt, fun m hm => ?_, hclone.kernel⟩
      rw [← lt_PGROUNDUP_iff hle]
      exact ⟨fun hpr => not_not.mp fun hn => hclone.rest m hm hn hpr, fun h => (hclone.same m h).1⟩)
    exact ⟨_, by dsimp only; rw [hrun]; rfl, hi', hkept⟩
  | run i op =>
    rw [Spaces.step]
    cases hp : ps[i]? with
    | none => exact ⟨_, rfl, hi, fun _ _ _ _ => .refl _ _ _⟩
    | some p =>
    obtain ⟨qs, s', hrun, hm, hqs⟩ := wp_ok.mp ((hi.whole h₀ (hperm hp)).wp_run (hok p hp))
    obtain ⟨hi', hkept⟩ := hi.exchange [p] qs h₀ (hperm hp) hm hqs
    exact ⟨_, by dsimp only; rw [hrun]; rfl, hi', hkept⟩

/-! ### Whole runs -/

/-- The states that any order of the operations leads to, from a memory without processes. -/
def Spaces.Reached (M : Machine) (s₀ : Mem) : Spaces → Prop :=
  Run.Reachable (fun σ a => (σ.step M a).toOption) Spaces.Ok (· = ⟨s₀, []⟩)

theorem Spaces.Reached.inv (hsep : Separate M.kmap) (h₀ : Good M s₀ 0)
    (h : Reached M s₀ σ) : Inv M s₀ σ := by
  refine h.invariant ?_ fun σ a σ' hi hok hs => ?_
  · rintro _ rfl
    exact ⟨.refl _ _, by simp⟩
  · obtain ⟨σ₁, hrun, hi', -⟩ := hi.step hsep h₀ hok
    rw [hrun] at hs
    cases hs
    exact hi'

/-- **Pages are owned once.** After any sequence of operations, every page of the initial free list
is on the free list or in the address space of one process, once, and no other page is. -/
theorem pages_owned_once (hsep : Separate M.kmap) (h₀ : Good M s₀ 0) (h : Spaces.Reached M s₀ σ)
    (x : ℕ) : σ.mem.freelist.count x + total σ.mem σ.procs x = s₀.freelist.count x ∧
      s₀.freelist.count x ≤ 1 :=
  ⟨(h.inv hsep h₀).moves.conserve x, h₀.sole x⟩

/-- A process with a page and its child, each with three pages. -/
theorem reached_two : ∃ σ, Spaces.Reached bareMachine ninePages σ ∧
    (σ.procs.length = 2 ∧ σ.mem.freelist.length = 3) := by
  have hstart : Spaces.Reached bareMachine ninePages ⟨ninePages, []⟩ := .start rfl
  have hcreate := hstart.step (show Spaces.Ok _ .create from trivial) rfl
  have hgrow := hcreate.step
    (show Spaces.Ok _ (.run 0 (.growproc 4096)) from fun _ _ => .inl (by decide)) rfl
  exact ⟨_, hgrow.step (show Spaces.Ok _ (.fork 0) from trivial) rfl, rfl, rfl⟩

theorem pages_owned_once_two : ∃ σ : Spaces, σ.procs.length = 2 ∧ ∀ x,
    σ.mem.freelist.count x + total σ.mem σ.procs x = ninePages.freelist.count x ∧
      ninePages.freelist.count x ≤ 1 := by
  obtain ⟨σ, hσ, hlen, -⟩ := reached_two
  exact ⟨σ, hlen, pages_owned_once (M := bareMachine) .nil good_ninePages hσ⟩

/-- **Address spaces are isolated.** An operation on one process completes, and leaves every entry
of every other process's page tables and every page behind them as it was. -/
theorem spaces_isolated (hsep : Separate M.kmap) (h₀ : Good M s₀ 0) (h : Spaces.Reached M s₀ σ)
    (hok : σ.Ok a) : ∃ σ', σ.step M a = .ok σ' ∧
      ∀ q ∈ σ.others a, ∀ n < VPAGES, Kept σ.mem σ'.mem q.pgdir n := by
  obtain ⟨σ', hrun, -, hkept⟩ := (h.inv hsep h₀).step hsep h₀ hok
  exact ⟨σ', hrun, hkept⟩

/-- The child is freed. -/
theorem spaces_isolated_child : ∃ σ : Spaces, σ.procs.length = 2 ∧ ∃ σ',
    σ.step bareMachine (.run 0 .freevm) = .ok σ' ∧ ∀ q ∈ σ.others (.run 0 .freevm),
      ∀ n < VPAGES, Kept σ.mem σ'.mem q.pgdir n := by
  obtain ⟨σ, hσ, hlen, -⟩ := reached_two
  exact ⟨σ, hlen, spaces_isolated (M := bareMachine) .nil good_ninePages hσ fun _ _ => trivial⟩

end Xv6.Vm
