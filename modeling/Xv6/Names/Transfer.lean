import Xv6.Names.Exec

/-!
# Reading, writing and duplicating

The calls that work on open files without looking up a name: `dup`, `read`, `write`, `fstat` and
`pipe`. They take and drop no references to inodes, and the only thing that they change in an inode
is the contents of one that is open for writing.

What a device or a pipe does with the bytes is an input, and so is whether there is a page for a
pipe. `flock` and `funlock` are left out: they have a lock of their own.
-/

namespace Xv6.Names

open Hoare Splice Function

/-! ### The calls -/

section Calls

variable (p : Fin NPROC)

theorem toNat_lt_NOFILE {fd : ℤ} (h : 0 ≤ fd ∧ fd < NOFILE) : fd.toNat < NOFILE := by
  omega

def argfd (fd : ℤ) : KM (Option (Fin NFILE)) := do
  let cur ← myproc p
  if h : 0 ≤ fd ∧ fd < NOFILE then return cur.ofile ⟨fd.toNat, toNat_lt_NOFILE h⟩
  else return none

def sysDup (fd : ℤ) : KM ℤ := do
  match ← argfd p fd with
  | none => return -1
  | some f => do
    match ← fdalloc p f with
    | none => return -1
    | some fd => do
      filedup f
      return (fd : ℕ)

/-- `if(r > 0) f->off += r;` -/
def advance (f : Fin NFILE) (x : File) (r : ℤ) : KM Unit :=
  if r > 0 then setFile f { x with off := (x.off + r.toNat) % 2 ^ 32 } else pure ()

/-- Read from file `f`; `pipe` is what `piperead` returns. -/
def fileread (env : Env) (pipe : ℤ) (f : Fin NFILE) (n : ℕ) : KM ℤ := do
  let x ← file f
  if x.readable = false then return -1
  else
    match x.type with
    | .pipe => return pipe
    | .inode => do
      ilock x.ip
      let r ← readAny env x.ip x.off n
      advance f x r.1
      iunlock x.ip
      return r.1
    | .none => throw .fileread

/-- `n` is `none` where `argptr` fails. -/
def sysRead (env : Env) (pipe fd : ℤ) (n : Option ℕ) : KM ℤ := do
  match ← argfd p fd, n with
  | some f, some n => fileread env pipe f n
  | _, _ => return -1

/-- `writei`, also of a device; `dev` is `devsw[ip->major].write`. -/
def writeAny (dev : Option (List UInt8 → ℤ)) (ip : Ptr) (src : List UInt8) (off : ℕ) : KM ℤ := do
  let d ← inode ip
  if d.type = T_DEV then
    match dev with
    | none => return -1
    | some write => do
      iunlock ip
      ilock ip
      return write src
  else writei ip src off

/-- What `filewrite` writes at a time: `((MAXOPBLOCKS-1-1-2) / 2) * 512`. -/
def maxWrite : ℕ := (10 - 1 - 1 - 2) / 2 * 512

/-- The loop of `filewrite`, from byte `i` on. -/
def filewriteLoop (dev : Option (List UInt8 → ℤ)) (f : Fin NFILE) (src : List UInt8) :
    ℕ → ℕ → KM ℕ
  | 0, i => return i
  | k + 1, i =>
    if i < src.length then do
      let x ← file f
      ilock x.ip
      let r ← writeAny dev x.ip ((src.drop i).take maxWrite) x.off
      advance f x r
      iunlock x.ip
      if r < 0 then return i
      else if r ≠ ((src.drop i).take maxWrite).length then throw .shortFilewrite
      else filewriteLoop dev f src k (i + ((src.drop i).take maxWrite).length)
    else return i

/-- Write to file `f`; `pipe` is what `pipewrite` returns. Every round but the last writes a byte
at least, so there are no more rounds than bytes. -/
def filewrite (dev : Option (List UInt8 → ℤ)) (pipe : ℤ) (f : Fin NFILE) (src : List UInt8) :
    KM ℤ := do
  let x ← file f
  if x.writable = false then return -1
  else
    match x.type with
    | .pipe => return pipe
    | .inode => do
      let i ← filewriteLoop dev f src src.length 0
      if i = src.length then return src.length else return -1
    | .none => throw .filewrite

def sysWrite (dev : Option (List UInt8 → ℤ)) (pipe fd : ℤ) (src : Option (List UInt8)) :
    KM ℤ := do
  match ← argfd p fd, src with
  | some f, some src => filewrite dev pipe f src
  | _, _ => return -1

/-- Get metadata about file `f`. -/
def filestat (f : Fin NFILE) : KM ℤ := do
  let x ← file f
  match x.type with
  | .inode => do
    ilock x.ip
    iunlock x.ip
    return 0
  | .pipe => return -1
  | .none => return -1

def sysFstat (fd : ℤ) (st : Bool) : KM ℤ := do
  match ← argfd p fd, st with
  | some f, true => filestat f
  | _, _ => return -1

def File.pipeEnd (x : File) (writable : Bool) : File :=
  { x with type := .pipe, readable := !writable, writable := writable }

/-- `kalloc` says whether there is a page for the pipe. -/
def pipealloc (kalloc : Bool) : KM (Option (Fin NFILE × Fin NFILE)) := do
  match ← filealloc with
  | none => return none
  | some f₀ => do
    match ← filealloc with
    | none => do
      fileclose f₀
      return none
    | some f₁ =>
      if kalloc then do
        let x₀ ← file f₀
        setFile f₀ (x₀.pipeEnd false)
        let x₁ ← file f₁
        setFile f₁ (x₁.pipeEnd true)
        return some (f₀, f₁)
      else do
        fileclose f₀
        fileclose f₁
        return none

/-- `sys_pipe` from `fdalloc` on. -/
def pipeFds (rf wf : Fin NFILE) : KM ℤ := do
  match ← fdalloc p rf with
  | none => do
    fileclose rf
    fileclose wf
    return -1
  | some fd₀ => do
    match ← fdalloc p wf with
    | none => do
      setOfile p fd₀ none
      fileclose rf
      fileclose wf
      return -1
    | some _ => return 0

/-- `fd` says whether `argptr` succeeds. -/
def sysPipe (fd kalloc : Bool) : KM ℤ :=
  if fd = false then return -1
  else do
    match ← pipealloc kalloc with
    | none => return -1
    | some (rf, wf) => pipeFds p rf wf

end Calls

/-! ### What they do -/

/-- The contents of an inode that is no directory may have changed, and nothing else. -/
structure Dinode.Rewritten (x y : Dinode) : Prop where
  type : y.type = x.type
  nlink : y.nlink = x.nlink
  dir : x.type = T_DIR → y.data = x.data

structure Works (v w : View) : Prop where
  rest : Rest w
  left : Left v w
  cached : w.cached = v.cached
  inode : ∀ i, (v.inode i).Rewritten (w.inode i)

variable {v u w : View} {p : Fin NPROC} {f : Fin NFILE} {fd : Fin NOFILE} {ip : Ptr} {i : ℕ}
  {E : Stop → Prop}

theorem Dinode.Rewritten.refl (x : Dinode) : x.Rewritten x := ⟨rfl, rfl, fun _ => rfl⟩

theorem Works.refl (hv : Rest v) : Works v v :=
  ⟨hv, (Dropped.of_eq rfl rfl).left, rfl, fun _ => .refl _⟩

theorem Left.setFile {x : File} (h : Left v u) (hx : x.type = .inode → x.Was (u.ftable f)) :
    Left v (u.setFile f x) where
  entries := h.entries
  files f' hf' := by
    have hwas := (Dropped.setFile hx).files f' hf'
    rcases h.files f' hwas.type with hw | hw
    · exact .inl ⟨hw.type, hwas.ip.trans hw.ip, hwas.writable.trans hw.writable⟩
    · refine .inr fun hwr j hj => ?_
      rw [hwas.ip] at hj
      exact hw (hwas.writable ▸ hwr) j hj

theorem Rest.setFile {x : File} (hv : Rest v) (ht : x.type = (v.ftable f).type)
    (hr : x.ref = (v.ftable f).ref)
    (hip : x.type = .inode → x.ip = (v.ftable f).ip) : Rest (v.setFile f x) where
  quiet := hv.quiet
  exact := by
    have hself : ∀ ip, fileRef ip x = fileRef ip (v.ftable f) := by
      intro ip
      unfold fileRef
      by_cases hx : x.type = .inode
      · rw [← ht, hip hx]
      · rw [if_neg fun h => hx h.1, if_neg fun h => hx (ht.trans h.1)]
    refine ⟨fun ip => ?_, fun f' => ?_, fun f' hf' => ?_⟩
    · have htally : Tally.tally Finset.univ (fileRef ip) (update v.ftable f x) =
          Tally.tally Finset.univ (fileRef ip) v.ftable :=
        Tally.tally_update_eq (Finset.mem_univ f) (hself ip)
      refine (hv.exact.inodes ip).trans ?_
      rw [← htally]
      rfl
    · change (update v.ftable f x f').ref = _
      rcases eq_or_ne f' f with rfl | hne
      · rw [update_self, hr]
        exact hv.exact.files f'
      · rw [update_of_ne hne]
        exact hv.exact.files f'
    change (update v.ftable f x f').ref = 0 at hf'
    change (update v.ftable f x f').type = _
    rcases eq_or_ne f' f with rfl | hne
    · rw [update_self] at hf' ⊢
      rw [ht]
      exact hv.exact.closed f' (hr ▸ hf')
    · rw [update_of_ne hne] at hf' ⊢
      exact hv.exact.closed f' hf'
  dead := hv.dead

theorem via_argfd {fd : ℤ} {R : Option (Fin NFILE) → View → Prop} (hnone : R none v)
    (hsome : ∀ (fd' : Fin NOFILE) f, (v.procs p).ofile fd' = some f → R (some f) v) :
    Via Shows (argfd p fd) R E v := by
  refine Via.bind_eq (via_myproc ⟨rfl, rfl⟩) ?_
  split
  case isFalse => exact Via.pure hnone
  case isTrue hrange =>
  refine Via.pure ?_
  cases hfd : (v.procs p).ofile ⟨fd.toNat, by omega⟩ with
  | none => exact hnone
  | some f => exact hsome _ f hfd

/-! ### `dup` -/

theorem Rest.dup (hv : Rest v) (hp : (v.procs p).live = true) (hfd : (v.procs p).ofile fd = none) :
    Rest ((v.setFile f { v.ftable f with ref := (v.ftable f).ref + 1 }).withProcs
      (setFd v.procs p fd (some f))) where
  quiet := hv.quiet
  exact := by
    refine Counts.setFd hv.exact rfl (fun ip => rfl) ?_ (fun f' hne => ?_) nofun
    · rw [hfd, ofileRef_none, ofileRef_self]
    · rw [hfd, ofileRef_none, ofileRef_of_ne hne]
  dead := dead_setFd hv.dead hp

theorem via_sysDup {fd : ℤ} (hv : Idle v) (hp : (v.procs p).live = true) :
    Via Shows (sysDup p fd) (fun _ w => Works v w) (fun _ => True) v := by
  refine Via.cont (via_argfd (Via.pure (.refl hv.rest)) fun _ f _ => ?_)
  refine Via.cont (via_fdalloc (fun _ => Via.pure (.refl hv.rest)) fun fd hfd => ?_)
  refine Via.cont (via_filedup (Via.pure ?_) trivial)
  have hset : Dropped v (v.setFile f { v.ftable f with ref := (v.ftable f).ref + 1 }) :=
    .setFile fun ht => ⟨ht, rfl, rfl⟩
  exact ⟨hv.rest.dup hp hfd, ⟨hset.left.entries, hset.left.files⟩, rfl, fun _ => .refl _⟩

/-! ### `read`, `write` and `fstat`

The state while the inode of file `f` is locked, and after a part was written. -/

/-- The file is open on inode `i`, and so far the call has done what it may do. -/
structure Working (v : View) (f : Fin NFILE) (ip : Ptr) (i : ℕ) (u : View) : Prop
    extends Works v u where
  type : (u.ftable f).type = .inode
  entry : (u.ftable f).ip = ip
  at_ip : u.At ip i
  live : (u.inode i).type ≠ 0

theorem Idle.working (hv : Idle v) (ht : (v.ftable f).type = .inode) :
    ∃ i, Working v f (v.ftable f).ip i v := by
  obtain ⟨i, hat⟩ := hv.rest.exact.at_file ht
  exact ⟨i, .refl hv.rest, ht, rfl, hat, hv.live i ⟨_, hat⟩⟩

variable {R : Unit → View → Prop}

theorem Working.via_ilock (h : Working v f ip i u)
    (hR : R () (u.lock ip)) : Via Shows (ilock ip) R E u :=
  Names.via_ilock h.at_ip (h.rest.quiet ip) (fun _ => hR) fun h₀ => absurd h₀ h.live

theorem Working.via_iunlock (h : Working v f ip i u) (hR : R () u) :
    Via Shows (iunlock ip) R E (u.lock ip) := by
  refine Names.via_iunlock (v := u.lock ip) h.at_ip View.locked_lock_self ?_
  rw [View.unlock_lock (h.rest.quiet ip)]
  exact hR

theorem Working.setOff (h : Working v f ip i u) (off : ℕ) :
    Working v f ip i (u.setFile f { u.ftable f with off := off }) := by
  have hself : (u.setFile f { u.ftable f with off := off }).ftable f =
      { u.ftable f with off := off } := update_self ..
  refine ⟨⟨h.rest.setFile rfl rfl fun _ => rfl, h.left.setFile fun ht => ⟨ht, rfl, rfl⟩,
    h.cached, h.inode⟩, ?_, ?_, h.at_ip, h.live⟩
  · rw [hself]
    exact h.type
  · rw [hself]
    exact h.entry

theorem Working.via_advance {r : ℤ} (h : Working v f ip i u)
    (hR : ∀ w, Working v f ip i w → w.inode = u.inode → R () (w.lock ip)) :
    Via Shows (advance f (u.ftable f) r) R E (u.lock ip) :=
  Via.ite (fun _ => via_setFile (hR _ (h.setOff _) rfl)) fun _ => Via.pure (hR u h rfl)

theorem via_sysFstat {fd : ℤ} {st : Bool} (hv : Idle v) :
    Via Shows (sysFstat p fd st) (fun _ w => Works v w) (fun _ => True) v := by
  refine Via.cont (via_argfd (Via.pure (.refl hv.rest)) fun _ f _ => ?_)
  cases st with
  | false => exact Via.pure (.refl hv.rest)
  | true =>
  refine Via.cont (via_file ?_)
  cases ht : (v.ftable f).type with
  | none | pipe => exact Via.pure (.refl hv.rest)
  | inode =>
  obtain ⟨i, h⟩ := hv.working ht
  refine Via.cont (h.via_ilock ?_)
  exact Via.cont (h.via_iunlock (Via.pure (.refl hv.rest)))

theorem Working.via_readAny {env : Env} {off n : ℕ} (h : Working v f ip i u) :
    Via Shows (readAny env ip off n) (fun _ w => w = u.lock ip) (fun _ => True) (u.lock ip) := by
  have hl : (u.lock ip).locked ip = true := View.locked_lock_self
  refine Via.cont (via_inode h.at_ip hl ?_)
  refine Via.ite (fun _ => ?_) fun _ => ?_
  · cases env.read with
    | none => exact Via.pure rfl
    | some read =>
      refine Via.cont (h.via_iunlock ?_)
      exact Via.cont (h.via_ilock (Via.pure rfl))
  · refine Via.cont (via_inode h.at_ip hl ?_)
    exact Via.ite (fun _ => Via.pure rfl) fun _ => Via.pure rfl

theorem via_sysRead {env : Env} {pipe fd : ℤ} {n : Option ℕ} (hv : Idle v) :
    Via Shows (sysRead p env pipe fd n) (fun _ w => Works v w) (fun _ => True) v := by
  refine Via.cont (via_argfd (Via.pure (.refl hv.rest)) fun _ f _ => ?_)
  cases n with
  | none => exact Via.pure (.refl hv.rest)
  | some n =>
  refine Via.cont (via_file ?_)
  refine Via.ite (fun _ => Via.pure (.refl hv.rest)) fun _ => ?_
  cases ht : (v.ftable f).type with
  | none => exact Via.throw trivial
  | pipe => exact Via.pure (.refl hv.rest)
  | inode =>
  obtain ⟨i, h⟩ := hv.working ht
  refine Via.cont (h.via_ilock ?_)
  refine Via.bind h.via_readAny ?_
  rintro r _ rfl
  refine Via.cont (h.via_advance fun u hu _ => ?_)
  exact Via.cont (hu.via_iunlock (Via.pure hu.toWorks))

theorem Working.rewrite (h : Working v f ip i u) (hnd : (u.inode i).type ≠ T_DIR)
    (data : List UInt8) : Working v f ip i (u.setInode i { u.inode i with data := data }) := by
  have htype : ∀ j, ((u.setInode i { u.inode i with data := data }).inode j).type =
      (u.inode j).type := by
    intro j
    rcases eq_or_ne j i with rfl | hne
    · rw [View.inode_setInode, update_self]
    · rw [View.inode_setInode, update_of_ne hne]
  refine ⟨⟨⟨h.rest.quiet, ⟨h.rest.exact.inodes, h.rest.exact.files, h.rest.exact.closed⟩,
    h.rest.dead⟩, ⟨h.left.entries, fun f' hf' => ?_⟩, h.cached, fun j => ?_⟩, h.type, h.entry,
    h.at_ip, ?_⟩
  · rcases h.left.files f' hf' with hw | hw
    · exact .inl hw
    · refine .inr fun hwr j hj => ?_
      rw [htype]
      exact hw hwr j hj
  · rcases eq_or_ne j i with rfl | hne
    · rw [View.inode_setInode, update_self]
      refine ⟨(h.inode j).type, (h.inode j).nlink, fun hd => absurd ?_ hnd⟩
      rw [(h.inode j).type, hd]
    · rw [View.inode_setInode, update_of_ne hne]
      exact h.inode j
  · rw [htype]
    exact h.live

theorem Working.via_writei {src : List UInt8} {off : ℕ} {R : ℤ → View → Prop}
    (h : Working v f ip i u) (hnd : (u.inode i).type ≠ T_DIR)
    (hR : ∀ r w, Working v f ip i w → (w.inode i).type ≠ T_DIR → w.ftable = u.ftable →
      R r (w.lock ip)) : Via Shows (writei ip src off) R E (u.lock ip) := by
  have hl : (u.lock ip).locked ip = true := View.locked_lock_self
  have hwritten : ∀ data, R src.length
      ((u.lock ip).setInode i { u.inode i with data := data }) := by
    intro data
    refine hR _ _ (h.rewrite hnd data) ?_ rfl
    rw [View.inode_setInode, update_self]
    exact hnd
  rintro s ⟨hc, hview⟩
  have hat : s.view.At ip i := hview ▸ h.at_ip
  obtain ⟨hr, rfl⟩ := view_at.mp hat
  have hlocked : s.view.locked ip = true := (congrFun (congrArg View.locked hview) ip).trans hl
  have hv := ((hc.entry ip).locked hlocked).2
  obtain ⟨hcopy, htype⟩ := (hc.entry ip).copy hr hv
  have hdisk : s.disk = u.inode := congrArg View.inode hview
  simp only [writei, wp_bind, wp_incore, wp_ite, wp_pure, wp_modifyIncore, wp_modifyDinode,
    setDinode_setIncore, disk_setIncore, hcopy]
  split
  · exact ⟨_, ⟨hc, hview⟩, hR _ u h hnd rfl⟩
  split
  · exact ⟨_, ⟨hc, hview⟩, hR _ u h hnd rfl⟩
  refine ⟨_, shows_setInode hc hr hv ?_, ?_⟩
  · exact htype
  · rw [hview, hdisk]
    exact hwritten _

variable {dev : Option (List UInt8 → ℤ)}

theorem Working.via_writeAny {src : List UInt8} {off : ℕ}
    {R : ℤ → View → Prop} (h : Working v f ip i u) (hnd : (u.inode i).type ≠ T_DIR)
    (hR : ∀ r w, Working v f ip i w → (w.inode i).type ≠ T_DIR → w.ftable = u.ftable →
      R r (w.lock ip)) : Via Shows (writeAny dev ip src off) R E (u.lock ip) := by
  refine Via.cont (via_inode h.at_ip View.locked_lock_self ?_)
  refine Via.ite (fun _ => ?_) fun _ => h.via_writei hnd hR
  cases dev with
  | none => exact Via.pure (hR _ u h hnd rfl)
  | some write =>
    refine Via.cont (h.via_iunlock ?_)
    exact Via.cont (h.via_ilock (Via.pure (hR _ u h hnd rfl)))

theorem via_filewriteLoop {src : List UInt8} :
    ∀ (k n : ℕ) {u : View}, Working v f ip i u → (u.inode i).type ≠ T_DIR →
      Via Shows (filewriteLoop dev f src k n) (fun _ w => Works v w) (fun _ => True) u := by
  intro k
  induction k with
  | zero => exact fun n u h _ => Via.pure h.toWorks
  | succ k ih =>
  intro n u h hnd
  refine Via.ite (fun _ => ?_) fun _ => Via.pure h.toWorks
  refine Via.cont (via_file ?_)
  rw [h.entry]
  refine Via.cont (h.via_ilock ?_)
  refine Via.cont (h.via_writeAny hnd fun r u₁ h₁ hnd₁ hft => ?_)
  rw [← hft]
  refine Via.cont (h₁.via_advance fun u₂ h₂ hinode => ?_)
  have hnd₂ : (u₂.inode i).type ≠ T_DIR := hinode ▸ hnd₁
  refine Via.cont (h₂.via_iunlock ?_)
  refine Via.ite (fun _ => Via.pure h₂.toWorks) fun _ => ?_
  exact Via.ite (fun _ => Via.throw trivial) fun _ => ih _ h₂ hnd₂

theorem via_sysWrite {pipe fd : ℤ} {src : Option (List UInt8)}
    (hv : Idle v) (hro : ∀ f, (v.ftable f).type = .inode → v.Guards (v.ftable f)) :
    Via Shows (sysWrite p dev pipe fd src) (fun _ w => Works v w) (fun _ => True) v := by
  refine Via.cont (via_argfd (Via.pure (.refl hv.rest)) fun _ f _ => ?_)
  cases src with
  | none => exact Via.pure (.refl hv.rest)
  | some src =>
  refine Via.cont (via_file ?_)
  refine Via.ite (fun _ => Via.pure (.refl hv.rest)) fun hwr => ?_
  cases ht : (v.ftable f).type with
  | none => exact Via.throw trivial
  | pipe => exact Via.pure (.refl hv.rest)
  | inode =>
  obtain ⟨i, h⟩ := hv.working ht
  have hnd := hro f ht (Bool.eq_true_of_not_eq_false hwr) i h.at_ip
  refine Via.bind (via_filewriteLoop src.length 0 h hnd) fun n w hw => ?_
  exact Via.ite (fun _ => Via.pure hw) fun _ => Via.pure hw

/-! ### `pipe` -/

def View.setFiles (v : View) (f₀ f₁ : Fin NFILE) (x₀ x₁ : File) : View :=
  (v.setFile f₀ x₀).setFile f₁ x₁

section Pipe

variable {f₀ f₁ : Fin NFILE} {x₀ x₁ y : File}

theorem View.setFiles_left (hne : f₁ ≠ f₀) :
    (v.setFiles f₀ f₁ x₀ x₁).setFile f₀ y = v.setFiles f₀ f₁ y x₁ := by
  unfold View.setFiles View.setFile
  dsimp only
  rw [update_comm hne, update_idem]

theorem View.setFiles_right :
    (v.setFiles f₀ f₁ x₀ x₁).setFile f₁ y = v.setFiles f₀ f₁ x₀ y := View.setFile_setFile

theorem View.ftable_setFiles_left (hne : f₁ ≠ f₀) : (v.setFiles f₀ f₁ x₀ x₁).ftable f₀ = x₀ :=
  (update_of_ne hne.symm ..).trans (update_self ..)

theorem View.ftable_setFiles_right : (v.setFiles f₀ f₁ x₀ x₁).ftable f₁ = x₁ :=
  update_self ..

theorem via_fileclose_two {β : Type} {r : β} {R : β → View → Prop} (hne : f₁ ≠ f₀)
    (hr₀ : x₀.ref = 1) (ht₀ : x₀.type ≠ .inode) (hr₁ : x₁.ref = 1) (ht₁ : x₁.type ≠ .inode)
    (h : R r (v.setFiles f₀ f₁ x₀.closed x₁.closed)) :
    Via Shows (do fileclose f₀; fileclose f₁; return r) R E (v.setFiles f₀ f₁ x₀ x₁) := by
  have hleft : (v.setFiles f₀ f₁ x₀ x₁).ftable f₀ = x₀ := View.ftable_setFiles_left hne
  refine Via.seq (u := v.setFiles f₀ f₁ x₀.closed x₁) (via_fileclose_last (by rwa [hleft])
    (by rwa [hleft]) (by rw [hleft, View.setFiles_left hne])) ?_
  have hright : (v.setFiles f₀ f₁ x₀.closed x₁).ftable f₁ = x₁ := View.ftable_setFiles_right
  refine Via.seq (u := v.setFiles f₀ f₁ x₀.closed x₁.closed) (via_fileclose_last (by rwa [hright])
    (by rwa [hright]) (by rw [hright, View.setFiles_right])) ?_
  exact Via.pure h

theorem Works.setClosed (h : Works v u) (hr : (u.ftable f).ref = 0) :
    Works v (u.setFile f y.closed) := by
  have ht := h.rest.exact.closed f hr
  exact ⟨h.rest.setFile ht.symm hr.symm nofun, h.left.setFile nofun, h.cached, h.inode⟩

theorem Works.setPipe (h : Works v u) (hp : (u.procs p).live = true)
    (hfd : (u.procs p).ofile fd = none) (hr : (u.ftable f).ref = 0) (hy : y.type = .pipe)
    (hyr : y.ref = 1) : Works v ((u.setFile f y).withProcs (setFd u.procs p fd (some f))) := by
  have hnot : y.type ≠ .inode := by
    rw [hy]
    decide
  have hleft := h.left.setFile (f := f) (x := y) fun ht => absurd ht hnot
  refine ⟨⟨h.rest.quiet, ?_, dead_setFd h.rest.dead hp⟩, ⟨hleft.entries, hleft.files⟩, h.cached,
    h.inode⟩
  refine Counts.setFd h.rest.exact rfl (fun ip => ?_) ?_ (fun f' hne => ?_) fun h₀ => ?_
  · have hold : fileRef ip (u.ftable f) = 0 := by
      rw [fileRef, h.rest.exact.closed f hr]
      exact if_neg fun hn => by cases hn.1
    have hnew : fileRef ip y = 0 := if_neg fun hn => hnot hn.1
    rw [hold, hnew]
    rfl
  · rw [hfd, hr, hyr, ofileRef_none, ofileRef_self]
  · rw [hfd, ofileRef_none, ofileRef_of_ne hne]
  · rw [hyr] at h₀
    cases h₀

/-- The files that `pipealloc` hands out. -/
structure PipeEnds (v : View) (f₀ f₁ : Fin NFILE) (x₀ x₁ : File) : Prop where
  ne : f₁ ≠ f₀
  free₀ : (v.ftable f₀).ref = 0
  free₁ : (v.ftable f₁).ref = 0
  ref₀ : x₀.ref = 1
  ref₁ : x₁.ref = 1
  type₀ : x₀.type ≠ .inode
  type₁ : x₁.type ≠ .inode

theorem PipeEnds.closed (h : PipeEnds v f₀ f₁ x₀ x₁) (hv : Rest v) :
    Works v (v.setFiles f₀ f₁ x₀.closed x₁.closed) := by
  refine ((Works.refl hv).setClosed h.free₀).setClosed ?_
  exact (congrArg File.ref (update_of_ne h.ne ..)).trans h.free₁

theorem via_pipealloc {kalloc : Bool} {R : Option (Fin NFILE × Fin NFILE) → View → Prop}
    (hv : Rest v) (hnone : ∀ w, Works v w → R none w)
    (hsome : ∀ f₀ f₁ x₀ x₁, PipeEnds v f₀ f₁ x₀ x₁ → x₀.type = .pipe → x₁.type = .pipe →
      R (some (f₀, f₁)) (v.setFiles f₀ f₁ x₀ x₁)) : Via Shows (pipealloc kalloc) R E v := by
  refine Via.cont (via_filealloc (fun _ => Via.pure (hnone v (.refl hv))) fun f₀ h₀ => ?_)
  have hself : (v.setFile f₀ { v.ftable f₀ with ref := 1 }).ftable f₀ =
      { v.ftable f₀ with ref := 1 } := update_self ..
  have ht₀ : (v.ftable f₀).type ≠ .inode := by
    rw [hv.exact.closed f₀ h₀]
    decide
  refine Via.cont (via_filealloc (fun _ => ?_) fun f₁ h₁ => ?_)
  · refine Via.cont (via_fileclose_last (by rw [hself]) (by rwa [hself]) ?_)
    rw [hself, View.setFile_setFile]
    exact Via.pure (hnone _ ((Works.refl hv).setClosed h₀))
  have hne : f₁ ≠ f₀ := by
    rintro rfl
    rw [hself] at h₁
    cases h₁
  have hsame : (v.setFile f₀ { v.ftable f₀ with ref := 1 }).ftable f₁ = v.ftable f₁ :=
    update_of_ne hne ..
  rw [hsame] at h₁ ⊢
  have ht₁ : (v.ftable f₁).type ≠ .inode := by
    rw [hv.exact.closed f₁ h₁]
    decide
  change Via Shows _ R E (v.setFiles f₀ f₁ { v.ftable f₀ with ref := 1 }
    { v.ftable f₁ with ref := 1 })
  have hends : PipeEnds v f₀ f₁ { v.ftable f₀ with ref := 1 } { v.ftable f₁ with ref := 1 } :=
    ⟨hne, h₀, h₁, rfl, rfl, ht₀, ht₁⟩
  refine Via.ite (fun _ => ?_) fun _ => ?_
  · refine Via.cont (via_file ?_)
    rw [View.ftable_setFiles_left hne]
    refine Via.cont (via_setFile ?_)
    rw [View.setFiles_left hne]
    refine Via.cont (via_file ?_)
    rw [View.ftable_setFiles_right]
    refine Via.cont (via_setFile ?_)
    rw [View.setFiles_right]
    exact Via.pure (hsome f₀ f₁ _ _ ⟨hne, h₀, h₁, rfl, rfl, nofun, nofun⟩ rfl rfl)
  · exact via_fileclose_two hne rfl ht₀ rfl ht₁ (hnone _ (hends.closed hv))

theorem setFd_back {o : Option (Fin NFILE)} (h : (v.procs p).ofile fd = none) :
    setFd (setFd v.procs p fd o) p fd none = v.procs := by
  unfold setFd
  rw [update_self, update_idem]
  dsimp only
  rw [update_idem, ← h, update_eq_self, update_eq_self]

theorem via_sysPipe {fd kalloc : Bool} (hv : Idle v) (hp : (v.procs p).live = true) :
    Via Shows (sysPipe p fd kalloc) (fun _ w => Works v w) (fun _ => True) v := by
  refine Via.ite (fun _ => Via.pure (.refl hv.rest)) fun _ => ?_
  refine Via.cont (via_pipealloc hv.rest (fun w hw => Via.pure hw) fun f₀ f₁ x₀ x₁ h h₀ h₁ => ?_)
  have hclose : Via Shows (do fileclose f₀; fileclose f₁; return (-1 : ℤ)) (fun _ w => Works v w)
      (fun _ => True) (v.setFiles f₀ f₁ x₀ x₁) :=
    via_fileclose_two h.ne h.ref₀ h.type₀ h.ref₁ h.type₁ (h.closed hv.rest)
  refine Via.cont (via_fdalloc (fun _ => hclose) fun fd₀ hfd₀ => ?_)
  obtain ⟨procs, hprocs⟩ : ∃ procs, procs = setFd v.procs p fd₀ (some f₀) := ⟨_, rfl⟩
  change Via Shows _ _ _ ((v.setFiles f₀ f₁ x₀ x₁).withProcs (setFd v.procs p fd₀ (some f₀)))
  rw [← hprocs]
  refine Via.cont (via_fdalloc (fun _ => ?_) fun fd₁ hfd₁ => ?_)
  · refine Via.cont (via_setOfile ?_)
    change Via Shows _ _ _ ((v.setFiles f₀ f₁ x₀ x₁).withProcs (setFd procs p fd₀ none))
    rw [hprocs, setFd_back (v := v) hfd₀]
    exact hclose
  have hfirst : Works v ((v.setFile f₀ x₀).withProcs procs) := by
    rw [hprocs]
    exact (Works.refl hv.rest).setPipe hp hfd₀ h.free₀ h₀ h.ref₀
  have hlive : (procs p).live = true := by
    rw [hprocs, setFd_self]
    exact hp
  have hfree : (((v.setFile f₀ x₀).withProcs procs).ftable f₁).ref = 0 :=
    (congrArg File.ref (update_of_ne h.ne ..)).trans h.free₁
  exact Via.pure (hfirst.setPipe hlive hfd₁ hfree h₁ h.ref₁)

end Pipe

end Xv6.Names
