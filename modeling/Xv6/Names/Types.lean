import Xv6.Names.Transfer

/-!
# Directories are never open for writing

`open` refuses to open a directory in any mode but `O_RDONLY`, and `create` returns an inode of the
type asked for. That is enough for all runs, because the type of an inode does not change while a
file or a process refers to it: an inode is freed with its last reference, and only a free inode is
allocated.
-/

namespace Xv6.Names

open Hoare Function

/-! ### Types over events -/

section Events

variable {ninodes : ℕ} {n n' : Ns} {ev : Event} {t : ℕ → Dinode} {c : Finset ℕ} {d e i j : ℕ}

/-- The type of inode `j` is still `type`, or the inode was freed without a reference to it. -/
def TypeKept (n : Ns) (j : ℕ) (type : Int16) : Prop :=
  (n.table j).type = type ∨ (n.table j).type = 0 ∧ j ∉ n.refs

theorem type_reap (c : Finset ℕ) (i j : ℕ) (t : ℕ → Dinode) :
    (reap c i t j).type = (t j).type ∨ (reap c i t j).type = 0 ∧ j ∉ c := by
  rcases eq_or_ne j i with rfl | hne
  · unfold reap
    split
    case isTrue h =>
      rw [update_self]
      exact .inr ⟨rfl, h.1⟩
    case isFalse => exact .inl rfl
  · exact .inl (congrArg Dinode.type (reap_apply_of_ne hne))

theorem type_reap_eq_zero (h : (t j).type = 0) : (reap c i t j).type = 0 := by
  rcases type_reap c i j t with hr | hr
  · exact hr.trans h
  · exact hr.1

theorem type_reap_reap (c : Finset ℕ) (i d j : ℕ) (t : ℕ → Dinode) :
    (reap c i (reap c d t) j).type = (t j).type ∨ (reap c i (reap c d t) j).type = 0 ∧ j ∉ c := by
  rcases type_reap c i j (reap c d t) with h | h
  · rw [h]
    exact type_reap c d j t
  · exact .inr h

theorem type_update (x : Dinode) (h : x.type = (t i).type) (j : ℕ) :
    (update t i x j).type = (t j).type := by
  rcases eq_or_ne j i with rfl | hne
  · rw [update_self, h]
  · rw [update_of_ne hne]

theorem Step.type_cases (h : Step ninodes n ev n') (hj : (n.table j).type ≠ 0) :
    TypeKept n' j (n.table j).type := by
  cases h with
  | hold => exact .inl rfl
  | @release t c c' i => exact type_reap c' i j t
  | @make t c d i name type major minor hadd _ _ hfree =>
    have hne : j ≠ i := by
      rintro rfl
      exact hj hfree
    have hmade : (makeTable t d name i type major minor j).type = (t j).type := by
      rcases eq_or_ne j d with rfl | hjd
      · unfold makeTable
        rw [update_self]
        unfold Dinode.addEntry
        dsimp only
        split <;> rfl
      · unfold makeTable
        rw [update_of_ne hjd, update_of_ne hne]
    have hreap := type_reap c d j (makeTable t d name i type major minor)
    rwa [hmade] at hreap
  | @link t c d i name hadd _ hnd =>
    have hlinked : (linkTable t d name i j).type = (t j).type := by
      have hne : d ≠ i := by
        rintro rfl
        exact hnd hadd.dir
      refine (type_update _ ?_ j).trans (type_update _ (by rfl) j)
      rw [update_of_ne hne]
      rfl
    have hreap := type_reap_reap c i d j (linkTable t d name i)
    rwa [hlinked] at hreap
  | @unlink t c d e i hrem =>
    have hunlinked : (unlinkTable t d e i j).type = (t j).type := by
      refine (type_update _ ?_ j).trans (type_update _ (by rfl) j)
      rw [update_of_ne hrem.ne]
    have hreap := type_reap_reap c i d j (unlinkTable t d e i)
    rwa [hunlinked] at hreap

theorem TypeKept.moves {type : Int16} (h : TypeKept n j type) (htype : type ≠ 0)
    (hm : Moves ninodes n n') : TypeKept n' j type := by
  obtain ⟨i, hs⟩ := hm
  rcases h with rfl | ⟨hfree, hnot⟩
  · rcases hs with hs | hs
    · exact hs.type_cases htype
    · exact hs.type_cases htype
  -- a free inode is not referenced again
  rcases hs with hs | hs
  · cases hs with
    | hold hlive =>
      refine .inr ⟨hfree, fun hm => ?_⟩
      rcases Finset.mem_insert.mp hm with rfl | hm
      · exact hlive hfree
      · exact hnot hm
  · cases hs with
    | release _ hsub => exact .inr ⟨type_reap_eq_zero hfree, fun hm => hnot (hsub hm)⟩

theorem Effect.type_kept {v : View} {p : Fin NPROC} {call : Call}
    (h : Effect ninodes v p call n) (hj : (v.inode j).type ≠ 0) : TypeKept n j (v.inode j).type :=
  h.keeps (I := fun n => TypeKept n j (v.inode j).type) (.inl rfl)
    (fun _ _ _ hs => hs.type_cases hj) fun _ _ hn hm => hn.moves hj hm

end Events

/-! ### All calls -/

inductive FileCall where
  | dup (fd : ℤ)
  | read (env : Env) (r fd : ℤ) (n : Option ℕ)
  | write (dev : Option (List UInt8 → ℤ)) (r fd : ℤ) (src : Option (List UInt8))
  | fstat (fd : ℤ) (st : Bool)
  | pipe (fd kalloc : Bool)

/-- The call by process `p`. -/
def FileCall.run (p : Fin NPROC) : FileCall → KM ℤ
  | .dup fd => sysDup p fd
  | .read env r fd n => sysRead p env r fd n
  | .write dev r fd src => sysWrite p dev r fd src
  | .fstat fd st => sysFstat p fd st
  | .pipe fd kalloc => sysPipe p fd kalloc

inductive AnyCall where
  | fs (c : FsCall)
  | file (c : FileCall)

def anyStep (ninodes : ℕ) (s : Kernel) (a : Fin NPROC × AnyCall) : Option Kernel :=
  match a.2 with
  | .fs c => fsStep ninodes s (a.1, c)
  | .file c =>
    if (s.procs a.1).live = true then
      match c.run a.1 s with
      | .ok (_, s') => some s'
      | .error _ => none
    else none

def View.ReadOnly (v : View) : Prop := ∀ f, (v.ftable f).type = .inode → v.Guards (v.ftable f)

variable {ninodes : ℕ} {v w : View} {s s' : Kernel} {p : Fin NPROC}

theorem via_fileCall {c : FileCall} (hv : Idle v) (hp : (v.procs p).live = true)
    (hro : v.ReadOnly) : Via Shows (c.run p) (fun _ w => Works v w) (fun _ => True) v := by
  cases c with
  | dup fd => exact via_sysDup hv hp
  | read env r fd n => exact via_sysRead hv
  | write dev r fd src => exact via_sysWrite hv hro
  | fstat fd st => exact via_sysFstat hv
  | pipe fd kalloc => exact via_sysPipe hv hp

theorem Base.works (h : Base ninodes v.ns) (hw : Works v w) : Base ninodes w.ns where
  inode i := by
    have hi := h.inode i
    have hr := hw.inode i
    refine ⟨fun ht => hi.bound (hr.type ▸ ht), fun ht => ?_⟩
    have hd : (v.inode i).type = T_DIR := hr.type.symm.trans ht
    rw [show w.ns.table i = w.inode i from rfl, hr.dir hd]
    exact hi.dir hd
  kept i hu := by
    have hr := hw.inode i
    rw [show w.ns.refs = v.ns.refs from hw.cached]
    exact h.kept i ⟨hr.type ▸ hu.1, hr.nlink ▸ hu.2⟩
  live i hi := by
    rw [show w.ns.refs = v.ns.refs from hw.cached] at hi
    rw [show w.ns.table i = w.inode i from rfl, (hw.inode i).type]
    exact h.live i hi

structure Ends (v w : View) : Prop where
  left : Left v w
  types : ∀ i ∈ v.cached, TypeKept w.ns i (v.inode i).type

theorem Works.ends (h : Works v w) : Ends v w := ⟨h.left, fun i _ => .inl (h.inode i).type⟩

/-- The state between calls, with no directory open for writing. -/
structure Guarded (ninodes : ℕ) (s : Kernel) : Prop extends Between ninodes s where
  readOnly : s.view.ReadOnly

theorem Guarded.ends {a : Fin NPROC × AnyCall} (h : Guarded ninodes s)
    (hs : anyStep ninodes s a = some s') : Between ninodes s' ∧ Ends s.view s'.view := by
  obtain ⟨p, fs | c⟩ := a
  · refine ⟨h.toBetween.fsStep hs, ?_⟩
    cases fs with
    | call c =>
      obtain ⟨hen, r, hrun⟩ := step_eq_some (a := (p, c)) hs
      rcases call_cases h.fits h.coherent h.idle hen with ⟨r', t, hrun', -, hl⟩ | ⟨e, hrun', -⟩
      · rw [hrun] at hrun'
        cases hrun'
        exact ⟨hl.left, fun i hi => hl.effect.type_kept (h.base.live i hi)⟩
      · rw [hrun] at hrun'
        cases hrun'
    | exec path env =>
    simp only [anyStep, Names.fsStep] at hs
    split at hs
    case isFalse => cases hs
    case isTrue hp =>
    split at hs
    case h_2 => cases hs
    case h_1 r t hrun =>
    cases hs
    obtain ⟨u, ⟨-, hview⟩, rfl⟩ := (via_exec h.idle hp s ⟨h.coherent, rfl⟩).of_ok hrun
    rw [hview]
    exact (Works.refl h.rest).ends
  · simp only [anyStep] at hs
    split at hs
    case isFalse => cases hs
    case isTrue hp =>
    split at hs
    case h_2 => cases hs
    case h_1 r t hrun =>
    cases hs
    obtain ⟨u, ⟨hc, rfl⟩, hw⟩ :=
      (via_fileCall h.idle hp h.readOnly s ⟨h.coherent, rfl⟩).of_ok hrun
    exact ⟨⟨h.fits, hc, hw.rest, h.base.works hw⟩, hw.ends⟩

theorem Ends.type_eq {i : ℕ} (h : Ends v w) (hv : i ∈ v.cached) (hw : i ∈ w.cached) :
    (w.inode i).type = (v.inode i).type := by
  rcases h.types i hv with ht | ⟨-, hn⟩
  · exact ht
  · exact absurd hw hn

theorem Ends.readOnly (h : Ends v w) (hv : Rest v) (hro : v.ReadOnly) : w.ReadOnly := by
  intro f hf hwr j hj
  rcases h.left.files f hf with hwas | hguard
  · obtain ⟨i, hat⟩ := hv.exact.at_file hwas.type
    rw [hwas.ip] at hj
    have hij := h.left.entries _ i j hat hj
    subst hij
    rw [h.type_eq (View.mem_cached.mpr ⟨_, hat⟩) (View.mem_cached.mpr ⟨_, hj⟩)]
    exact hro f hwas.type (hwas.writable ▸ hwr) i hat
  · exact hguard hwr j hj

theorem Guarded.anyStep {a : Fin NPROC × AnyCall} (h : Guarded ninodes s)
    (hs : anyStep ninodes s a = some s') : Guarded ninodes s' :=
  have hends := h.ends hs
  ⟨hends.1, hends.2.readOnly h.rest h.readOnly⟩

theorem Start.guarded (h : Start ninodes s) : Guarded ninodes s := by
  refine ⟨h.between, fun f hf => ?_⟩
  have href : (s.view.ftable f).ref ≠ 0 := by
    intro h₀
    rw [h.rest.exact.closed f h₀] at hf
    cases hf
  rw [h.rest.exact.files f] at href
  obtain ⟨p, -, hp⟩ := Tally.exists_of_tally_ne_zero href
  obtain ⟨fd, -, hfd⟩ := Tally.exists_of_tally_ne_zero hp
  rw [h.quiescent.files p fd] at hfd
  exact absurd (if_neg nofun) hfd

/-! ### Runs -/

/-- An open file or the current directory of a process refers to inode `i`. -/
def Refers (s : Kernel) (i : ℕ) : Prop :=
  (∃ f, (s.ftable f).type = .inode ∧ 0 < (s.ftable f).ref ∧
    (s.icache (s.ftable f).ip).inum = i) ∨
    ∃ p, (s.procs p).live = true ∧ (s.icache (s.procs p).cwd).inum = i

theorem Refers.mem_cached {i : ℕ} (h : Refers s i) (hr : Rest s.view) : i ∈ s.view.cached := by
  rw [View.mem_cached]
  rcases h with ⟨f, hf, -, rfl⟩ | ⟨p, hp, rfl⟩
  · obtain ⟨i, hat⟩ := hr.exact.at_file hf
    exact ⟨_, view_at.mpr ⟨(view_at.mp hat).1, rfl⟩⟩
  · obtain ⟨i, hat⟩ := hr.exact.at_cwd hp
    exact ⟨_, view_at.mpr ⟨(view_at.mp hat).1, rfl⟩⟩

/-- **Directories are never open for writing.** After every sequence of calls that returned, by any
processes: a file on an inode that is open for writing is not on a directory, neither on disk nor in
the copy in memory; and whatever call comes next, an inode to which an open file or a current
directory refers before and after the call keeps its type. -/
theorem directories_read_only
    (h : Run.Reachable (anyStep ninodes) (fun _ _ => True) (Start ninodes) s) :
    (∀ f, (s.ftable f).type = .inode → 0 < (s.ftable f).ref → (s.ftable f).writable = true →
      (s.disk (s.icache (s.ftable f).ip).inum).type ≠ T_DIR ∧
        ((s.icache (s.ftable f).ip).valid = true → (s.icache (s.ftable f).ip).dip.type ≠ T_DIR)) ∧
      ∀ a s', anyStep ninodes s a = some s' → ∀ i, Refers s i → Refers s' i →
        (s'.disk i).type = (s.disk i).type := by
  have hg : Guarded ninodes s :=
    h.invariant (fun s hs => hs.guarded) fun s a s' hi _ hs => hi.anyStep hs
  refine ⟨fun f hf _ hwr => ?_, fun a s' hs i hi hi' => ?_⟩
  · obtain ⟨i, hat⟩ := hg.rest.exact.at_file hf
    have href := (view_at.mp hat).1
    have hdisk := hg.readOnly f hf hwr _ (view_at.mpr ⟨href, rfl⟩)
    refine ⟨hdisk, fun hvalid => ?_⟩
    have hcopy := ((hg.coherent.entry (s.ftable f).ip).copy href hvalid).1
    rw [hcopy]
    exact hdisk
  · have hends := hg.ends hs
    exact hends.2.type_eq (hi.mem_cached hg.rest) (hi'.mem_cached hends.1.rest)

/-- A file is made and written, and the root directory is opened for reading: two files are open,
and the one that is open for writing is not a directory. -/
theorem directories_read_only_two : ∃ (s : Kernel) (f g : Fin NFILE),
    Run.Reachable (anyStep 200) (fun _ _ => True) (Start 200) s ∧
      ((s.ftable f).writable = true ∧ (s.ftable g).type = .inode ∧ f ≠ g) ∧
      (s.disk (s.icache (s.ftable f).ip).inum).type ≠ T_DIR := by
  have hstart : Run.Reachable (anyStep 200) (fun _ _ => True) (Start 200) boot :=
    .start start_boot
  obtain ⟨f, hf⟩ : ∃ f : Fin NFILE, f = ⟨0, by decide⟩ := ⟨_, rfl⟩
  obtain ⟨g, hg⟩ : ∃ g : Fin NFILE, g = ⟨1, by decide⟩ := ⟨_, rfl⟩
  obtain ⟨s, hs, hq⟩ := hstart.exists_of_exec ([(0, .fs (.call (.open (some [47, 97]) 0x202))),
      (0, .file (.write none 0 0 (some [104, 105]))),
      (0, .fs (.call (.open (some [47]) 0)))] : List (Fin NPROC × AnyCall))
    (fun s : Kernel => decide (((s.ftable f).writable = true ∧ (s.ftable g).type = .inode ∧ f ≠ g) ∧
      (s.ftable f).type = .inode ∧ 0 < (s.ftable f).ref)) (by subst hf hg; decide +kernel)
  obtain ⟨hfiles, htype, href⟩ := of_decide_eq_true hq
  exact ⟨s, f, g, hs, hfiles, ((directories_read_only hs).1 f htype href hfiles.1).1⟩

end Xv6.Names
