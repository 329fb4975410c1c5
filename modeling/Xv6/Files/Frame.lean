import Xv6.Files.Calls

/-!
# What calls leave alone

A call changes neither the type nor the inode of a file that is open before and after it, nor the
inode of an entry in use, nor the lock of `flock`. `open`, `dup`, `pipe`, `fork` and `wait` only
add descriptors, and `close` and `exit` only take descriptors from their caller.
-/

namespace Xv6.Files

open Function Option

open Xv6.Names (NFILE NOFILE NPROC NINODE FdType)

variable {s s' s'' : State} {x : Fin NFILE → ℕ} {y : Fin NINODE → ℕ} {f g : Fin NFILE}
  {e : Fin NINODE} {p q np : Fin NPROC} {fd : Fin NOFILE}

/-- Only descriptors are added, files in `F` are still the same files, and entries in `E` the same
inodes. -/
structure Frame (F : Fin NFILE → Prop) (E : Fin NINODE → Prop) (s s' : State) : Prop where
  ofile : ∀ p fd f, (s.proc p).ofile fd = some f → (s'.proc p).ofile fd = some f
  who : ∀ p, (s'.proc p).status = (s.proc p).status ∧ (s'.proc p).pid = (s.proc p).pid
  nextpid : s'.nextpid = s.nextpid
  file : ∀ f, F f → (s'.file f).type = (s.file f).type ∧ (s'.file f).ip = (s.file f).ip
  inum : ∀ e, E e → (s'.entry e).inum = (s.entry e).inum
  flock : ∀ e, (s'.entry e).flock = (s.entry e).flock

section Frame

variable {F : Fin NFILE → Prop} {E : Fin NINODE → Prop}

theorem Frame.refl (s : State) : Frame F E s s :=
  ⟨fun _ _ _ h => h, fun _ => ⟨rfl, rfl⟩, rfl, fun _ _ => ⟨rfl, rfl⟩, fun _ _ => rfl, fun _ => rfl⟩

theorem Frame.trans (h : Frame F E s s') (h' : Frame F E s' s'') : Frame F E s s'' where
  ofile p fd f hf := h'.ofile p fd f (h.ofile p fd f hf)
  who p := ⟨(h'.who p).1.trans (h.who p).1, (h'.who p).2.trans (h.who p).2⟩
  nextpid := h'.nextpid.trans h.nextpid
  file f hf := ⟨(h'.file f hf).1.trans (h.file f hf).1, (h'.file f hf).2.trans (h.file f hf).2⟩
  inum e he := (h'.inum e he).trans (h.inum e he)
  flock e := (h'.flock e).trans (h.flock e)

theorem Frame.setFile {z : File} (hz : F f → z.type = (s.file f).type ∧ z.ip = (s.file f).ip) :
    Frame F E s (s.setFile f z) where
  ofile _ _ _ h := h
  who _ := ⟨rfl, rfl⟩
  nextpid := rfl
  file g hg := by
    rcases eq_or_ne g f with rfl | hne
    · simp only [State.setFile, update_self]
      exact hz hg
    · simp only [State.setFile, update_of_ne hne, and_self]
  inum _ _ := rfl
  flock _ := rfl

theorem Frame.setEntry {z : Entry} (hz : E e → z.inum = (s.entry e).inum)
    (hl : z.flock = (s.entry e).flock) : Frame F E s (s.setEntry e z) where
  ofile _ _ _ h := h
  who _ := ⟨rfl, rfl⟩
  nextpid := rfl
  file _ _ := ⟨rfl, rfl⟩
  inum e' he' := by
    rcases eq_or_ne e' e with rfl | hne
    · simp only [State.setEntry, update_self]
      exact hz he'
    · simp only [State.setEntry, update_of_ne hne]
  flock e' := by
    rcases eq_or_ne e' e with rfl | hne
    · simp only [State.setEntry, update_self]
      exact hl
    · simp only [State.setEntry, update_of_ne hne]

theorem Frame.setFd (hnone : (s.proc p).ofile fd = none) (o : Option (Fin NFILE)) :
    Frame F E s (s.setFd p fd o) where
  ofile q fd' g hg := by
    rcases eq_or_ne q p with rfl | hq
    · rw [proc_setFd_self]
      rcases eq_or_ne fd' fd with rfl | hfd
      · exact nomatch hnone.symm.trans hg
      · exact (update_of_ne hfd ..).trans hg
    · rw [proc_setFd_of_ne s hq]
      exact hg
  who q := by
    rcases eq_or_ne q p with rfl | hq
    · rw [proc_setFd_self]
      exact ⟨rfl, rfl⟩
    · rw [proc_setFd_of_ne s hq]
      exact ⟨rfl, rfl⟩
  nextpid := rfl
  file _ _ := ⟨rfl, rfl⟩
  inum _ _ := rfl
  flock _ := rfl

theorem Frame.iput (s : State) (e : Fin NINODE) : Frame F E s (iput s e) :=
  .setEntry (fun _ => rfl) rfl

theorem Frame.drops (hd : Drops s s') (hsame : ∀ g, g ≠ f → s'.file g = s.file g) (hf : ¬F f) :
    Frame F E s s' where
  ofile _ _ _ h := by
    rw [hd.proc]
    exact h
  who _ := by
    rw [hd.proc]
    exact ⟨rfl, rfl⟩
  nextpid := hd.nextpid
  file g hg := by
    rw [hsame g fun he => hf (he ▸ hg)]
    exact ⟨rfl, rfl⟩
  inum e _ := hd.inum e
  flock := hd.flock

theorem Frame.filealloc {r : Fin NFILE × State} (hr : filealloc s = some r) : Frame F E s r.2 := by
  obtain ⟨f, -, rfl⟩ := map_eq_some_iff.mp hr
  exact .setFile fun _ => ⟨rfl, rfl⟩

theorem Frame.fdalloc {r : Fin NOFILE × State} (hr : fdalloc s p f = some r) : Frame F E s r.2 := by
  obtain ⟨fd, hfd, rfl⟩ := map_eq_some_iff.mp hr
  exact .setFd (by simpa using List.find?_some hfd) _

theorem Frame.filedup (hs : filedup s f = some s') : Frame F E s s' := by
  unfold Files.filedup at hs
  split at hs
  case isTrue => cases hs
  case isFalse =>
    cases hs
    exact .setFile fun _ => ⟨rfl, rfl⟩

theorem Frame.iget (hE : ∀ e, E e → (s.entry e).ref ≠ 0) {inum : ℕ} {e₀ : Fin NINODE}
    {r : Fin NINODE × State} (hr : iget s inum e₀ = some r) :
    Frame F E s r.2 ∧ r.2.file = s.file := by
  unfold Files.iget at hr
  split at hr
  case h_1 =>
    cases hr
    exact ⟨.setEntry (fun _ => rfl) rfl, rfl⟩
  case h_2 =>
  split at hr
  case isTrue h0 =>
    cases hr
    exact ⟨.setEntry (fun he => absurd h0 (hE _ he)) rfl, rfl⟩
  case isFalse => cases hr

theorem Frame.openFile (h : Inv s x (y + one e))
    (hF : ∀ f, F f → (s.file f).ref ≠ 0) {readable writable : Bool}
    (hs : openFile s p e readable writable = some s') : Frame F E s s' := by
  unfold Files.openFile at hs
  split at hs
  case h_1 =>
    cases hs
    exact .iput s e
  case h_2 f s₁ hf =>
  obtain ⟨h₁, h0, -⟩ := h.filealloc hf
  have hnot : ¬F f := fun hc => hF f hc h0
  have hframe₁ : Frame F E s s₁ := .filealloc hf
  split at hs
  case h_1 =>
    obtain ⟨s₂, hclose, -, hd, hsame⟩ := h₁.fileclose
    rw [hclose] at hs
    cases hs
    exact hframe₁.trans ((Frame.drops hd hsame hnot).trans (.iput s₂ e))
  case h_2 fd s₂ hfd =>
    cases hs
    exact (hframe₁.trans (.fdalloc hfd)).trans (.setFile fun hc => absurd hc hnot)

theorem Frame.sysOpen (h : Inv s x y)
    (hF : ∀ f, F f → (s.file f).ref ≠ 0) (hE : ∀ e, E e → (s.entry e).ref ≠ 0) {l : Lookup}
    {readable writable : Bool} (hs : sysOpen s p l readable writable = some s') :
    Frame F E s s' := by
  cases l with
  | fails =>
    cases hs
    exact .refl s
  | refused inum e =>
    obtain ⟨r, hr, rfl⟩ := map_eq_some_iff.mp hs
    exact (Frame.iget hE hr).1.trans (.iput r.2 r.1)
  | finds inum e =>
    obtain ⟨r, hr, hs⟩ := bind_eq_some_iff.mp hs
    obtain ⟨hframe, hfile⟩ := Frame.iget (F := F) hE hr
    exact hframe.trans (.openFile (h.iget hr) (by rw [hfile]; exact hF) hs)

theorem Frame.sysDup (hs : sysDup s p fd = some s') : Frame F E s s' := by
  unfold Files.sysDup at hs
  split at hs
  case h_1 =>
    cases hs
    exact .refl s
  case h_2 f hf =>
  split at hs
  case h_1 =>
    cases hs
    exact .refl s
  case h_2 fd' s₁ hfd => exact (Frame.fdalloc hfd).trans (.filedup hs)

theorem Frame.makePipe {f₀ f₁ : Fin NFILE} (h₀ : ¬F f₀) (h₁ : ¬F f₁) :
    Frame F E s (makePipe s f₀ f₁) where
  ofile _ _ _ h := h
  who _ := ⟨rfl, rfl⟩
  nextpid := rfl
  file g hg := by
    have hg₀ : g ≠ f₀ := fun he => h₀ (he ▸ hg)
    have hg₁ : g ≠ f₁ := fun he => h₁ (he ▸ hg)
    rw [file_makePipe_of_ne s hg₀ hg₁]
    exact ⟨rfl, rfl⟩
  inum _ _ := rfl
  flock _ := rfl

theorem Frame.fileclose_two (h : Inv s (x + one g + one f) y) (hf : ¬F f) (hg : ¬F g)
    (hs : ((fileclose s f).bind fun s₁ => fileclose s₁ g) = some s') : Frame F E s s' := by
  obtain ⟨s₁, hclose₁, h₁, hd₁, hsame₁⟩ := h.fileclose
  obtain ⟨s₂, hclose₂, -, hd₂, hsame₂⟩ := h₁.fileclose
  rw [hclose₁, bind_some, hclose₂] at hs
  cases hs
  exact (Frame.drops hd₁ hsame₁ hf).trans (.drops hd₂ hsame₂ hg)

theorem Frame.pipealloc (h : Inv s x y) (hF : ∀ f, F f → (s.file f).ref ≠ 0) {kalloc : Bool}
    {r : Option (Fin NFILE × Fin NFILE) × State} (hr : pipealloc s kalloc = some r) :
    Frame F E s r.2 ∧ ∀ rf wf, r.1 = some (rf, wf) → ¬F rf ∧ ¬F wf := by
  unfold Files.pipealloc at hr
  split at hr
  case h_1 =>
    cases hr
    exact ⟨.refl s, nofun⟩
  case h_2 f₀ s₁ hf₀ =>
  obtain ⟨h₁, h0₀, hs₁⟩ := h.filealloc hf₀
  dsimp only at h₁ h0₀ hs₁
  have hnot₀ : ¬F f₀ := fun hc => hF f₀ hc h0₀
  have hframe₁ : Frame F E s s₁ := .filealloc hf₀
  split at hr
  case h_1 =>
    obtain ⟨s₂, hclose, -, hd, hsame⟩ := h₁.fileclose
    rw [hclose] at hr
    cases hr
    exact ⟨hframe₁.trans (.drops hd hsame hnot₀), nofun⟩
  case h_2 f₁ s₂ hf₁ =>
  obtain ⟨h₂, h0₁, -⟩ := h₁.filealloc hf₁
  dsimp only at h₂ h0₁
  have hnot₁ : ¬F f₁ := by
    intro hc
    rcases eq_or_ne f₁ f₀ with rfl | hne
    · exact hnot₀ hc
    · refine hF f₁ hc ?_
      rw [hs₁] at h0₁
      exact (congrArg File.ref (update_of_ne hne ..)).symm.trans h0₁
  have hframe₂ : Frame F E s s₂ := hframe₁.trans (.filealloc hf₁)
  rw [show x + one f₀ + one f₁ = x + one f₁ + one f₀ from add_right_comm x _ _] at h₂
  split at hr
  case isTrue =>
    cases hr
    refine ⟨hframe₂.trans (.makePipe hnot₀ hnot₁), fun rf wf he => ?_⟩
    cases he
    exact ⟨hnot₀, hnot₁⟩
  case isFalse =>
  obtain ⟨s₃, hclose, rfl⟩ := map_eq_some_iff.mp (map_bind.trans hr)
  exact ⟨hframe₂.trans (.fileclose_two h₂ hnot₀ hnot₁ hclose), nofun⟩

theorem Frame.pipeFds (h : Inv s (x + one g + one f) y) (hp : (s.proc p).status = .live)
    (hf : ¬F f) (hg : ¬F g) (hs : pipeFds s p f g = some s') : Frame F E s s' := by
  unfold Files.pipeFds at hs
  split at hs
  case h_1 =>
    exact .fileclose_two h hf hg hs
  case h_2 fd₀ s₁ hfd₀ =>
  obtain ⟨h₁, hs₁, hnone⟩ := h.fdalloc hp hfd₀
  dsimp only at h₁ hs₁ hnone
  split at hs
  case h_1 =>
    have hp₁ : (s₁.proc p).status = .live := by
      rw [hs₁, status_setFd]
      exact hp
    have hfd : (s₁.proc p).ofile fd₀ = some f := by
      rw [hs₁]
      simp only [State.setFd, State.setProc, update_self]
    have hclear := h₁.clearFd hp₁ hfd
    -- the descriptor is free again
    have hback : s₁.setFd p fd₀ none = s.setFd p fd₀ none := by
      rw [hs₁]
      simp only [State.setFd, State.setProc, update_self, update_idem]
    rw [hback] at hclear hs
    exact (Frame.setFd hnone none).trans (.fileclose_two hclear hf hg hs)
  case h_2 fd₁ s₂ hfd₁ =>
    cases hs
    exact (Frame.fdalloc hfd₀).trans (.fdalloc hfd₁)

theorem Frame.sysPipe (h : Inv s x y) (hp : (s.proc p).status = .live)
    (hF : ∀ f, F f → (s.file f).ref ≠ 0) {kalloc : Bool} (hs : sysPipe s p kalloc = some s') :
    Frame F E s s' := by
  obtain ⟨⟨r, s₁⟩, hr, hs⟩ := bind_eq_some_iff.mp hs
  obtain ⟨hframe, hnot⟩ := Frame.pipealloc (E := E) h hF hr
  obtain ⟨hproc, hcase⟩ := h.pipealloc hr
  cases r with
  | none =>
    cases hs
    exact hframe
  | some fg =>
    obtain ⟨hf, hg⟩ := hnot fg.1 fg.2 rfl
    exact hframe.trans (.pipeFds hcase (by rw [hproc]; exact hp) hf hg hs)

theorem Frame.copyFds : ∀ {fds : List (Fin NOFILE)} {s : State}, fds.Nodup →
    (∀ fd ∈ fds, (s.proc np).ofile fd = none) → copyFds p np fds s = some s' → Frame F E s s' := by
  intro fds
  induction fds with
  | nil =>
    intro s _ _ hs
    cases hs
    exact .refl _
  | cons fd fds ih =>
  intro s hnodup hnone hs
  obtain ⟨hfd, hnodup⟩ := List.nodup_cons.mp hnodup
  have htail : ∀ fd' ∈ fds, (s.proc np).ofile fd' = none := fun fd' hm =>
    hnone fd' (List.mem_cons_of_mem fd hm)
  rw [Files.copyFds] at hs
  split at hs
  case h_1 => exact ih hnodup htail hs
  case h_2 f hf =>
  obtain ⟨s₁, hdup, hs⟩ := bind_eq_some_iff.mp hs
  have hproc : s₁.proc = s.proc := by
    unfold Files.filedup at hdup
    split at hdup
    case isTrue => cases hdup
    case isFalse =>
      cases hdup
      rfl
  refine (Frame.filedup hdup).trans ((Frame.setFd ?_ (some f)).trans (ih hnodup ?_ hs))
  · rw [hproc]
    exact hnone fd List.mem_cons_self
  intro fd' hm
  have hne' : fd' ≠ fd := fun he => hfd (he ▸ hm)
  rw [proc_setFd_self]
  refine (update_of_ne hne' ..).trans ?_
  rw [hproc]
  exact htail fd' hm

end Frame

/-! ### The two kinds of calls -/

structure Grows (s s' : State) : Prop where
  ofile : ∀ p fd f, (s.proc p).ofile fd = some f → (s'.proc p).ofile fd = some f
  live : ∀ p, (s.proc p).status = .live → (s'.proc p).status = .live
  file : ∀ f, (s.file f).ref ≠ 0 →
    (s'.file f).type = (s.file f).type ∧ (s'.file f).ip = (s.file f).ip

/-- What a call of `q` that closes descriptors leaves alone. -/
structure Shrinks (q : Fin NPROC) (s s' : State) : Prop where
  other : ∀ p, p ≠ q → s'.proc p = s.proc p
  ofile : ∀ fd f, (s'.proc q).ofile fd = some f → (s.proc q).ofile fd = some f
  file : ∀ f, (s'.file f).ref ≠ 0 →
    (s'.file f).type = (s.file f).type ∧ (s'.file f).ip = (s.file f).ip

/-- What every call leaves alone, and which pids there are after it. -/
structure Steady (s s' : State) : Prop where
  inum : ∀ e, (s.entry e).ref ≠ 0 → (s'.entry e).inum = (s.entry e).inum
  flock : ∀ e, (s'.entry e).flock = (s.entry e).flock
  nextpid : s.nextpid ≤ s'.nextpid
  /-- Who exists has existed before with the same pid, or is the one with the new pid. -/
  live : ∃ np, ∀ p, (s'.proc p).status = .live →
    ((s.proc p).status = .live ∧ (s'.proc p).pid = (s.proc p).pid) ∨
      (p = np ∧ (s.proc p).status ≠ .live ∧ (s'.proc p).pid = s.nextpid ∧ s.nextpid < s'.nextpid)
  settled : (∀ p, (s.proc p).status ≠ .embryo) → ∀ p, (s'.proc p).status ≠ .embryo

theorem Frame.grows (h : Frame (fun f => (s.file f).ref ≠ 0) (fun e => (s.entry e).ref ≠ 0) s s') :
    Grows s s' ∧ Steady s s' :=
  ⟨⟨h.ofile, fun p hp => (h.who p).1.trans hp, h.file⟩,
    ⟨h.inum, h.flock, Nat.le_of_eq h.nextpid.symm,
      ⟨⟨0, by decide⟩, fun p hp => .inl ⟨(h.who p).1.symm.trans hp, (h.who p).2⟩⟩,
      fun hs p hp => hs p ((h.who p).1.symm.trans hp)⟩⟩

theorem Grows.fork (h : Inv s x y) (hp : (s.proc p).status = .live) {memory : Bool}
    (hs : fork s p memory = some s') : Grows s s' ∧ Steady s s' := by
  unfold Files.fork at hs
  split at hs
  case h_1 =>
    cases hs
    exact Frame.grows (.refl s)
  case h_2 np hfind =>
  have hnp : (s.proc np).status = .unused := by simpa using List.find?_some hfind
  have hne : p ≠ np := by
    rintro rfl
    exact nomatch hp.symm.trans hnp
  obtain ⟨hnone, -⟩ := h.dead np (.inl hnp)
  have hself := proc_allocproc_self s np
  have hother : ∀ q, q ≠ np → (allocproc s np).proc q = s.proc q :=
    fun q hq => proc_allocproc_of_ne s hq
  have hnotlive : ∀ q, (s.proc q).status = .live → q ≠ np := by
    rintro q hq rfl
    exact nomatch hq.symm.trans hnp
  dsimp only at hs
  split at hs
  case isTrue =>
    obtain ⟨s₁, hcopy, hs⟩ := bind_eq_some_iff.mp hs
    obtain ⟨e, -, rfl⟩ := map_eq_some_iff.mp hs
    have hframe : Frame (fun _ => True) (fun _ => True) (allocproc s np) s₁ :=
      .copyFds (List.nodup_finRange NOFILE) (fun fd _ => by rw [hself]; exact hnone fd) hcopy
    have hproc_self : ∀ z, ((idup s₁ e).setProc np z).proc np = z :=
      fun z => update_self ..
    have hproc_ne : ∀ z q, q ≠ np → ((idup s₁ e).setProc np z).proc q = s₁.proc q :=
      fun z q hq => update_of_ne hq ..
    have hwho : ∀ q, q ≠ np → (s₁.proc q).status = (s.proc q).status ∧
        (s₁.proc q).pid = (s.proc q).pid := fun q hq => by
      rw [← hother q hq]
      exact hframe.who q
    have hentry : Frame (fun _ => True) (fun _ => True) s₁ (idup s₁ e) :=
      .setEntry (fun _ => rfl) rfl
    refine ⟨⟨fun q fd f hf => ?_, fun q hq => ?_, fun f _ => hframe.file f trivial⟩,
      ⟨fun e' _ => (hentry.inum e' trivial).trans (hframe.inum e' trivial),
        fun e' => (hentry.flock e').trans (hframe.flock e'),
        (Nat.le_succ _).trans (Nat.le_of_eq hframe.nextpid.symm),
        ⟨np, fun q hq => ?_⟩, fun hset q => ?_⟩⟩
    · rcases eq_or_ne q np with rfl | hq
      · exact nomatch (hnone fd).symm.trans hf
      · rw [hproc_ne _ q hq]
        exact hframe.ofile q fd f (by rw [hother q hq]; exact hf)
    · rw [hproc_ne _ q (hnotlive q hq)]
      exact (hwho q (hnotlive q hq)).1.trans hq
    · rcases eq_or_ne q np with rfl | hqne
      · right
        refine ⟨rfl, by rw [hnp]; nofun, ?_, ?_⟩
        · rw [hproc_self]
          exact (hframe.who q).2.trans (by rw [hself])
        · exact (Nat.lt_succ_self _).trans_le (Nat.le_of_eq hframe.nextpid.symm)
      · rw [hproc_ne _ q hqne] at hq ⊢
        exact .inl ⟨(hwho q hqne).1.symm.trans hq, (hwho q hqne).2⟩
    · rcases eq_or_ne q np with rfl | hqne
      · rw [hproc_self]
        nofun
      · rw [hproc_ne _ q hqne, (hwho q hqne).1]
        exact hset q
  case isFalse =>
    cases hs
    have hproc_ne : ∀ z q, q ≠ np → ((allocproc s np).setProc np z).proc q = s.proc q :=
      fun z q hq => (update_of_ne hq ..).trans (hother q hq)
    have hproc_self : ∀ z, ((allocproc s np).setProc np z).proc np = z :=
      fun z => update_self ..
    refine ⟨⟨fun q fd f hf => ?_, fun q hq => ?_, fun f _ => ⟨rfl, rfl⟩⟩,
      ⟨fun _ _ => rfl, fun _ => rfl, Nat.le_succ _, ⟨np, fun q hq => ?_⟩, fun hset q => ?_⟩⟩
    · rcases eq_or_ne q np with rfl | hqne
      · exact nomatch (hnone fd).symm.trans hf
      · rw [hproc_ne _ q hqne]
        exact hf
    · rw [hproc_ne _ q (hnotlive q hq)]
      exact hq
    · rcases eq_or_ne q np with rfl | hqne
      · rw [hproc_self] at hq
        cases hq
      · rw [hproc_ne _ q hqne] at hq ⊢
        exact .inl ⟨hq, rfl⟩
    rcases eq_or_ne q np with rfl | hqne
    · rw [hproc_self]
      nofun
    · rw [hproc_ne _ q hqne]
      exact hset q

theorem Grows.wait (hs : wait s q = some s') : Grows s s' ∧ Steady s s' := by
  unfold Files.wait at hs
  split at hs
  case isFalse => cases hs
  case isTrue hz =>
  cases hs
  have hself : ∀ z, (s.setProc q z).proc q = z := fun z => update_self ..
  have hne : ∀ z p, p ≠ q → (s.setProc q z).proc p = s.proc p :=
    fun z p hp => update_of_ne hp ..
  refine ⟨⟨fun p fd f hf => ?_, fun p hp => ?_, fun f _ => ⟨rfl, rfl⟩⟩,
    ⟨fun _ _ => rfl, fun _ => rfl, Nat.le_refl _, ⟨q, fun p hp => ?_⟩, fun hset p => ?_⟩⟩
  · rcases eq_or_ne p q with rfl | hpq
    · rw [hself]
      exact hf
    · rw [hne _ p hpq]
      exact hf
  · rw [hne _ p (by rintro rfl; exact nomatch hp.symm.trans hz)]
    exact hp
  · rcases eq_or_ne p q with rfl | hpq
    · rw [hself] at hp
      cases hp
    · rw [hne _ p hpq] at hp ⊢
      exact .inl ⟨hp, rfl⟩
  rcases eq_or_ne p q with rfl | hpq
  · rw [hself]
    nofun
  · rw [hne _ p hpq]
    exact hset p

theorem Shrinks.close (h : Inv s x y) (hp : (s.proc p).status = .live)
    (hs : sysClose s p fd = some s') : Shrinks p s s' ∧ Steady s s' := by
  unfold Files.sysClose at hs
  split at hs
  case h_1 =>
    cases hs
    exact ⟨⟨fun _ _ => rfl, fun _ _ h => h, fun _ _ => ⟨rfl, rfl⟩⟩, (Frame.grows (.refl s)).2⟩
  case h_2 f hf =>
  obtain ⟨s₁, hclose, -, hd, -⟩ := (h.clearFd hp hf).fileclose
  rw [hclose] at hs
  cases hs
  have hwho : ∀ q, (s'.proc q).status = (s.proc q).status ∧ (s'.proc q).pid = (s.proc q).pid := by
    intro q
    rw [hd.proc]
    rcases eq_or_ne q p with rfl | hq
    · rw [proc_setFd_self]
      exact ⟨rfl, rfl⟩
    · rw [proc_setFd_of_ne s hq]
      exact ⟨rfl, rfl⟩
  refine ⟨⟨fun q hq => ?_, fun fd' g hg => ?_, fun g hg => (hd.file g).2 hg⟩,
    ⟨fun e _ => hd.inum e, hd.flock, Nat.le_of_eq hd.nextpid.symm,
      ⟨p, fun q hq => .inl ⟨(hwho q).1.symm.trans hq, (hwho q).2⟩⟩,
      fun hset q hq => hset q ((hwho q).1.symm.trans hq)⟩⟩
  · rw [hd.proc]
    exact proc_setFd_of_ne s hq
  rw [hd.proc, proc_setFd_self] at hg
  rcases eq_or_ne fd' fd with rfl | hne
  · simp only [update_self] at hg
    cases hg
  · simpa only [update_of_ne hne] using hg

theorem drops_closeFds : ∀ {fds : List (Fin NOFILE)} {s : State}, Inv s x y →
    (s.proc p).status = .live → closeFds p fds s = some s' →
    Drops s { s' with proc := s.proc } := by
  intro fds
  induction fds with
  | nil =>
    intro s h hp hs
    cases hs
    exact .refl _
  | cons fd fds ih =>
  intro s h hp hs
  cases hf : (s.proc p).ofile fd with
  | none =>
    rw [Files.closeFds, hf] at hs
    exact ih h hp hs
  | some f =>
  obtain ⟨s₁, hs₁, h₁, hd⟩ := h.closeFds_cons hp hf hs
  have hlive : (s₁.proc p).status = .live := by
    rw [hd.proc, status_setFd]
    exact hp
  have hrest := ih h₁ hlive hs₁
  refine ⟨rfl, hrest.nextpid.trans hd.nextpid, fun g => ?_,
    fun e => (hrest.inum e).trans (hd.inum e), fun e => (hrest.flock e).trans (hd.flock e)⟩
  obtain ⟨hle', hsame'⟩ := hrest.file g
  obtain ⟨hle, hsame⟩ := hd.file g
  refine ⟨hle'.trans hle, fun hne => ?_⟩
  have hne₁ : (s₁.file g).ref ≠ 0 := fun h0 => hne (Nat.le_zero.mp (h0 ▸ hle'))
  exact ⟨(hsame' hne).1.trans (hsame hne₁).1, (hsame' hne).2.trans (hsame hne₁).2⟩

theorem Shrinks.exit (h : Inv s x y) (hp : (s.proc p).status = .live) (hs : exit s p = some s') :
    Shrinks p s s' ∧ Steady s s' := by
  unfold Files.exit at hs
  split at hs
  case isTrue => cases hs
  case isFalse =>
  obtain ⟨s₁, hclose, hs⟩ := bind_eq_some_iff.mp hs
  obtain ⟨-, -, hsub, -, -, -, hother⟩ := Inv.closeFds h hp hclose
  have hd := drops_closeFds h hp hclose
  obtain ⟨e, he, rfl⟩ := map_eq_some_iff.mp hs
  have hput : Frame (fun _ => True) (fun _ => True) s₁ (iput s₁ e) := .iput s₁ e
  have hself : ∀ z, ((iput s₁ e).setProc p z).proc p = z := fun z => update_self ..
  have hne : ∀ z q, q ≠ p → ((iput s₁ e).setProc p z).proc q = s.proc q :=
    fun z q hq => (update_of_ne hq ..).trans (hother q hq)
  refine ⟨⟨fun q hq => hne _ q hq, fun fd f hf => ?_, fun f hf => (hd.file f).2 hf⟩,
    ⟨fun e' _ => (hput.inum e' trivial).trans (hd.inum e'),
      fun e' => (hput.flock e').trans (hd.flock e'), Nat.le_of_eq hd.nextpid.symm,
      ⟨p, fun q hq => ?_⟩, fun hset q => ?_⟩⟩
  · rw [hself] at hf
    exact hsub fd f hf
  · rcases eq_or_ne q p with rfl | hqp
    · rw [hself] at hq
      cases hq
    · rw [hne _ q hqp] at hq ⊢
      exact .inl ⟨hq, rfl⟩
  rcases eq_or_ne q p with rfl | hqp
  · rw [hself]
    nofun
  · rw [hne _ q hqp]
    exact hset q

def Call.Closes : Call → Prop
  | .close _ _ => True
  | .exit _ => True
  | _ => False

theorem grows_or_shrinks {c : Call} (h : Inv s 0 0) (hs : step s c = some s') :
    (Grows s s' ∨ c.Closes ∧ Shrinks c.caller s s') ∧ Steady s s' := by
  unfold step at hs
  split at hs
  case isFalse => cases hs
  case isTrue hp =>
  cases c with
  | «open» p l r w =>
    obtain ⟨hg, hst⟩ := Frame.grows (.sysOpen h (fun _ hf => hf) (fun _ he => he) hs)
    exact ⟨.inl hg, hst⟩
  | dup p fd =>
    obtain ⟨hg, hst⟩ := Frame.grows (.sysDup hs)
    exact ⟨.inl hg, hst⟩
  | close p fd =>
    obtain ⟨hg, hst⟩ := Shrinks.close h hp hs
    exact ⟨.inr ⟨trivial, hg⟩, hst⟩
  | pipe p kalloc =>
    obtain ⟨hg, hst⟩ := Frame.grows (.sysPipe h hp (fun _ hf => hf) hs)
    exact ⟨.inl hg, hst⟩
  | fork p memory =>
    obtain ⟨hg, hst⟩ := Grows.fork h hp hs
    exact ⟨.inl hg, hst⟩
  | exit p =>
    obtain ⟨hg, hst⟩ := Shrinks.exit h hp hs
    exact ⟨.inr ⟨trivial, hg⟩, hst⟩
  | wait p q =>
    obtain ⟨hg, hst⟩ := Grows.wait hs
    exact ⟨.inl hg, hst⟩

/-! ### Pids -/

structure PidsOk (s : State) : Prop where
  settled : ∀ p, (s.proc p).status ≠ .embryo
  lt : ∀ p, (s.proc p).status = .live → (s.proc p).pid < s.nextpid
  inj : ∀ p q, (s.proc p).status = .live → (s.proc q).status = .live →
    (s.proc p).pid = (s.proc q).pid → p = q

theorem PidsOk.steady (h : PidsOk s) (hst : Steady s s') : PidsOk s' := by
  obtain ⟨np, hlive⟩ := hst.live
  refine ⟨hst.settled h.settled, fun p hp => ?_, fun p q hp hq heq => ?_⟩
  · rcases hlive p hp with ⟨hold, hpid⟩ | ⟨-, -, hpid, hlt⟩
    · rw [hpid]
      exact (h.lt p hold).trans_le hst.nextpid
    · rw [hpid]
      exact hlt
  rcases hlive p hp with ⟨hold, hpid⟩ | ⟨rfl, -, hpid, -⟩ <;>
    rcases hlive q hq with ⟨hold', hpid'⟩ | ⟨hq', -, hpid', -⟩
  · exact h.inj p q hold hold' (by rw [← hpid, ← hpid', heq])
  · have hlt := h.lt p hold
    rw [← hpid, heq, hpid'] at hlt
    exact absurd hlt (Nat.lt_irrefl _)
  · have hlt := h.lt q hold'
    rw [← hpid', ← heq, hpid] at hlt
    exact absurd hlt (Nat.lt_irrefl _)
  · exact hq'.symm

theorem Steady.pid (hst : Steady s s') (hp : (s.proc p).status = .live)
    (hp' : (s'.proc p).status = .live) : (s'.proc p).pid = (s.proc p).pid := by
  obtain ⟨np, hlive⟩ := hst.live
  rcases hlive p hp' with ⟨-, hpid⟩ | ⟨-, hnot, -⟩
  · exact hpid
  · exact absurd hp hnot

theorem pidsOk_boot : PidsOk boot := by
  refine ⟨by decide +kernel, by decide +kernel, ?_⟩
  have hzero : ∀ p, (boot.proc p).status = .live → p = 0 := by decide +kernel
  intro p q hp hq _
  rw [hzero p hp, hzero q hq]

/-! ### Isolation -/

/-- **A process's descriptors are its own.** No call closes or redirects a descriptor of a process
other than its caller, and the entry it stands for stays the same open file. -/
theorem descriptors_isolated {c : Call}
    (h : Run.Reachable step (fun _ _ => True) (· = boot) s) (hs : step s c = some s')
    (hp : p ≠ c.caller) (hfd : (s.proc p).ofile fd = some f) :
    (s'.proc p).ofile fd = some f ∧ 0 < (s'.file f).ref ∧
      (s'.file f).type = (s.file f).type ∧ (s'.file f).ip = (s.file f).ip := by
  have hinv := Inv.reachable h
  have hinv' := Inv.reachable (h.step trivial hs)
  obtain ⟨hg | ⟨-, hsh⟩, -⟩ := grows_or_shrinks hinv hs
  · have hfd' := hg.ofile p fd f hfd
    exact ⟨hfd', hinv'.ref_pos hfd', hg.file f (Nat.ne_of_gt (hinv.ref_pos hfd))⟩
  · -- the entry is in use afterwards, since the descriptor is still there
    have hfd' : (s'.proc p).ofile fd = some f := by rw [hsh.other p hp, hfd]
    have hpos := hinv'.ref_pos hfd'
    exact ⟨hfd', hpos, hsh.file f (Nat.ne_of_gt hpos)⟩

/-- The parent closes an end of a pipe that its child has inherited. -/
theorem descriptors_isolated_child : ∃ s s', step s (.close 0 0) = some s' ∧
    (s'.proc 1).ofile 0 = some 0 ∧ 0 < (s'.file 0).ref := by
  have hstart : Run.Reachable step (fun _ _ => True) (· = boot) boot := .start rfl
  obtain ⟨s, hr, hq⟩ := hstart.exists_of_exec [.pipe 0 true, .fork 0 true] (fun s =>
    (s.proc 1).ofile 0 = some 0 ∧ (step s (.close 0 0)).isSome) (by decide +kernel)
  obtain ⟨hfd, hsome⟩ := of_decide_eq_true hq
  obtain ⟨s', hs⟩ := Option.isSome_iff_exists.mp hsome
  have hkept := descriptors_isolated hr hs (by decide) hfd
  exact ⟨s, s', hs, hkept.1, hkept.2.1⟩

end Xv6.Files
