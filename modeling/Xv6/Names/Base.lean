import Xv6.Names.Link
import Xv6.Names.Procs
import Xv6.Names.Slots
import Xv6.Names.Unlink

/-!
# What every run keeps

Whatever the calls and their paths, some things hold between calls: allocated inodes have numbers in
range, inodes without links are referenced and referenced inodes are allocated, and directories are
well formed. No event breaks them, so a state between calls leads to a state between calls.
-/

namespace Xv6.Names

open Hoare Function

/-! ### What a call does

From a state between calls, every call either returns, after events that its paths account for, or
stops. -/

theorem via_call {v : View} {ninodes : ℕ} {p : Fin NPROC} {c : Call} (hN : ninodes ≤ 65536)
    (hv : Idle v) (hp : (v.procs p).live = true)
    (hnew : ∀ np ∈ c.newProc, (v.procs np).live = false) :
    Via Shows (c.run ninodes p) (Leaves ninodes v p c) (Err v p c) v := by
  cases c with
  | «open» path omode => exact via_sysOpen hv hp hN
  | close fd => exact via_sysClose hv hp
  | link old new => exact via_sysLink hv hp
  | unlink path => exact via_sysUnlink hv hp
  | mkdir path => exact via_sysMkdir hv hp hN
  | mknod path major minor => exact via_sysMknod hv hp hN
  | chdir path => exact via_sysChdir hv hp
  | fork np => exact via_fork hv hp hnew
  | exit => exact via_exit hv hp

theorem call_cases {s : Kernel} {ninodes : ℕ} {p : Fin NPROC} {c : Call} (hN : ninodes ≤ 65536)
    (hc : Coherent s) (hv : Idle s.view) (hen : Enabled s p c) :
    (∃ r s', c.run ninodes p s = .ok (r, s') ∧ Coherent s' ∧ Leaves ninodes s.view p c r s'.view) ∨
      ∃ e, c.run ninodes p s = .error e ∧ Err s.view p c e := by
  have h := via_call hN hv hen.1 hen.2 s ⟨hc, rfl⟩
  cases hrun : c.run ninodes p s with
  | ok x =>
    obtain ⟨r, s'⟩ := x
    obtain ⟨w, ⟨hc', rfl⟩, hdone⟩ := h.of_ok hrun
    exact .inl ⟨r, s', rfl, hc', hdone⟩
  | error e => exact .inr ⟨e, rfl, h.of_error hrun⟩

/-! ### The invariant -/

variable {ninodes : ℕ} {n n' : Ns} {t : ℕ → Dinode} {c : Finset ℕ} {d e i : ℕ} {X : ℕ → Prop}

structure InodeOk (ninodes i : ℕ) (x : Dinode) : Prop where
  bound : x.type ≠ 0 → 0 < i ∧ i < ninodes
  dir : x.type = T_DIR → DirOk i x.data

/-- The invariant of all runs, but for inodes in `X` that may have lost their links just now. -/
structure BaseUpTo (ninodes : ℕ) (X : ℕ → Prop) (t : ℕ → Dinode) (c : Finset ℕ) : Prop where
  inode : ∀ i, InodeOk ninodes i (t i)
  kept : ∀ i, Unlinked t i → i ∈ c ∨ X i
  live : ∀ i ∈ c, (t i).type ≠ 0

def Base (ninodes : ℕ) (n : Ns) : Prop := BaseUpTo ninodes (fun _ => False) n.table n.refs

theorem inodeOk_freed (ninodes i : ℕ) (x : Dinode) : InodeOk ninodes i x.freed :=
  ⟨fun h => absurd rfl h, fun h => absurd h (by decide : (0 : Int16) ≠ T_DIR)⟩

theorem BaseUpTo.reaped (h : BaseUpTo ninodes (fun j => X j ∨ j = i) t c) :
    BaseUpTo ninodes X (reap c i t) c := by
  by_cases hr : i ∉ c ∧ Unlinked t i
  · rw [reap, if_pos hr]
    have hself : update t i (t i).freed i = (t i).freed := update_self ..
    have hother : ∀ j, j ≠ i → update t i (t i).freed j = t j :=
      fun j hj => update_of_ne hj ..
    refine ⟨fun j => ?_, fun j hj => ?_, fun j hj => ?_⟩
    · rcases eq_or_ne j i with rfl | hne
      · rw [hself]
        exact inodeOk_freed ninodes j (t j)
      · rw [hother j hne]
        exact h.inode j
    · rcases eq_or_ne j i with rfl | hne
      · rw [Unlinked, hself] at hj
        exact absurd rfl hj.1
      · rw [Unlinked, hother j hne] at hj
        exact (h.kept j hj).imp id fun hx => hx.resolve_right hne
    have hne : j ≠ i := by
      rintro rfl
      exact hr.1 hj
    rw [hother j hne]
    exact h.live j hj
  · rw [reap, if_neg hr]
    refine ⟨h.inode, fun j hj => ?_, h.live⟩
    rcases h.kept j hj with hc | hx | rfl
    · exact .inl hc
    · exact .inr hx
    · exact .inl (not_not.mp fun hc => hr ⟨hc, hj⟩)

theorem BaseUpTo.update {x y : Dinode} (h : BaseUpTo ninodes (fun _ => False) t c)
    (hx : InodeOk ninodes i x) (hy : InodeOk ninodes d y) (hxc : i ∈ c → x.type ≠ 0)
    (hyc : d ∈ c → y.type ≠ 0) : BaseUpTo ninodes (fun j => (False ∨ j = i) ∨ j = d)
      (update (update t i x) d y) c where
  inode j := by
    rcases eq_or_ne j d with rfl | hd
    · rwa [update_self]
    rw [update_of_ne hd]
    rcases eq_or_ne j i with rfl | hi
    · rwa [update_self]
    · rw [update_of_ne hi]
      exact h.inode j
  kept j hj := by
    rcases eq_or_ne j d with rfl | hd
    · exact .inr (.inr rfl)
    rcases eq_or_ne j i with rfl | hi
    · exact .inr (.inl (.inr rfl))
    rw [Unlinked, update_of_ne hd, update_of_ne hi] at hj
    exact (h.kept j hj).imp id False.elim
  live j hj := by
    rcases eq_or_ne j d with rfl | hd
    · rw [update_self]
      exact hyc hj
    rw [update_of_ne hd]
    rcases eq_or_ne j i with rfl | hi
    · rw [update_self]
      exact hxc hj
    · rw [update_of_ne hi]
      exact h.live j hj

theorem InodeOk.addEntry {x : Dinode} {name : List UInt8} (hN : ninodes ≤ 65536)
    (hx : InodeOk ninodes d x) (hadd : x.type = T_DIR ∧ find x.data name = none ∧
      DESIZE * firstFree x.data + DESIZE ≤ MAXFILE * BSIZE) (hi : i < ninodes) (hid : i ≠ d) :
    InodeOk ninodes d (x.addEntry name i) where
  bound := hx.bound
  dir hd := by
    have hpos := (hx.bound (hadd.1 ▸ by decide)).1
    exact (hx.dir hd).add (by omega) hadd.2.1 hadd.2.2 (by omega) hid

theorem InodeOk.setNlink {x : Dinode} (hx : InodeOk ninodes i x) (k : Int16) :
    InodeOk ninodes i { x with nlink := k } := ⟨hx.bound, hx.dir⟩

theorem inodeOk_newInode {type major minor : Int16} (hN : ninodes ≤ 65536) (hi : 0 < i)
    (hlt : i < ninodes) (hd : 0 < d) (hdlt : d < ninodes) :
    InodeOk ninodes i (newInode i d type major minor) := by
  refine ⟨fun _ => ⟨hi, hlt⟩, fun ht => ?_⟩
  have ht' : type = T_DIR := ht
  rw [newInode, if_pos ht']
  exact .new (by omega) (by omega) (by omega) (by omega)

theorem BaseUpTo.make {name : List UInt8} {type major minor : Int16} (hN : ninodes ≤ 65536)
    (h : BaseUpTo ninodes (fun _ => False) t c) (hadd : CanAdd t d name) (hpos : 0 < i)
    (hlt : i < ninodes) (hfree : (t i).type = 0) (htype : type ≠ 0) :
    BaseUpTo ninodes (fun _ => False) (reap c d (makeTable t d name i type major minor)) c := by
  have hd := h.inode d
  have hd₀ := hd.bound (ne_zero_of_dir hadd.dir)
  have hne : i ≠ d := by
    rintro rfl
    exact ne_zero_of_dir hadd.dir hfree
  have hparent : InodeOk ninodes d (parentInode (t d) type) := by
    unfold parentInode
    split
    · exact hd.setNlink _
    · exact hd
  have hdir : InodeOk ninodes d ((parentInode (t d) type).addEntry name i) := by
    refine hparent.addEntry hN ?_ hlt hne
    rw [type_parentInode, data_parentInode]
    exact ⟨hadd.dir, hadd.new, hadd.fits⟩
  have hdirtype : ((parentInode (t d) type).addEntry name i).type ≠ 0 := by
    change (parentInode (t d) type).type ≠ 0
    rw [type_parentInode]
    exact ne_zero_of_dir hadd.dir
  have hnode : InodeOk ninodes i (newInode i d type major minor) :=
    inodeOk_newInode hN hpos hlt hd₀.1 hd₀.2
  have hboth := h.update hnode hdir (fun _ => htype) fun _ => hdirtype
  refine BaseUpTo.reaped ⟨hboth.inode, fun j hj => ?_, hboth.live⟩
  rcases hboth.kept j hj with hc | (hf | rfl) | rfl
  · exact .inl hc
  · exact hf.elim
  · have hone : (1 : Int16) ≠ 0 := by decide
    rw [Unlinked, makeTable_eq, update_of_ne hne, update_self] at hj
    exact absurd hj.2 hone
  · exact .inr (.inr rfl)

theorem BaseUpTo.link {name : List UInt8} (hN : ninodes ≤ 65536)
    (h : BaseUpTo ninodes (fun _ => False) t c) (hadd : CanAdd t d name) (h₀ : (t i).type ≠ 0)
    (hnd : (t i).type ≠ T_DIR) :
    BaseUpTo ninodes (fun _ => False) (reap c i (reap c d (linkTable t d name i))) c := by
  have hne : i ≠ d := by
    rintro rfl
    exact hnd hadd.dir
  have hdir : InodeOk ninodes d ((t d).addEntry name i) :=
    (h.inode d).addEntry hN ⟨hadd.dir, hadd.new, hadd.fits⟩ ((h.inode i).bound h₀).2 hne
  exact (h.update ((h.inode i).setNlink ((t i).nlink + 1)) hdir (fun _ => h₀)
    fun _ => ne_zero_of_dir hadd.dir).reaped.reaped

theorem BaseUpTo.unlink (h : BaseUpTo ninodes (fun _ => False) t c) (hrem : CanRemove t d e i) :
    BaseUpTo ninodes (fun _ => False) (reap c i (reap c d (unlinkTable t d e i))) c := by
  have hd := (h.inode d).dir hrem.dir
  have hd₀ := (h.inode d).bound (ne_zero_of_dir hrem.dir)
  have h₂ := hd.two_le hrem.ne_dot hrem.ne_dotdot
  have hdir : InodeOk ninodes d (clearedDir t d e i) :=
    ⟨fun _ => hd₀, fun _ => hd.clear (by omega) h₂ hrem.lt⟩
  have hboth := h.update ((h.inode i).setNlink ((t i).nlink - 1)) hdir (fun _ => hrem.live)
    fun _ => ne_zero_of_dir hrem.dir
  rw [update_comm hrem.ne, ← unlinkTable_eq] at hboth
  exact hboth.reaped.reaped

theorem Base.step {ev : Event} (hN : ninodes ≤ 65536) (h : Base ninodes n)
    (hs : Step ninodes n ev n') : Base ninodes n' := by
  cases hs with
  | hold h₀ =>
    refine ⟨h.inode, fun j hj => ?_, fun j hj => ?_⟩
    · exact (h.kept j hj).imp (Finset.mem_insert_of_mem ·) id
    · rcases Finset.mem_insert.mp hj with rfl | hj
      · exact h₀
      · exact h.live j hj
  | @release t c c' i herase hsub =>
    refine BaseUpTo.reaped ⟨h.inode, fun j hj => ?_, fun j hj => h.live j (hsub hj)⟩
    rcases eq_or_ne j i with rfl | hne
    · exact .inr (.inr rfl)
    · exact .inl (herase (Finset.mem_erase.mpr ⟨hne, (h.kept j hj).resolve_right id⟩))
  | make hadd hpos hlt hfree htype => exact BaseUpTo.make hN h hadd hpos hlt hfree htype
  | link hadd h₀ hnd => exact BaseUpTo.link hN h hadd h₀ hnd
  | unlink hrem => exact BaseUpTo.unlink h hrem

/-! ### Between calls -/

structure Between (ninodes : ℕ) (s : Kernel) : Prop where
  fits : ninodes ≤ 65536
  coherent : Coherent s
  rest : Rest s.view
  base : Base ninodes s.view.ns

theorem Between.idle {s : Kernel} (h : Between ninodes s) : Idle s.view where
  rest := h.rest
  kept i hi := View.mem_cached.mp ((h.base.kept i hi).resolve_right id)
  live i hi := h.base.live i (View.mem_cached.mpr hi)
  dirs i hi := ((h.base.inode i).dir hi).whole
  self d _ _ hd hf := ((h.base.inode d).dir hd).find_self hf

variable {s s' : Kernel} {p : Fin NPROC} {call : Call}

theorem Between.done {r : ℤ} (h : Between ninodes s) (hen : Enabled s p call)
    (hrun : call.run ninodes p s = .ok (r, s')) :
    Between ninodes s' ∧ Done ninodes s.view p call r s'.view := by
  rcases call_cases h.fits h.coherent h.idle hen with ⟨r', t, hrun', hc, hdone⟩ | ⟨e, hrun', -⟩
  · rw [hrun] at hrun'
    cases hrun'
    refine ⟨⟨h.fits, hc, hdone.rest, ?_⟩, hdone.toDone⟩
    refine hdone.effect.keeps h.base (fun ev n _ hs => h.base.step h.fits hs) ?_
    rintro n n' hn ⟨i, hs | hs⟩
    · exact hn.step h.fits hs
    · exact hn.step h.fits hs
  · rw [hrun] at hrun'
    cases hrun'

theorem Between.err {e : Stop} (h : Between ninodes s) (hen : Enabled s p call)
    (hrun : call.run ninodes p s = .error e) : Err s.view p call e := by
  rcases call_cases h.fits h.coherent h.idle hen with ⟨r', t, hrun', -⟩ | ⟨e', hrun', herr⟩
  · rw [hrun] at hrun'
    cases hrun'
  · rw [hrun] at hrun'
    cases hrun'
    exact herr

theorem step_eq_some {a : Fin NPROC × Call} (h : step ninodes s a = some s') :
    Enabled s a.1 a.2 ∧ ∃ r, a.2.run ninodes a.1 s = .ok (r, s') := by
  unfold step at h
  split at h
  · next hen =>
    cases hrun : a.2.run ninodes a.1 s with
    | ok x =>
      rw [hrun] at h
      cases h
      exact ⟨hen, x.1, rfl⟩
    | error e =>
      rw [hrun] at h
      cases h
  · cases h

end Xv6.Names
