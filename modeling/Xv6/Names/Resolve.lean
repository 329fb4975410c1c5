import Xv6.Names.Events

/-!
# Where paths lead

Facts about `resolve` that the calls rely on, and two ways in which a call goes wrong: it follows
a name to a free inode, or it stores a name under which the directory finds itself.
-/

namespace Xv6.Names

/-- Between calls: reference counts are exact, inodes without links are referenced, referenced
inodes are allocated, directories consist of whole entries, and find themselves only under `"."` and
`".."`. -/
structure Idle (v : View) : Prop where
  rest : Rest v
  kept : v.Kept
  live : ∀ i, v.Cached i → (v.inode i).type ≠ 0
  dirs : ∀ i, (v.inode i).type = T_DIR → DirData (v.inode i).data
  self : ∀ d e name, (v.inode d).type = T_DIR → find (v.inode d).data name = some (e, d) →
    cname name = dot ∨ cname name = dotdot

theorem Idle.lookable {v : View} (h : Idle v) : Lookable v := ⟨h.rest.quiet, h.kept, h.dirs⟩

structure Closed (v : View) : Prop where
  root : (v.inode ROOTINO).type ≠ 0
  entries : ∀ d e name i, (v.inode d).type = T_DIR → find (v.inode d).data name = some (e, i) →
    (v.inode i).type ≠ 0

/-- A `link` whose new name stands for the directory it is to be stored in. -/
def BadLink (v : View) (p : Fin NPROC) : Call → Prop
  | .link (some old) (some new) => ∃ i x ip d name e, resolve v p false old = .ok (some (i, x)) ∧
      (v.inode i).type ≠ 0 ∧ (v.inode i).type ≠ T_DIR ∧ v.Gets ip i ∧
      resolve (v.take ip i) p true new = .ok (some (d, name)) ∧
      find (v.inode d).data name = some (e, d)
  | _ => False

/-- The path leads to a directory that does not have the last name. -/
def Creates (v : View) (p : Fin NPROC) (path : Path) : Prop :=
  ∃ d name, resolve v p true path = .ok (some (d, name)) ∧ find (v.inode d).data name = none

/-- An `open` that makes a file and then has no file structure or no descriptor for it. -/
def Leaks (v : View) (p : Fin NPROC) : Call → Prop
  | .open (some path) omode => omode &&& O_CREATE ≠ 0 ∧ Creates v p path ∧
      ((∀ f, (v.ftable f).ref ≠ 0) ∨ ∀ fd, (v.procs p).ofile fd ≠ none)
  | _ => False

/-- A call has returned `r`. -/
structure Done (ninodes : ℕ) (v : View) (p : Fin NPROC) (c : Call) (r : ℤ) (w : View) : Prop where
  rest : Rest w
  effect : Effect ninodes v p c w.ns
  good : ¬ BadLink v p c
  /-- A call that fails has changed the inodes only if it is a leaking `open`. -/
  failed : r = -1 → (w.inode = v.inode ↔ ¬ Leaks v p c)

/-- A call that returned, with what it leaves of cache entries and files. -/
structure Leaves (ninodes : ℕ) (v : View) (p : Fin NPROC) (c : Call) (r : ℤ) (w : View) : Prop
    extends Done ninodes v p c r w where
  left : Left v w

/-- A call stopped: in a deadlock for a bad `link` and for no other call, and at a free inode only
if some name leads there. -/
structure Err (v : View) (p : Fin NPROC) (c : Call) (e : Stop) : Prop where
  deadlock : e = .deadlock ↔ BadLink v p c
  noType : e = .ilockNoType → ¬ Closed v

variable {v : View} {p : Fin NPROC} {c : Call} {ip : Ptr} {i j d : ℕ} {parent : Bool}
  {name : List UInt8} {path : Path}

theorem Idle.done {ninodes : ℕ} {r : ℤ} (hv : Idle v) (hgood : ¬ BadLink v p c)
    (hleaks : ¬ Leaks v p c) : Done ninodes v p c r v :=
  ⟨hv.rest, .of_settles .refl, hgood, fun _ => iff_of_true rfl hleaks⟩

theorem Idle.leaves {ninodes : ℕ} {r : ℤ} (hv : Idle v) (hgood : ¬ BadLink v p c)
    (hleaks : ¬ Leaks v p c) : Leaves ninodes v p c r v :=
  ⟨hv.done hgood hleaks, (Dropped.of_eq rfl rfl).left⟩

theorem Err.other {e : Stop} (hb : ¬ BadLink v p c) (h : e ≠ .deadlock) (h' : e ≠ .ilockNoType) :
    Err v p c e :=
  ⟨⟨fun he => absurd he h, fun hbad => absurd hbad hb⟩, fun he => absurd he h'⟩

theorem Err.of_free (hb : ¬ BadLink v p c) (h : ¬ Closed v) : Err v p c .ilockNoType :=
  ⟨⟨nofun, fun hbad => absurd hbad hb⟩, fun _ => h⟩

/-! ### Walks -/

variable {names : List (List UInt8)}

theorem walk_parent :
    ∀ {d : ℕ}, walk v true names d = .ok (some (j, name)) → (v.inode j).type = T_DIR := by
  induction names with
  | nil => intro d h; cases h
  | cons n names ih =>
  intro d h
  obtain ⟨hd, ⟨-, -, hx⟩ | ⟨-, e, i, -, -, hrest⟩⟩ := walk_cons_some h
  · cases hx
    exact hd
  · exact ih hrest

theorem walk_live (hc : Closed v) :
    ∀ {d : ℕ}, (v.inode d).type ≠ 0 → walk v parent names d = .ok (some (j, name)) →
      (v.inode j).type ≠ 0 := by
  induction names with
  | nil =>
    intro d hd h
    cases parent with
    | true => cases h
    | false => cases h; exact hd
  | cons n names ih =>
  intro d hd h
  obtain ⟨hdir, ⟨-, -, hx⟩ | ⟨-, e, i, hf, -, hrest⟩⟩ := walk_cons_some h
  · cases hx
    exact hd
  · exact ih (hc.entries d e n i hdir hf) hrest

theorem walk_error {x : Stop} : ∀ {d : ℕ}, walk v parent names d = .error x →
      x = .igetNoInodes ∨ (x = .ilockNoType ∧ (Closed v → (v.inode d).type = 0)) := by
  induction names with
  | nil => intro d h; cases h
  | cons n names ih =>
  intro d h
  rcases walk_cons_error h with ⟨h₀, rfl⟩ | ⟨hdir, e, i, hf, rfl | hrest⟩
  · exact .inr ⟨rfl, fun _ => h₀⟩
  · exact .inl rfl
  · refine (ih hrest).imp id fun ⟨hx, hfree⟩ => ⟨hx, fun hc => ?_⟩
    exact absurd (hfree hc) (hc.entries d e n i hdir hf)

/-! ### Paths of a process -/

theorem resolve_parent (h : resolve v p true path = .ok (some (j, name))) :
    (v.inode j).type = T_DIR := by
  unfold resolve at h
  split at h
  · exact walk_parent h
  · cases h

theorem Idle.start_live (hv : Idle v) (hp : (v.procs p).live = true) (hc : Closed v) (path : Path) :
    (v.inode (v.start p path)).type ≠ 0 := by
  unfold View.start
  split
  · exact hc.root
  · obtain ⟨i, hat⟩ := hv.rest.exact.at_cwd hp
    rw [hat.cwd_eq]
    exact hv.live i ⟨_, hat⟩

theorem Idle.resolve_live (hv : Idle v) (hp : (v.procs p).live = true) (hc : Closed v)
    (h : resolve v p parent path = .ok (some (j, name))) : (v.inode j).type ≠ 0 := by
  unfold resolve at h
  split at h
  · exact walk_live hc (hv.start_live hp hc path) h
  · cases h

theorem resolve_error {e : Stop} (h : resolve v p parent path = .error e) : e = .igetNoInodes ∨
      (e = .ilockNoType ∧ (Closed v → (v.inode (v.start p path)).type = 0)) := by
  unfold resolve at h
  split at h
  · exact walk_error h
  · cases h
    exact .inl rfl

theorem Idle.resolve_error (hv : Idle v) (hp : (v.procs p).live = true) {e : Stop}
    (hb : ¬ BadLink v p c) (h : resolve v p parent path = .error e) : Err v p c e := by
  rcases Names.resolve_error h with rfl | ⟨rfl, hfree⟩
  · exact .other hb (by decide) (by decide)
  · exact .of_free hb fun hc => hv.start_live hp hc path (hfree hc)

/-! ### Lookups beside another reference -/

theorem room_mono {H H' : Finset ℕ} (hsub : H ⊆ H') (h : v.Room H') : v.Room H :=
  (Finset.card_le_card (Finset.sdiff_subset_sdiff hsub (Finset.Subset.refl _))).trans h

theorem walk_setInode {x : Dinode} (h : (v.inode i).type ≠ 0) (hd : (v.inode i).type ≠ T_DIR)
    (hx : x.type = (v.inode i).type) (names : List (List UInt8)) :
    ∀ d, walk (v.setInode i x) parent names d = walk v parent names d := by
  induction names with
  | nil => exact fun _ => rfl
  | cons n names ih =>
  intro d
  rcases eq_or_ne d i with rfl | hne
  · have hself : ((v.setInode d x).inode d) = x := Function.update_self ..
    rw [walk_file h hd, walk_file (by rwa [hself, hx]) (by rwa [hself, hx])]
  have hother : (v.setInode i x).inode d = v.inode d := Function.update_of_ne hne ..
  rw [walk, walk, lookup, lookup, hother]
  simp only [ih]
  rfl

theorem resolve_setInode {x : Dinode} (h : (v.inode i).type ≠ 0) (hd : (v.inode i).type ≠ T_DIR)
    (hx : x.type = (v.inode i).type) :
    resolve (v.setInode i x) p parent path = resolve v p parent path := by
  unfold resolve
  rw [walk_setInode h hd hx]
  rfl

theorem walk_take (hg : v.Gets ip i) {x : ℕ × List UInt8} :
    ∀ {d : ℕ}, walk (v.take ip i) parent names d = .ok (some x) →
      walk v parent names d = .ok (some x) := by
  induction names with
  | nil => exact fun h => h
  | cons n names ih =>
  intro d h
  obtain ⟨hd, ⟨hp, hn, hx⟩ | ⟨hn, e, j, hf, hroom, hrest⟩⟩ := walk_cons_some h
  · rw [hx]
    exact walk_last hd hp hn
  have hroom' : v.Room {d, j} :=
    room_mono (Finset.subset_insert i _) ((View.room_take hg _).mp hroom)
  rw [walk_next (v := v) hd hn hf hroom']
  exact ih hrest

theorem start_take (hcwd : v.At (v.procs p).cwd j) :
    (v.take ip i).start p path = v.start p path := by
  have hcwd' : (v.take ip i).At ((v.take ip i).procs p).cwd j := hcwd.take ip i
  unfold View.start
  rw [hcwd.cwd_eq, hcwd'.cwd_eq]

theorem resolve_take (hg : v.Gets ip i) (hcwd : v.At (v.procs p).cwd j)
    {x : ℕ × List UInt8} (h : resolve (v.take ip i) p parent path = .ok (some x)) :
    resolve v p parent path = .ok (some x) := by
  unfold resolve at h ⊢
  rw [start_take hcwd] at h
  split at h
  · next hroom =>
    rw [View.room_take hg] at hroom
    rw [if_pos (room_mono (Finset.subset_insert _ _) hroom)]
    exact walk_take hg h
  · cases h

theorem walk_congr {u : View} (hinode : u.inode = v.inode) (hroom : ∀ H, u.Room H ↔ v.Room H)
    (names : List (List UInt8)) : ∀ d, walk u parent names d = walk v parent names d := by
  induction names with
  | nil => exact fun _ => rfl
  | cons n names ih =>
  intro d
  rw [walk, walk, hinode]
  simp only [ih, hroom]

theorem resolve_take_congr {ip' : Ptr} (hg : v.Gets ip i) (hg' : v.Gets ip' i)
    (hcwd : v.At (v.procs p).cwd j) :
    resolve (v.take ip i) p parent path = resolve (v.take ip' i) p parent path := by
  have hroom : ∀ H, (v.take ip i).Room H ↔ (v.take ip' i).Room H := fun H =>
    (View.room_take hg H).trans (View.room_take hg' H).symm
  unfold resolve
  rw [start_take hcwd, start_take hcwd, walk_congr (u := v.take ip i) (v := v.take ip' i) rfl hroom]
  simp only [hroom]

theorem Idle.resolve_take_error (hv : Idle v) (hp : (v.procs p).live = true) {e : Stop}
    (hb : ¬ BadLink v p c) (h : resolve (v.take ip i) p parent path = .error e) : Err v p c e := by
  obtain ⟨cwd, hcwd⟩ := hv.rest.exact.at_cwd hp
  rcases Names.resolve_error h with rfl | ⟨rfl, hfree⟩
  · exact .other hb (by decide) (by decide)
  · rw [start_take hcwd] at hfree
    exact .of_free hb fun hc => hv.start_live hp hc path (hfree ⟨hc.root, hc.entries⟩)

theorem badLink_iff {old : Path} (new : Path) (hcwd : v.At (v.procs p).cwd j)
    (hres : resolve v p false old = .ok (some (i, name))) (h₀ : (v.inode i).type ≠ 0)
    (hd : (v.inode i).type ≠ T_DIR) (hg : v.Gets ip i) : BadLink v p (.link (some old) (some new)) ↔
      ∃ d n e, resolve (v.take ip i) p true new = .ok (some (d, n)) ∧
        find (v.inode d).data n = some (e, d) := by
  constructor
  · rintro ⟨i', x, ip', d, n, e, hres', -, -, hg', hnew, hf⟩
    rw [hres] at hres'
    cases hres'
    exact ⟨d, n, e, resolve_take_congr hg' hg hcwd ▸ hnew, hf⟩
  · rintro ⟨d, n, e, hnew, hf⟩
    exact ⟨i, name, ip, d, n, e, hres, h₀, hd, hg, hnew, hf⟩

end Xv6.Names
