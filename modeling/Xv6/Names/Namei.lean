import Xv6.Names.Start

/-!
# Paths

`namei` and `nameiparent` follow the components of a path from the root or the current directory.
`route` is the walk itself, over the inode table alone; it comes to nothing at an inode that is no
directory and at a missing name. The calls return what it says and leave one reference more, to the
inode they return.

On the way `namex` holds one inode while it gets the next, so the inode cache must have an entry for
it. Where it has none, `iget` panics.
-/

namespace Xv6.Names

open Hoare Tally Option

/-! ### The walk -/

/-- The inode that names lead to from inode `d`. -/
def route (t : ℕ → Dinode) : List (List UInt8) → ℕ → Option ℕ
  | [], d => some d
  | name :: names, d =>
    if (t d).type ≠ T_DIR then none else (lookup t d name).bind fun i => route t names i

/-- The directory that all names but the last lead to, and the last name. -/
def routeParent (t : ℕ → Dinode) (names : List (List UInt8)) (d : ℕ) :
    Option (ℕ × List UInt8) :=
  names.getLast?.bind fun last => (route t names.dropLast d).bind fun j =>
    if (t j).type = T_DIR then some (j, last) else none

/-- An inode on the way is not a directory, or a name is missing. -/
inductive Blocked (t : ℕ → Dinode) : List (List UInt8) → ℕ → Prop
  | notDir {name : List UInt8} {names : List (List UInt8)} {d : ℕ} :
      (t d).type ≠ T_DIR → Blocked t (name :: names) d
  | missing {name : List UInt8} {names : List (List UInt8)} {d : ℕ} :
      lookup t d name = none → Blocked t (name :: names) d
  | next {name : List UInt8} {names : List (List UInt8)} {d i : ℕ} :
      lookup t d name = some i → Blocked t names i → Blocked t (name :: names) d

/-- There is an entry in the cache for every inode on the way, beside the one before it. -/
def Roomy (v : View) : List (List UInt8) → ℕ → Prop
  | [], _ => True
  | name :: names, d => (v.inode d).type = T_DIR → ∀ i, lookup v.inode d name = some i →
      v.Room {d, i} ∧ Roomy v names i

/-- There is an entry for where the path starts, and for every inode on the way. -/
def HasRoom (v : View) (p : Fin NPROC) (path : Path) (names : List (List UInt8)) : Prop :=
  v.Room {v.start p path} ∧ Roomy v names (v.start p path)

section Walk

variable {t : ℕ → Dinode} {v : View} {name : List UInt8} {names : List (List UInt8)} {d : ℕ}

theorem route_cons (h : (t d).type = T_DIR) :
    route t (name :: names) d = (lookup t d name).bind fun i => route t names i := by
  rw [route, if_neg (not_not.mpr h)]

theorem route_cons_of_ne (h : (t d).type ≠ T_DIR) : route t (name :: names) d = none := by
  rw [route, if_pos h]

theorem map_route_cons {α : Type} (g : ℕ → α) : (route t (name :: names) d).map g =
    if (t d).type = T_DIR then (lookup t d name).bind fun i => (route t names i).map g
    else none := by
  split
  · next hd => rw [route_cons hd, map_bind, Function.comp_def]
  next hd =>
  rw [route_cons_of_ne hd]
  rfl

theorem route_eq_none_iff : route t names d = none ↔ Blocked t names d := by
  induction names generalizing d with
  | nil => exact iff_of_false (some_ne_none _) fun h => by cases h
  | cons name names ih =>
  by_cases hd : (t d).type = T_DIR
  · rw [route_cons hd]
    cases hl : lookup t d name with
    | none => exact iff_of_true rfl (.missing hl)
    | some i =>
    rw [bind_some, ih]
    refine ⟨fun h => .next hl h, fun h => ?_⟩
    cases h with
    | notDir hne => exact absurd hd hne
    | missing hnone =>
      rw [hl] at hnone
      cases hnone
    | next hl' h =>
    rw [hl] at hl'
    cases hl'
    exact h
  · rw [route_cons_of_ne hd]
    exact iff_of_true rfl (.notDir hd)

theorem routeParent_cons_cons {name' : List UInt8} :
    routeParent t (name :: name' :: names) d = if (t d).type = T_DIR then
      (lookup t d name).bind fun i => routeParent t (name' :: names) i else none := by
  unfold routeParent
  rw [List.getLast?_cons_cons, List.dropLast_cons_cons]
  cases hlast : (name' :: names).getLast? with
  | none => exact absurd (List.getLast?_eq_none_iff.mp hlast) (List.cons_ne_nil _ _)
  | some last =>
  simp only [bind_some]
  split
  · next hd =>
    rw [route_cons hd, bind_assoc]
  next hd =>
  rw [route_cons_of_ne hd]
  rfl

theorem routeParent_eq_none_iff : routeParent t names d = none ↔ names = [] ∨
    Blocked t names.dropLast d ∨ ∃ j, route t names.dropLast d = some j ∧ (t j).type ≠ T_DIR := by
  unfold routeParent
  cases hlast : names.getLast? with
  | none => exact iff_of_true rfl (.inl (List.getLast?_eq_none_iff.mp hlast))
  | some last =>
  have hne : names ≠ [] := by
    rintro rfl
    cases hlast
  rw [bind_some, ← route_eq_none_iff]
  cases hroute : route t names.dropLast d with
  | none => exact iff_of_true rfl (.inr (.inl rfl))
  | some j =>
  rw [bind_some]
  by_cases hj : (t j).type = T_DIR
  · rw [if_pos hj]
    refine iff_of_false (some_ne_none _) ?_
    rintro (h | h | ⟨j', h, hj'⟩)
    · exact hne h
    · cases h
    · cases h
      exact hj' hj
  · rw [if_neg hj]
    exact iff_of_true rfl (.inr (.inr ⟨j, rfl, hj⟩))

theorem walk_cons_step {parent : Bool} {names' : List (List UInt8)}
    {f : ℕ → Option (ℕ × List UInt8)} (hc : Closed v) (hd : (v.inode d).type ≠ 0)
    (hlast : ¬ (parent = true ∧ names = [])) (ih : ∀ i, (v.inode i).type ≠ 0 →
      (Roomy v names' i → walk v parent names i = .ok (f i)) ∧
        (¬ Roomy v names' i → walk v parent names i = .error .igetNoInodes)) :
    (Roomy v (name :: names') d → walk v parent (name :: names) d =
      .ok (if (v.inode d).type = T_DIR then (lookup v.inode d name).bind f else none)) ∧
      (¬ Roomy v (name :: names') d → walk v parent (name :: names) d = .error .igetNoInodes) := by
  by_cases hdir : (v.inode d).type = T_DIR
  · rw [if_pos hdir]
    cases hf : find (v.inode d).data name with
    | none =>
      have hl : lookup v.inode d name = none := by
        rw [lookup, hf]
        rfl
      rw [hl, walk_missing hdir hlast hf]
      refine ⟨fun _ => rfl, fun h => absurd (fun _ i hi => ?_) h⟩
      rw [hl] at hi
      cases hi
    | some q =>
    obtain ⟨e, i⟩ := q
    have hl : lookup v.inode d name = some i := by
      rw [lookup, hf]
      rfl
    have hroomy : Roomy v (name :: names') d ↔ v.Room {d, i} ∧ Roomy v names' i := by
      refine ⟨fun h => h hdir i hl, fun h _ i' hi' => ?_⟩
      rw [hl] at hi'
      cases hi'
      exact h
    obtain ⟨hok, herr⟩ := ih i (hc.entries d e name i hdir hf)
    rw [hl, bind_some, hroomy]
    by_cases hroom : v.Room {d, i}
    · rw [walk_next hdir hlast hf hroom]
      exact ⟨fun h => hok h.2, fun h => herr fun hr => h ⟨hroom, hr⟩⟩
    · rw [walk_full hdir hlast hf hroom]
      exact ⟨fun h => absurd h.1 hroom, fun _ => rfl⟩
  · rw [walk_file hd hdir, if_neg hdir]
    exact ⟨fun _ => rfl, fun h => absurd (fun h' => absurd h' hdir) h⟩

theorem walk_eq_route (hc : Closed v) (hd : (v.inode d).type ≠ 0) :
    (Roomy v names d → walk v false names d = .ok ((route v.inode names d).map fun j => (j, []))) ∧
      (¬ Roomy v names d → walk v false names d = .error .igetNoInodes) := by
  induction names generalizing d with
  | nil => exact ⟨fun _ => rfl, fun h => absurd trivial h⟩
  | cons name names ih =>
    rw [map_route_cons]
    exact walk_cons_step hc hd (fun h => Bool.false_ne_true h.1) fun i hi => ih hi

theorem walk_eq_routeParent (hc : Closed v) (hd : (v.inode d).type ≠ 0) :
    (Roomy v names.dropLast d → walk v true names d = .ok (routeParent v.inode names d)) ∧
      (¬ Roomy v names.dropLast d → walk v true names d = .error .igetNoInodes) := by
  induction names generalizing d with
  | nil => exact ⟨fun _ => rfl, fun h => absurd trivial h⟩
  | cons name names ih =>
  cases names with
  | nil =>
    refine ⟨fun _ => ?_, fun h => absurd trivial h⟩
    change _ = Except.ok (if (v.inode d).type = T_DIR then some (d, name) else none)
    by_cases hdir : (v.inode d).type = T_DIR
    · rw [walk_last hdir rfl rfl, if_pos hdir]
    · rw [walk_file hd hdir, if_neg hdir]
  | cons name' names =>
    rw [routeParent_cons_cons, List.dropLast_cons_cons]
    exact walk_cons_step hc hd (fun h => List.cons_ne_nil _ _ h.2) fun i hi => ih hi

theorem room_of_two_free {H : Finset ℕ} (h : 2 ≤ v.nfree) (hH : H.card ≤ 2) : v.Room H :=
  (Finset.card_le_card Finset.sdiff_subset).trans (hH.trans h)

theorem roomy_of_two_free (h : 2 ≤ v.nfree) (names : List (List UInt8)) (d : ℕ) :
    Roomy v names d := by
  induction names generalizing d with
  | nil => trivial
  | cons name names ih => exact fun _ i _ => ⟨room_of_two_free h Finset.card_le_two, ih i⟩

theorem hasRoom_of_two_free (h : 2 ≤ v.nfree) (p : Fin NPROC) (path : Path)
    (names : List (List UInt8)) : HasRoom v p path names :=
  ⟨room_of_two_free h ((Finset.card_singleton _).trans_le (by decide)), roomy_of_two_free h names _⟩

end Walk

/-! ### The calls -/

section Calls

variable {s s' : Kernel} {p : Fin NPROC} {path : Path} {ip : Ptr} {j : ℕ}

/-- One reference more to inode `j`, through entry `ip`, and nothing else is changed. -/
structure Took (s s' : Kernel) (ip : Ptr) (j : ℕ) : Prop where
  inum : (s'.icache ip).inum = j
  ref : (s'.icache ip).ref = (s.icache ip).ref + 1
  other : ∀ ip', ip' ≠ ip → s'.view.cache ip' = s.view.cache ip' ∧
    (s'.icache ip').ref = (s.icache ip').ref
  disk : s'.disk = s.disk
  locked : s'.view.locked = s.view.locked

/-- The call returned the inode, with one reference more to it, or nothing, with no change. -/
def Returned (s s' : Kernel) (r : Option Ptr) (o : Option ℕ) : Prop :=
  (o = none ∧ r = none ∧ s'.view = s.view) ∨ ∃ ip j, o = some j ∧ r = some ip ∧ Took s s' ip j

theorem ref_eq_count (s : Kernel) (ip : Ptr) :
    (s.icache ip).ref = Held.count (s.view.cache ip) := by
  change _ = Held.count (s.icache ip).held
  unfold Incore.held
  split
  · next h => exact h
  next h =>
  change (s.icache ip).ref = (s.icache ip).ref - 1 + 1
  omega

theorem took_of_take (hg : s.view.Gets ip j) (hv : s'.view = s.view.take ip j) :
    Took s s' ip j := by
  have hself : s'.view.cache ip = some (Held.inc j (s.view.cache ip)) := by
    rw [hv]
    exact Function.update_self ..
  have hother : ∀ ip', ip' ≠ ip → s'.view.cache ip' = s.view.cache ip' := by
    intro ip' hne
    rw [hv]
    exact Function.update_of_ne hne ..
  refine ⟨?_, ?_, fun ip' hne => ⟨hother ip' hne, ?_⟩, congrArg View.inode hv, by rw [hv]; rfl⟩
  · have hat : s'.view.At ip j := hv ▸ hg.at_take
    exact (view_at.mp hat).2
  · rw [ref_eq_count, ref_eq_count, hself, count_inc]
  · rw [ref_eq_count, ref_eq_count, hother ip' hne]

/-- A well-formed file system between calls, and a process in it. -/
structure Settled (s : Kernel) (p : Fin NPROC) : Prop where
  coherent : Coherent s
  idle : Idle s.view
  closed : Closed s.view
  live : (s.procs p).live = true

theorem Settled.start_live (h : Settled s p) (path : Path) :
    (s.disk (s.view.start p path)).type ≠ 0 := h.idle.start_live h.live h.closed path

theorem Settled.namex (h : Settled s p) (path : Path) (parent : Bool) :
    (∀ o, resolve s.view p parent path = .ok o → ∃ r s', namex p path parent s = .ok (r, s') ∧
      Returned s s' (r.map Prod.fst) (o.map Prod.fst) ∧ r.map Prod.snd = o.map Prod.snd) ∧
    ∀ e, resolve s.view p parent path = .error e → Names.namex p path parent s = .error e := by
  obtain ⟨i, hcwd⟩ := h.idle.rest.exact.at_cwd h.live
  have hrun := via_namex (E := fun e => resolve s.view p parent path = .error e)
    (R := fun r w => (resolve s.view p parent path = .ok none ∧ r = none ∧ w = s.view) ∨
      ∃ ip j name, resolve s.view p parent path = .ok (some (j, name)) ∧ r = some (ip, name) ∧
        s.view.Gets ip j ∧ w = s.view.take ip j) h.idle.lookable hcwd
    (fun hr => .inl ⟨hr, rfl, rfl⟩) (fun ip j name hr hg => .inr ⟨ip, j, name, hr, rfl, hg, rfl⟩)
    (fun _ he => he) s ⟨h.coherent, rfl⟩
  cases hres : Names.namex p path parent s with
  | ok x =>
    obtain ⟨r, s'⟩ := x
    obtain ⟨w, ⟨-, rfl⟩, hcases⟩ := hrun.of_ok hres
    refine ⟨fun o ho => ⟨r, s', rfl, ?_⟩, fun e he => ?_⟩
    · rw [ho] at hcases
      rcases hcases with ⟨hnone, rfl, hview⟩ | ⟨ip, j, name, hsome, rfl, hg, hview⟩
      · cases hnone
        exact ⟨.inl ⟨rfl, rfl, hview⟩, rfl⟩
      · cases hsome
        exact ⟨.inr ⟨ip, j, rfl, rfl, took_of_take hg hview⟩, rfl⟩
    · rw [he] at hcases
      rcases hcases with ⟨hnone, -⟩ | ⟨_, _, _, hsome, -⟩
      · cases hnone
      · cases hsome
  | error e =>
    have he := hrun.of_error hres
    refine ⟨fun o ho => ?_, fun e' he' => ?_⟩
    · rw [he] at ho
      cases ho
    · rw [he] at he'
      cases he'
      rfl

theorem Settled.resolve (h : Settled s p) (path : Path) :
    (HasRoom s.view p path (components path) → resolve s.view p false path =
      .ok ((route s.disk (components path) (s.view.start p path)).map fun j => (j, []))) ∧
      (¬ HasRoom s.view p path (components path) →
        resolve s.view p false path = .error .igetNoInodes) := by
  have hwalk := @walk_eq_route s.view (components path) (s.view.start p path) h.closed
    (h.start_live path)
  obtain ⟨hok, herr⟩ := hwalk
  unfold Names.resolve
  by_cases hroom : s.view.Room {s.view.start p path}
  · rw [if_pos hroom]
    exact ⟨fun hr => hok hr.2, fun hr => herr fun h' => hr ⟨hroom, h'⟩⟩
  · rw [if_neg hroom]
    exact ⟨fun hr => absurd hr.1 hroom, fun _ => rfl⟩

theorem Settled.resolve_parent (h : Settled s p) (path : Path) :
    (HasRoom s.view p path (components path).dropLast → Names.resolve s.view p true path =
      .ok (routeParent s.disk (components path) (s.view.start p path))) ∧
      (¬ HasRoom s.view p path (components path).dropLast →
        Names.resolve s.view p true path = .error .igetNoInodes) := by
  have hwalk := @walk_eq_routeParent s.view (components path) (s.view.start p path) h.closed
    (h.start_live path)
  obtain ⟨hok, herr⟩ := hwalk
  unfold Names.resolve
  by_cases hroom : s.view.Room {s.view.start p path}
  · rw [if_pos hroom]
    exact ⟨fun hr => hok hr.2, fun hr => herr fun h' => hr ⟨hroom, h'⟩⟩
  · rw [if_neg hroom]
    exact ⟨fun hr => absurd hr.1 hroom, fun _ => rfl⟩

theorem Returned.none_iff {r : Option Ptr} {o : Option ℕ} (h : Returned s s' r o) :
    r = none ↔ o = none := by
  rcases h with ⟨rfl, rfl, -⟩ | ⟨ip, j, rfl, rfl, -⟩
  · exact iff_of_true rfl rfl
  · exact iff_of_false (some_ne_none _) (some_ne_none _)

theorem namei_of_ok {r : Option (Ptr × List UInt8)} (h : Names.namex p path false s = .ok (r, s')) :
    namei p path s = .ok (r.map Prod.fst, s') := bind_of_ok h

theorem Settled.namei_full (h : Settled s p) (hno : ¬ HasRoom s.view p path (components path)) :
    namei p path s = .error .igetNoInodes := by
  have herr := (h.namex path false).2 _ ((h.resolve path).2 hno)
  unfold namei
  simp only [bind, StateT.bind, herr, Except.bind]

/-- **Path lookup is the walk over the components.** In a well-formed file system between calls,
`namei` returns the inode that the components lead to, `nameiparent` the one that all but the last
lead to, and the last one; they return nothing exactly if the walk is blocked (or has no last
component), and they leave one reference more, to the inode they return. This needs an entry of the
inode cache for every inode on the way; without one the calls panic. -/
theorem namei_walks (h : Settled s p) (path : Path) :
    (HasRoom s.view p path (components path) → ∃ r s', namei p path s = .ok (r, s') ∧
      Returned s s' r (route s.disk (components path) (s.view.start p path)) ∧
      (r = none ↔ Blocked s.disk (components path) (s.view.start p path))) ∧
    (¬ HasRoom s.view p path (components path) → namei p path s = .error .igetNoInodes) ∧
    (HasRoom s.view p path (components path).dropLast → ∃ r s', nameiparent p path s = .ok (r, s') ∧
      Returned s s' (r.map Prod.fst)
        ((routeParent s.disk (components path) (s.view.start p path)).map Prod.fst) ∧
      r.map Prod.snd = (routeParent s.disk (components path) (s.view.start p path)).map Prod.snd ∧
      (r = none ↔ components path = [] ∨
        Blocked s.disk (components path).dropLast (s.view.start p path) ∨
        ∃ j, route s.disk (components path).dropLast (s.view.start p path) = some j ∧
          (s.disk j).type ≠ T_DIR)) ∧ (¬ HasRoom s.view p path (components path).dropLast →
      nameiparent p path s = .error .igetNoInodes) := by
  refine ⟨fun hroom => ?_, h.namei_full, fun hroom => ?_, fun hno => ?_⟩
  · obtain ⟨r, s', hrun, hret, -⟩ := (h.namex path false).1 _ ((h.resolve path).1 hroom)
    rw [map_map, show (Prod.fst ∘ fun j : ℕ => (j, ([] : List UInt8))) = id from rfl,
      map_id, id] at hret
    refine ⟨_, s', namei_of_ok hrun, hret, ?_⟩
    rw [hret.none_iff, route_eq_none_iff]
  · obtain ⟨r, s', hrun, hret, hname⟩ :=
      (h.namex path true).1 _ ((h.resolve_parent path).1 hroom)
    refine ⟨r, s', hrun, hret, hname, ?_⟩
    rw [← map_eq_none_iff (f := Prod.fst), hret.none_iff, map_eq_none_iff, routeParent_eq_none_iff]
  · exact (h.namex path true).2 _ ((h.resolve_parent path).2 hno)

end Calls

/-! ### After booting -/

theorem settled_boot : Settled boot 0 where
  coherent := start_boot.coherent
  idle := start_boot.between.idle
  closed := by
    refine ⟨by decide, fun d e name i hd hf => ?_⟩
    obtain ⟨hlt, hi, -, -⟩ := find_eq_some hf
    have hroot := eq_root_of_bootDisk (ne_zero_of_dir hd)
    change (bootDisk i).type ≠ 0
    change e < nentries (bootDisk d).data at hlt
    change (entry (bootDisk d).data e).inum = i at hi
    rw [hroot, bootDisk_root] at hlt hi
    have hall : ∀ e < 2, (entry (dotData ROOTINO ROOTINO) e).inum = ROOTINO := by decide +kernel
    rw [← hi, hall e hlt]
    decide
  live := rfl

/-- The path `"."`. -/
theorem namei_walks_dot : ∃ r s', namei 0 dot boot = .ok (r, s') ∧
    Returned boot s' r (route boot.disk (components dot) (boot.view.start 0 dot)) ∧
    (r = none ↔ Blocked boot.disk (components dot) (boot.view.start 0 dot)) :=
  (namei_walks settled_boot dot).1 (hasRoom_of_two_free (by decide +kernel) 0 dot _)

/-! ### A full inode cache -/

def crowdEntries : List Dirent :=
  ⟨ROOTINO, strncpy dot DIRSIZ⟩ :: ⟨ROOTINO, strncpy dotdot DIRSIZ⟩ ::
    (List.range 50).map fun k => ⟨k + 2, strncpy [UInt8.ofNat (k + 100)] DIRSIZ⟩

def crowdDisk (i : ℕ) : Dinode :=
  if i = ROOTINO then ⟨T_DIR, 0, 0, 51, crowdEntries.flatMap Dirent.encode⟩
  else if 2 ≤ i ∧ i ≤ 51 then ⟨T_DIR, 0, 0, 1, dotData i ROOTINO⟩
  else ⟨0, 0, 0, 0, []⟩

/-- Fifty processes: the first is in the root directory, the others in forty-nine of the others. -/
def crowd : Kernel where
  disk := crowdDisk
  icache ip := ⟨ip + 1, 1, false, false, ⟨0, 0, 0, 0, []⟩⟩
  ftable := boot.ftable
  procs p := ⟨decide (p.val < 50), Fin.ofNat NINODE p, fun _ => none⟩

theorem crowdDisk_root :
    crowdDisk ROOTINO = ⟨T_DIR, 0, 0, 51, crowdEntries.flatMap Dirent.encode⟩ := if_pos rfl

theorem crowdDisk_sub {i : ℕ} (h : 2 ≤ i) (h' : i ≤ 51) :
    crowdDisk i = ⟨T_DIR, 0, 0, 1, dotData i ROOTINO⟩ := by
  have hne : i ≠ ROOTINO := by
    unfold ROOTINO
    omega
  rw [crowdDisk, if_neg hne, if_pos ⟨h, h'⟩]

theorem crowdDisk_cases {i : ℕ} (h : (crowdDisk i).type ≠ 0) : i = ROOTINO ∨ 2 ≤ i ∧ i ≤ 51 := by
  by_contra hno
  rw [not_or] at hno
  rw [crowdDisk, if_neg hno.1, if_neg hno.2] at h
  exact h rfl

theorem type_crowdDisk {i : ℕ} (h : 1 ≤ i) (h' : i ≤ 51) : (crowdDisk i).type = T_DIR := by
  rcases eq_or_lt_of_le h with rfl | hlt
  · rfl
  · rw [crowdDisk_sub hlt h']

theorem not_unlinked_crowd (i : ℕ) : ¬ crowd.view.Unlinked i := by
  rintro ⟨htype, hnlink⟩
  change (crowdDisk i).type ≠ 0 at htype
  change (crowdDisk i).nlink = 0 at hnlink
  rcases crowdDisk_cases htype with rfl | ⟨h, h'⟩
  · rw [crowdDisk_root] at hnlink
    exact absurd hnlink (by decide)
  · rw [crowdDisk_sub h h'] at hnlink
    have hone : (1 : Int16) ≠ 0 := by decide
    exact hone hnlink

theorem find_crowd {d e i : ℕ} {name : List UInt8} (hd : (crowdDisk d).type = T_DIR)
    (hf : find (crowdDisk d).data name = some (e, i)) :
    (crowdDisk i).type ≠ 0 ∧ (i = d → cname name = dot ∨ cname name = dotdot) := by
  obtain ⟨hlt, hi, -, hname⟩ := find_eq_some hf
  rw [hname]
  rcases crowdDisk_cases (ne_zero_of_dir hd) with rfl | ⟨h, h'⟩
  · rw [crowdDisk_root] at hlt hi ⊢
    have hall : ∀ e < 52, let x := entry (crowdEntries.flatMap Dirent.encode) e
        (1 ≤ x.inum ∧ x.inum ≤ 51) ∧
          (x.inum = ROOTINO → cname x.name = dot ∨ cname x.name = dotdot) := by decide +kernel
    have hn : nentries (crowdEntries.flatMap Dirent.encode) = 52 := by decide +kernel
    obtain ⟨⟨hge, hle⟩, hself⟩ := hall e (hn ▸ hlt)
    refine ⟨?_, fun heq => hself (hi.trans heq)⟩
    rw [← hi, type_crowdDisk hge hle]
    decide
  rw [crowdDisk_sub h h'] at hlt hi ⊢
  have hn : nentries (dotData d ROOTINO) = 2 := by
    rw [nentries, length_dotData]
    rfl
  have hlt : e < 2 := hn ▸ hlt
  have hcases : e = 0 ∨ e = 1 := by omega
  rcases hcases with rfl | rfl
  · rw [entry_dotData_zero (by omega)] at hi ⊢
    have hdot : cname (strncpy dot DIRSIZ) = dot := by decide
    refine ⟨?_, fun _ => .inl hdot⟩
    rw [← hi, type_crowdDisk (by omega) h']
    decide
  · rw [entry_dotData_one (by decide)] at hi ⊢
    refine ⟨?_, fun _ => .inr (by decide)⟩
    rw [← hi]
    decide

theorem settled_crowd : Settled crowd 0 := by
  have hnot : ∀ {P : Prop}, (false = true) → P := fun h => absurd h Bool.false_ne_true
  refine ⟨⟨fun ip => ⟨fun _ h => hnot h, fun h => hnot h, fun _ ht hn => ?_⟩, ?_⟩,
    ⟨⟨fun _ => rfl, ⟨?_, ?_, fun _ _ => rfl⟩, fun _ _ _ => rfl⟩, ?_, ?_, ?_, ?_⟩, ⟨?_, ?_⟩, rfl⟩
  · exact absurd ⟨ht, hn⟩ (not_unlinked_crowd _)
  · intro ip ip' _ _ heq
    exact Fin.ext (Nat.succ_injective heq)
  · decide +kernel
  · intro f
    have hfd : ∀ p fd, ofileRef f ((crowd.view.procs p).ofile fd) = 0 :=
      fun p fd => if_neg fun h => by cases h
    have hproc : ∀ p, fdRef f (crowd.view.procs p) = 0 := by
      intro p
      rw [fdRef, tally_eq_zero fun fd _ => hfd p fd]
    rw [tally_eq_zero fun p _ => hproc p]
    rfl
  · exact fun i hu => absurd hu (not_unlinked_crowd i)
  · rintro i ⟨ip, n, hn⟩
    have hheld : (crowd.icache ip).held = some ⟨i, n⟩ := hn
    have hinum : ip.val + 1 = i := (Incore.held_eq_some.mp hheld).1
    have hlt : ip.val < 50 := ip.isLt
    change (crowdDisk i).type ≠ 0
    rw [type_crowdDisk (by omega) (by omega)]
    decide
  · intro i hd
    change (crowdDisk i).type = T_DIR at hd
    change DirData (crowdDisk i).data
    rcases crowdDisk_cases (ne_zero_of_dir hd) with rfl | ⟨h, h'⟩
    · rw [crowdDisk_root]
      exact ⟨by decide +kernel, by decide +kernel⟩
    · rw [crowdDisk_sub h h']
      exact ⟨by rw [length_dotData]; decide, by rw [length_dotData]; decide⟩
  · exact fun d e name hd hf => (find_crowd hd hf).2 rfl
  · decide
  · exact fun d e name i hd hf => (find_crowd hd hf).1

/-- Every entry of the inode cache is in use, and the next directory panics. -/
theorem namei_full_panics : Settled crowd 0 ∧
    route crowd.disk (components [149]) (crowd.view.start 0 [149]) = some 51 ∧
    namei 0 [149] crowd = .error .igetNoInodes := by
  have hfind : lookup crowd.disk ROOTINO [149] = some 51 := by decide +kernel
  refine ⟨settled_crowd, by decide +kernel, settled_crowd.namei_full fun hroom => ?_⟩
  obtain ⟨hroom, -⟩ := hroom.2 (by decide) 51 hfind
  exact absurd hroom (by decide +kernel)

end Xv6.Names
