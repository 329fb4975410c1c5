import Xv6.Fs.Contents
import Xv6.Lib.Run

/-!
# Shared file offsets

Processes that share a `struct file`, by `fork` or `dup`, share its offset. `fileread` and
`filewrite` of `file.c` move it under the lock of the inode: `fileread` in one step, `filewrite` in
chunks of at most 1536 bytes, between which it gives the lock up, so that calls interleave chunk by
chunk.

The state records the transfers, that is the chunks written and the reads that returned bytes, in
order.
-/

namespace Xv6.Fs

open LittleEndian Hoare Splice List

variable {L : Layout} {i : ℕ} {v w : View}

/-! ### `readi`, with holes -/

theorem byteAt_data {off j m : ℕ} (hm : off % BSIZE + m ≤ BSIZE) (hj : j < m)
    (hne : v.slot (fileSlot i (off / BSIZE)) ≠ 0) :
    byteAt (v.data (v.slot (fileSlot i (off / BSIZE)))) (off % BSIZE + j) = v.byte i (off + j) := by
  have hB : BSIZE = 512 := rfl
  have hdiv : (off + j) / BSIZE = off / BSIZE := by
    rw [hB] at hm ⊢
    omega
  have hmod : (off + j) % BSIZE = off % BSIZE + j := by
    rw [hB] at hm ⊢
    omega
  rw [View.byte, hdiv, hmod, View.block, if_neg hne]

theorem via_readLoop {off n : ℕ} (hi : i < L.ninodes) (hlive : (v.inode i).type ≠ 0) :
    ∀ fuel tot w, tot ≤ n → n - tot ≤ fuel → Extends L i v w → SameBlocks v w →
      Via (Views L) (readLoop L i n fuel tot (off + tot))
        (fun bytes u => bytes = (range (n - tot)).map (fun k => v.byte i (off + tot + k)) ∧
          Extends L i v u ∧ SameBlocks v u) (fun _ => True) w := by
  intro fuel
  induction fuel with
  | zero =>
    intro tot w hle hfuel hext hsame
    obtain rfl : tot = n := by omega
    refine Via.pure ⟨?_, hext, hsame⟩
    rw [Nat.sub_self]
    rfl
  | succ fuel ih =>
  intro tot w hle hfuel hext hsame
  rw [readLoop]
  refine Via.ite (fun htot => ?_) fun htot => ?_
  · obtain ⟨hpos, hle', hin⟩ := piece_bounds (off + tot) htot
    have hlive' : (w.inode i).type ≠ 0 := by
      rw [hext.type_eq]
      exact hlive
    by_cases hbn : (off + tot) / BSIZE < MAXFILE
    · refine Via.bind ((via_bmap hi hext.wf hlive' hbn).mono (fun _ _ h => h) fun _ _ => trivial) ?_
      intro c u hmap
      have hc := hmap.slot_eq
      subst hc
      have hdata := (hmap.ext.wf.bounds hmap.ne_zero).1
      refine Via.bind_eq (via_bread hdata ⟨rfl, rfl⟩) ?_
      have hsame' := hsame.trans hmap.same
      have hrest := ih (tot + min (n - tot) (BSIZE - (off + tot) % BSIZE)) u hle' (by omega)
        (hext.trans hmap.ext) hsame'
      rw [← Nat.add_assoc] at hrest
      refine Via.bind hrest ?_
      rintro rest x ⟨rfl, hx, hxsame⟩
      refine Via.pure ⟨?_, hx, hxsame⟩
      -- the piece and the rest together
      set m := min (n - tot) (BSIZE - (off + tot) % BSIZE) with hm
      have hpiece : (range m).map
            (fun j => byteAt (u.data (u.slot (fileSlot i ((off + tot) / BSIZE))))
              ((off + tot) % BSIZE + j)) =
          (range m).map fun k => v.byte i (off + tot + k) := by
        refine map_congr_left fun j hj => ?_
        rw [byteAt_data hin (mem_range.mp hj) hmap.ne_zero, hsame'.byte_eq]
      have hsplit : n - tot = m + (n - (tot + m)) := by omega
      rw [hpiece, hsplit, range_add, map_append, map_map]
      congr 1
      refine map_congr_left fun k _ => ?_
      simp only [Function.comp, Nat.add_assoc]
    · have hM : MAXFILE = NDIRECT + NINDIRECT := rfl
      rw [bmap, if_neg (by omega), if_neg (by omega)]
      exact Via.bind (R := fun _ _ => False) (Via.throw trivial) fun _ _ h => h.elim
  · obtain rfl : tot = n := by omega
    refine Via.pure ⟨?_, hext, hsame⟩
    rw [Nat.sub_self]
    rfl

theorem contents_of_extends (hext : Extends L i v w) (hsame : SameBlocks v w) :
    w.contents i = v.contents i := by
  unfold View.contents
  rw [hext.size_eq]
  exact map_congr_left fun k _ => hsame.byte_eq i k

theorem via_readi (devsw : Devsw) {off n : ℕ} (hi : i < L.ninodes) (hwf : WellFormed L v)
    (hlive : (v.inode i).type ≠ 0) (hdev : (v.inode i).type ≠ T_DEV)
    (hoff : off < 2 ^ 32) (hn : n < 2 ^ 32) : Via (Views L) (readi L devsw i off n)
      (fun r w => (r = (-1, []) ∨ r.1 = r.2.length ∧ off ≤ (v.inode i).size.toNat ∧
          r.2 = slice (v.contents i) off n) ∧ WellFormed L w ∧
        (w.inode i).type = (v.inode i).type ∧ w.contents i = v.contents i) (fun _ => True) v := by
  refine Via.bind_eq (via_inode hi ⟨rfl, rfl⟩) ?_
  rw [if_neg hdev]
  refine Via.ite (fun _ => ?_) fun h => ?_
  · exact Via.pure ⟨.inl rfl, hwf, rfl, rfl⟩
  have hrefused : ¬ ReadRefused (v.inode i).size.toNat off n :=
    fun hr => h ((readRefused_iff hoff hn).mp hr)
  obtain ⟨hle, hwrap⟩ := not_or.mp hrefused
  have hmod : (off + n) % 2 ^ 32 = off + n := by omega
  have hcount : (if (off + n) % 2 ^ 32 > (v.inode i).size.toNat then
      (v.inode i).size.toNat - off else n) = min n ((v.inode i).size.toNat - off) := by
    rw [hmod]
    split <;> omega
  dsimp only
  rw [hcount]
  have hloop := @via_readLoop L i v off (min n ((v.inode i).size.toNat - off)) hi hlive
    (min n ((v.inode i).size.toNat - off)) 0 v (Nat.zero_le _) (Nat.sub_le _ 0) (.refl hwf)
    fun _ _ => rfl
  refine Via.bind hloop ?_
  rintro bytes u ⟨rfl, hext, hsame⟩
  refine Via.pure ⟨.inr ⟨?_, by omega, ?_⟩, hext.wf, hext.type_eq, contents_of_extends hext hsame⟩
  · simp
  · rw [View.contents, slice_map_range, Nat.sub_zero, Nat.add_zero]

/-! ### The system -/

/-- `((MAXOPBLOCKS-1-1-2) / 2) * 512` -/
def chunkMax : ℕ := (10 - 1 - 1 - 2) / 2 * 512

inductive Phase where
  /-- Outside; what the last call returned, and the bytes that it put at `addr`. -/
  | idle (ret : ℤ) (bytes : List UInt8)
  /-- In the loop of `filewrite`, after `i` bytes. -/
  | writing (addr : ℕ → UInt8) (n : Int32) (i : ℕ)

structure Transfer (P : Type) where
  who : P
  bytes : List UInt8
  deriving DecidableEq

structure Shared (P : Type) where
  fs : State
  off : ℕ
  readable : Bool
  writable : Bool
  phase : P → Phase
  transfers : List (Transfer P)

inductive Call (P : Type) where
  | fileread (p : P) (n : Int32)
  | filewrite (p : P) (addr : ℕ → UInt8) (n : Int32)
  /-- The next chunk of a call of `filewrite`, or its end. -/
  | chunk (p : P)

def Call.who {P : Type} : Call P → P
  | .fileread p _ | .filewrite p _ _ | .chunk p => p

section System

variable {P : Type} [DecidableEq P]

def Shared.setPhase (s : Shared P) (p : P) (ph : Phase) : Shared P :=
  { s with phase := Function.update s.phase p ph }

/-- `f->off += r`, if `r > 0`. -/
def Shared.advance (s : Shared P) (p : P) (fs : State) (r : ℤ) (bytes : List UInt8) : Shared P :=
  if 0 < r then
    { s with
      fs := fs
      off := (s.off + r.toNat) % 2 ^ 32
      transfers := s.transfers ++ [⟨p, bytes⟩] }
  else { s with fs := fs }

/-- The bytes of the chunk that starts at `i`. -/
def chunkBytes (addr : ℕ → UInt8) (i n : ℕ) : List UInt8 :=
  (range n).map fun k => addr (i + k)

variable (L : Layout) (devsw : Devsw) (inum : ℕ)

def writeChunk (s : Shared P) (p : P) (addr : ℕ → UInt8) (n : Int32) (i : ℕ) :
    Option (Shared P) :=
  if (i : ℤ) < n.toInt then
    let n1 := min (n.toInt.toNat - i) chunkMax
    match writei L devsw inum (fun k => addr (i + k)) s.off n1 s.fs with
    | .ok (r, fs) =>
      let s' := s.advance p fs r (chunkBytes addr i n1)
      if r < 0 then some (s'.setPhase p (.idle (if i = n.toInt then n.toInt else -1) []))
      else if r ≠ n1 then none
      else some (s'.setPhase p (.writing addr n (i + r.toNat)))
    | .error _ => none
  else some (s.setPhase p (.idle (if i = n.toInt then n.toInt else -1) []))

def shareStep (s : Shared P) : Call P → Option (Shared P)
  | .fileread p n =>
    match s.phase p with
    | .idle _ _ =>
      if s.readable = false then some (s.setPhase p (.idle (-1) []))
      else match readi L devsw inum s.off n.toUInt32.toNat s.fs with
        | .ok ((r, bytes), fs) => some ((s.advance p fs r bytes).setPhase p (.idle r bytes))
        | .error _ => none
    | .writing _ _ _ => none
  | .filewrite p addr n =>
    match s.phase p with
    | .idle _ _ =>
      if s.writable = false then some (s.setPhase p (.idle (-1) []))
      else some (s.setPhase p (.writing addr n 0))
    | .writing _ _ _ => none
  | .chunk p =>
    match s.phase p with
    | .idle _ _ => none
    | .writing addr n i => writeChunk L devsw inum s p addr n i

/-- The file is an allocated regular file of a well-formed file system, and nothing has been
transferred. -/
structure Opened (off₀ : ℕ) (s : Shared P) : Prop where
  wf : WellFormed L (s.fs.view L)
  type : ((s.fs.view L).inode inum).type = T_FILE
  off : s.off = off₀
  off_lt : off₀ < 2 ^ 32
  transfers : s.transfers = []

/-- What a step means for the process that takes it. A read returns what it transfers; a chunk
transfers the next bytes at `addr`, at least one; and a call of `filewrite` returns -1, or `n` when
`n` bytes are transferred. -/
def Gives : Call P → Phase → Phase → List UInt8 → Prop
  | .fileread _ _, .idle _ _, .idle ret got, bytes =>
    bytes = got ∧ (ret = -1 ∧ got = [] ∨ ret = got.length)
  | .filewrite _ addr n, .idle _ _, ph, bytes =>
    bytes = [] ∧ (ph = .idle (-1) [] ∨ ph = .writing addr n 0)
  | .chunk _, .writing addr n i, .writing addr' n' i', bytes => bytes ≠ [] ∧ addr' = addr ∧
      n' = n ∧ i' = i + bytes.length ∧ bytes = chunkBytes addr i bytes.length
  | .chunk _, .writing _ n i, .idle ret _, bytes =>
    bytes = [] ∧ (ret = -1 ∨ ret = n.toInt ∧ i = ret)
  | _, _, _, _ => False

/-- A step records what it transfers under the name of its process. -/
def Records (s : Shared P) (a : Call P) (s' : Shared P) : Prop :=
  ∃ bytes, Gives a (s.phase a.who) (s'.phase a.who) bytes ∧
    (∀ q, q ≠ a.who → s'.phase q = s.phase q) ∧
    s'.transfers = s.transfers ++ if bytes = [] then [] else [⟨a.who, bytes⟩]

def total (l : List (Transfer P)) : ℕ := (l.flatMap Transfer.bytes).length

/-- The transfers so far occupy consecutive ranges, from `off₀` to the offset. -/
structure Placed (off₀ : ℕ) (s : Shared P) : Prop where
  wf : WellFormed L (s.fs.view L)
  type : ((s.fs.view L).inode inum).type = T_FILE
  off_eq : s.off = off₀ + total s.transfers
  off_lt : s.off < 2 ^ 32
  held : ∀ l₁ t l₂, s.transfers = l₁ ++ t :: l₂ →
    slice ((s.fs.view L).contents inum) (off₀ + total l₁) t.bytes.length = t.bytes

end System

/-! ### Totals -/

section Totals

variable {P : Type} {l : List (Transfer P)} {t : Transfer P} {k off₀ : ℕ}

theorem total_cons (t : Transfer P) (l : List (Transfer P)) :
    total (t :: l) = t.bytes.length + total l := by
  rw [total, flatMap_cons, length_append, total]

theorem total_append (l₁ l₂ : List (Transfer P)) : total (l₁ ++ l₂) = total l₁ + total l₂ := by
  rw [total, flatMap_append, length_append, total, total]

end Totals

/-! ### The steps -/

section Runs

variable {P : Type} [DecidableEq P] {devsw : Devsw} {inum off₀ : ℕ} {s s' : Shared P} {p : P}

theorem length_contents (v : View) (i : ℕ) : (v.contents i).length = (v.inode i).size.toNat := by
  rw [View.contents, length_map, length_range]

omit [DecidableEq P] in
theorem Opened.placed (h : Opened L inum off₀ s) : Placed L inum off₀ s where
  wf := h.wf
  type := h.type
  off_eq := by
    rw [h.off, h.transfers]
    rfl
  off_lt := h.off ▸ h.off_lt
  held := by
    intro l₁ t l₂ heq
    rw [h.transfers] at heq
    exact nomatch (append_eq_nil_iff.mp heq.symm).2

theorem Placed.setPhase (h : Placed L inum off₀ s) (p : P) (ph : Phase) :
    Placed L inum off₀ (s.setPhase p ph) :=
  ⟨h.wf, h.type, h.off_eq, h.off_lt, h.held⟩

omit [DecidableEq P] in
theorem Placed.advance (h : Placed L inum off₀ s) {fs : State} {bytes : List UInt8} {r : ℤ}
    (hwf : WellFormed L (fs.view L)) (htype : ((fs.view L).inode inum).type = T_FILE)
    (hr : 0 < r → r = bytes.length ∧ s.off + bytes.length < 2 ^ 32 ∧
      slice ((fs.view L).contents inum) s.off bytes.length = bytes) (hold : ∀ a n, a + n ≤ s.off →
      slice ((fs.view L).contents inum) a n = slice ((s.fs.view L).contents inum) a n) :
    Placed L inum off₀ (s.advance p fs r bytes) := by
  have hkeep : ∀ l₁ t l₂, s.transfers = l₁ ++ t :: l₂ →
      slice ((fs.view L).contents inum) (off₀ + total l₁) t.bytes.length = t.bytes := by
    intro l₁ t l₂ heq
    rw [hold _ _ ?_, h.held l₁ t l₂ heq]
    rw [h.off_eq, heq, total_append, total_cons]
    omega
  unfold Shared.advance
  split_ifs with hpos
  · obtain ⟨rfl, hlt, hnew⟩ := hr hpos
    have hsum : (s.off + ((bytes.length : ℤ)).toNat) % 2 ^ 32 = s.off + bytes.length := by
      rw [Int.toNat_natCast, Nat.mod_eq_of_lt hlt]
    refine ⟨hwf, htype, ?_, ?_, fun l₁ t l₂ heq => ?_⟩
    · have hone : total [(⟨p, bytes⟩ : Transfer P)] = bytes.length := by simp [total]
      dsimp only
      rw [hsum, h.off_eq, total_append, hone, Nat.add_assoc]
    · dsimp only
      rw [hsum]
      exact hlt
    rcases eq_nil_or_concat l₂ with rfl | ⟨l₂, x, rfl⟩
    · obtain ⟨rfl, hx⟩ := append_inj' heq rfl
      cases hx
      rw [← h.off_eq]
      exact hnew
    have heq' : s.transfers ++ [⟨p, bytes⟩] = (l₁ ++ t :: l₂) ++ [x] := by
      dsimp only at heq
      rw [heq]
      simp
    exact hkeep l₁ t l₂ (append_inj' heq' rfl).1
  · exact ⟨hwf, htype, h.off_eq, h.off_lt, hkeep⟩

theorem records_setPhase {a : Call P} {ph : Phase} {b : List UInt8}
    (hg : Gives a (s.phase a.who) ph b) (hph : s'.phase = s.phase)
    (ht : s'.transfers = s.transfers ++ if b = [] then [] else [⟨a.who, b⟩]) :
    Records s a (s'.setPhase a.who ph) := by
  refine ⟨b, ?_, fun q hq => ?_, ht⟩
  · have hself : (s'.setPhase a.who ph).phase a.who = ph := Function.update_self ..
    rwa [hself]
  · exact (Function.update_of_ne hq ph s'.phase).trans (congrFun hph q)

omit [DecidableEq P] in
theorem phase_advance (s : Shared P) (p : P) (fs : State) (r : ℤ) (bytes : List UInt8) :
    (s.advance p fs r bytes).phase = s.phase := by
  unfold Shared.advance
  split <;> rfl

omit [DecidableEq P] in
theorem transfers_advance {fs : State} {r : ℤ} {bytes : List UInt8} (hr : r = bytes.length) :
    (s.advance p fs r bytes).transfers =
      s.transfers ++ if bytes = [] then [] else [⟨p, bytes⟩] := by
  unfold Shared.advance
  cases bytes with
  | nil =>
    rw [if_neg (by simp [hr]), if_pos rfl]
    exact (append_nil _).symm
  | cons c bytes => rw [if_pos (by simp [hr]), if_neg (cons_ne_nil _ _)]

omit [DecidableEq P] in
theorem transfers_advance_neg {fs : State} {bytes : List UInt8} :
    (s.advance p fs (-1) bytes).transfers = s.transfers ++ [] :=
  (append_nil s.transfers).symm

theorem live_of_file {v : View} (h : (v.inode inum).type = T_FILE) :
    (v.inode inum).type ≠ 0 ∧ (v.inode inum).type ≠ T_DEV := by
  rw [h]
  decide

theorem Placed.writeChunk (hinum : inum < L.ninodes) (h : Placed L inum off₀ s)
    {addr : ℕ → UInt8} {n : Int32} {i : ℕ} (hp : s.phase p = .writing addr n i)
    (hs : writeChunk L devsw inum s p addr n i = some s') :
    Placed L inum off₀ s' ∧ Records s (.chunk p) s' := by
  obtain ⟨hlive, hdev⟩ := live_of_file h.type
  have hend : Gives (.chunk p) (s.phase p) (.idle (if i = n.toInt then n.toInt else -1) []) [] := by
    rw [hp]
    refine ⟨rfl, ?_⟩
    split_ifs with hi
    · exact .inr ⟨rfl, hi⟩
    · exact .inl rfl
  unfold Fs.writeChunk at hs
  split at hs
  case isFalse =>
    cases hs
    exact ⟨h.setPhase p _, records_setPhase hend rfl (append_nil _).symm⟩
  case isTrue hin =>
  dsimp only at hs
  set n1 := min (n.toInt.toNat - i) chunkMax with hn1
  have hmax : n1 ≤ 1536 := Nat.min_le_right _ _
  have hlen : (chunkBytes addr i n1).length = n1 := by
    rw [chunkBytes, length_map, length_range]
  split at hs
  case h_2 => cases hs
  case h_1 r fs hrun =>
  by_cases href : WriteRefused ((s.fs.view L).inode inum).size.toNat s.off n1
  · rw [view_inode hinum] at href hdev
    rw [writei_refused hdev h.off_lt (by omega) href] at hrun
    cases hrun
    rw [if_pos (by decide)] at hs
    cases hs
    have hadv : Placed L inum off₀ (s.advance p s.fs (-1) (chunkBytes addr i n1)) :=
      h.advance h.wf h.type (fun hr => absurd hr (by decide)) fun _ _ _ => rfl
    exact ⟨hadv.setPhase p _, records_setPhase hend (phase_advance ..) transfers_advance_neg⟩
  have hvia := via_writei devsw (fun k => addr (i + k)) hinum h.wf hlive hdev h.off_lt
    (by omega) href
  obtain ⟨w, hw, rfl, hwritten, -⟩ := (hvia s.fs rfl).of_ok hrun
  have hw' : fs.view L = w := hw
  subst hw'
  have hle : s.off ≤ ((s.fs.view L).inode inum).size.toNat :=
    Nat.not_lt.mp fun hc => href (.inl hc)
  have hroom : ¬ 2 ^ 32 ≤ s.off + n1 := fun hc => href (.inr (.inl hc))
  have hcontents := hwritten.contents_eq hle
  have hle' : s.off ≤ ((s.fs.view L).contents inum).length := by
    rw [length_contents]
    exact hle
  have hadv : Placed L inum off₀ (s.advance p fs n1 (chunkBytes addr i n1)) := by
    refine h.advance hwritten.wf ?_ (fun _ => ⟨?_, ?_, ?_⟩) fun a m ham => ?_
    · rw [hwritten.inode_self]
      exact h.type
    · rw [hlen]
    · rw [hlen]
      omega
    · rw [hcontents]
      exact slice_splice_self hle'
    · rw [hcontents]
      exact slice_splice_of_disjoint hle' (.inl ham)
  rw [if_neg (by omega), if_neg (fun hc => hc rfl)] at hs
  cases hs
  refine ⟨hadv.setPhase p _, records_setPhase (a := .chunk p) (b := chunkBytes addr i n1) ?_
    (phase_advance ..) (transfers_advance (by rw [hlen]))⟩
  change Gives (.chunk p) (s.phase p) _ _
  rw [hp, Int.toNat_natCast]
  have hpos : 0 < n1 := Nat.lt_min.mpr ⟨by omega, by decide⟩
  exact ⟨ne_nil_of_length_pos (by omega), rfl, rfl, by rw [hlen], by rw [hlen]⟩

omit [DecidableEq P] in
theorem Placed.fileread (hinum : inum < L.ninodes) (h : Placed L inum off₀ s) {n : ℕ} {r : ℤ}
    {bytes : List UInt8} {fs : State} (hn : n < 2 ^ 32)
    (hrun : readi L devsw inum s.off n s.fs = .ok ((r, bytes), fs)) :
    Placed L inum off₀ (s.advance p fs r bytes) ∧ (r = -1 ∧ bytes = [] ∨ r = bytes.length) := by
  obtain ⟨hlive, hdev⟩ := live_of_file h.type
  have hvia := via_readi devsw hinum h.wf hlive hdev h.off_lt hn
  obtain ⟨w, hw, hr, hwf, htype, hcontents⟩ := (hvia s.fs rfl).of_ok hrun
  have hw' : fs.view L = w := hw
  subst hw'
  refine ⟨h.advance hwf (htype.trans h.type) (fun hpos => ?_) fun a m _ => by rw [hcontents],
    hr.imp (fun hr => Prod.mk.inj hr) fun hr => hr.1⟩
  rcases hr with hr | ⟨hr, hle, hbytes⟩
  · cases hr
    exact absurd hpos (by decide)
  dsimp only at hr hbytes
  have hlen : s.off + bytes.length ≤ ((s.fs.view L).inode inum).size.toNat := by
    rw [hbytes, slice, length_take, length_drop, length_contents]
    omega
  refine ⟨hr, hlen.trans_lt (UInt32.toNat_lt _), ?_⟩
  have hcut : bytes.length = min n (((s.fs.view L).contents inum).length - s.off) := by
    rw [hbytes, slice, length_take, length_drop]
  rw [hcontents, slice, hcut, ← length_drop, take_eq_take_min.symm]
  exact hbytes.symm

theorem Placed.step (hinum : inum < L.ninodes) (h : Placed L inum off₀ s) {a : Call P}
    (hs : shareStep L devsw inum s a = some s') : Placed L inum off₀ s' ∧ Records s a s' := by
  cases a with
  | fileread p n =>
    rw [shareStep] at hs
    split at hs
    case h_2 => cases hs
    case h_1 hp =>
    have hgives : ∀ {ret : ℤ} {got : List UInt8}, ret = -1 ∧ got = [] ∨ ret = got.length →
        Gives (.fileread p n) (s.phase p) (.idle ret got) got := by
      intro ret got hret
      rw [hp]
      exact ⟨rfl, hret⟩
    split at hs
    case isTrue =>
      cases hs
      exact ⟨h.setPhase p _, records_setPhase (hgives (.inl ⟨rfl, rfl⟩)) rfl (append_nil _).symm⟩
    case isFalse =>
    split at hs
    case h_1 r bytes fs hrun =>
      cases hs
      obtain ⟨hadv, hr⟩ := h.fileread (p := p) hinum (UInt32.toNat_lt _) hrun
      refine ⟨hadv.setPhase p _, records_setPhase (hgives hr) (phase_advance ..) ?_⟩
      rcases hr with ⟨rfl, rfl⟩ | hr
      · exact transfers_advance_neg
      · exact transfers_advance hr
    case h_2 => cases hs
  | filewrite p addr n =>
    rw [shareStep] at hs
    split at hs
    case h_2 => cases hs
    case h_1 hp =>
    have hgives : ∀ {ph}, ph = .idle (-1) [] ∨ ph = .writing addr n 0 →
        Gives (.filewrite p addr n) (s.phase p) ph [] := by
      intro ph hph
      rw [hp]
      exact ⟨rfl, hph⟩
    split at hs <;> cases hs
    · exact ⟨h.setPhase p _, records_setPhase (hgives (.inl rfl)) rfl (append_nil _).symm⟩
    · exact ⟨h.setPhase p _, records_setPhase (hgives (.inr rfl)) rfl (append_nil _).symm⟩
  | chunk p =>
    rw [shareStep] at hs
    split at hs
    case h_1 => cases hs
    case h_2 hp => exact h.writeChunk hinum hp hs

/-- An image with an empty regular file in memory and nothing else. -/
def bareFile : State := bareFs.cache 1 ⟨T_FILE, 0, 0, 1, 0, fun _ => 0⟩

theorem inode_bareFile_one :
    (bareFile.view stdLayout).inode 1 = ⟨T_FILE, 0, 0, 1, 0, fun _ => 0⟩ := rfl

theorem slot_bareFile (a : Slot) : (bareFile.view stdLayout).slot a = 0 := by
  have haddr : ∀ i k, (bareFile.view stdLayout).slot (.addr i k) = 0 := by
    intro i k
    rcases eq_or_ne i 1 with rfl | hi
    · rw [View.slot_addr, inode_bareFile_one]
      simp [Inode.addr]
    have hinode : (bareFile.view stdLayout).inode i = (bareFs.view stdLayout).inode i := by
      rw [bareFile, view_setInode (by decide)]
      exact Function.update_of_ne hi _ _
    rw [View.slot_addr, hinode]
    exact if_pos (inode_bareFs_of_ne hi)
  cases a with
  | addr i k => exact haddr i k
  | entry i j => exact if_pos (.inl (haddr i NDIRECT))

theorem wellFormed_bareFile : WellFormed stdLayout (bareFile.view stdLayout) where
  owned := by
    have hslot : (bareFile.view stdLayout).slot = (bareFs.view stdLayout).slot :=
      funext fun a => (slot_bareFile a).trans (slot_bareFs a).symm
    rw [hslot]
    exact wellFormed_bareFs.owned
  metadata := wellFormed_bareFs.metadata

end Runs

end Xv6.Fs
