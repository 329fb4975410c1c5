import Xv6.Lib.Monitor
import Xv6.Lib.Ring

/-!
# Pipes

`pipewrite`, `piperead` and `pipeclose` of `pipe.c`, run by any number of processes under `p->lock`.
Each test, each byte, each wakeup and each sleep is a step of its own, so that a process can be
killed between any two of them. A call that sleeps in the middle goes on where it was when it has
the lock again.

The shared data records beside the pipe the bytes that were stored and the bytes that were
delivered, in order.
-/

namespace Xv6.Pipe

open Monitor

def PIPESIZE : ℕ := 512

instance : NeZero PIPESIZE := ⟨by decide⟩

instance : Ring.Size PIPESIZE := ⟨by decide, by decide⟩

/-- `struct pipe`, without its lock. -/
structure Data where
  data : Fin PIPESIZE → UInt8
  nread : UInt32
  nwrite : UInt32
  readopen : Bool
  writeopen : Bool

/-- The pipe, whether its page has been freed, and the bytes that passed through it. -/
structure Shared extends Data where
  freed : Bool
  stored : List UInt8
  delivered : List UInt8

/-- The channels `&p->nread` and `&p->nwrite`. -/
inductive Chan where
  | nread
  | nwrite
  deriving DecidableEq

/-- What a call returns, and for `piperead` the bytes that it put at `addr`. -/
structure Result where
  ret : ℤ
  bytes : List UInt8
  deriving DecidableEq

/-- The program points. In `pipewrite`, `since` is the number of bytes that the call has stored
since it last acquired the lock. -/
inductive Pc where
  /-- The tests of the two loops of `pipewrite`, and the store. -/
  | wtest (addr : ℕ → UInt8) (n : ℤ) (i since : ℕ)
  | wwake (addr : ℕ → UInt8) (n : ℤ) (i : ℕ)
  | wsleep (addr : ℕ → UInt8) (n : ℤ) (i : ℕ)
  | wdone (addr : ℕ → UInt8) (n : ℤ)
  | wrelease (addr : ℕ → UInt8) (n : ℤ)
  /-- The test of the first loop of `piperead`. -/
  | rtest (n : ℤ)
  | rsleep (n : ℤ)
  | rcopy (n : ℤ) (bytes : List UInt8)
  | rdone (n : ℤ) (bytes : List UInt8)
  | rrelease (n : ℤ) (bytes : List UInt8)
  | cmark (writable : Bool)
  | cwake (writable : Bool)
  | crelease

namespace Data

variable (p : Data)

def Full : Prop := p.nwrite = p.nread + UInt32.ofNat PIPESIZE

def Empty : Prop := p.nread = p.nwrite

instance : Decidable p.Full := inferInstanceAs (Decidable (_ = _))

instance : Decidable p.Empty := inferInstanceAs (Decidable (_ = _))

end Data

namespace Shared

variable (d : Shared)

/-- `p->data[p->nwrite++ % PIPESIZE] = c` -/
def store (c : UInt8) : Shared :=
  { d with
    data := Function.update d.data (Ring.cell PIPESIZE d.nwrite) c
    nwrite := d.nwrite + 1
    stored := d.stored ++ [c] }

/-- The byte `p->data[p->nread % PIPESIZE]`. -/
def front : UInt8 := d.data (Ring.cell PIPESIZE d.nread)

/-- `addr[i] = p->data[p->nread++ % PIPESIZE]` -/
def deliver : Shared :=
  { d with nread := d.nread + 1, delivered := d.delivered ++ [d.front] }

def closeEnd (writable : Bool) : Shared :=
  if writable then { d with writeopen := false } else { d with readopen := false }

end Shared

def body (killed : Bool) (d : Shared) : Pc → Shared × Effect Pc Chan Result
  | .wtest addr n i since =>
    if i < n then
      if d.Full then
        if d.readopen = false ∨ killed = true then (d, .leave ⟨-1, []⟩)
        else (d, .goto (.wwake addr n i))
      else (d.store (addr i), .goto (.wtest addr n (i + 1) (since + 1)))
    else (d, .goto (.wdone addr n))
  | .wwake addr n i => (d, .wakeup .nread (.wsleep addr n i))
  | .wsleep addr n i => (d, .sleep .nwrite (.wtest addr n i 0))
  | .wdone addr n => (d, .wakeup .nread (.wrelease addr n))
  | .wrelease _ n => (d, .leave ⟨n, []⟩)
  | .rtest n =>
    if d.Empty ∧ d.writeopen = true then
      if killed = true then (d, .leave ⟨-1, []⟩) else (d, .goto (.rsleep n))
    else (d, .goto (.rcopy n []))
  | .rsleep n => (d, .sleep .nread (.rtest n))
  | .rcopy n bytes =>
    if bytes.length < n ∧ ¬ d.Empty then
      (d.deliver, .goto (.rcopy n (bytes ++ [d.front])))
    else (d, .goto (.rdone n bytes))
  | .rdone n bytes => (d, .wakeup .nwrite (.rrelease n bytes))
  | .rrelease _ bytes => (d, .leave ⟨bytes.length, bytes⟩)
  | .cmark writable => (d.closeEnd writable, .goto (.cwake writable))
  | .cwake writable => (d, .wakeup (if writable then .nread else .nwrite) .crelease)
  | .crelease =>
    if d.readopen = false ∧ d.writeopen = false then ({ d with freed := true }, .leave ⟨0, []⟩)
    else (d, .leave ⟨0, []⟩)

/-- Where `pipewrite`, `piperead` and `pipeclose` start. -/
def entry : Pc → Bool
  | .wtest _ _ 0 0 => true
  | .rtest _ => true
  | .cmark _ => true
  | _ => false

/-- The code. What happens to a page that has been freed is no longer the business of the pipe. -/
def code : Code Shared Pc Chan Result where
  entry := entry
  act := fun killed pc d => if d.freed then none else some (body killed d pc)

/-- The data after `pipealloc`. -/
structure Made (d : Shared) : Prop where
  nread : d.nread = 0
  nwrite : d.nwrite = 0
  readopen : d.readopen = true
  writeopen : d.writeopen = true
  freed : d.freed = false
  stored : d.stored = []
  delivered : d.delivered = []

section

variable {P : Type} [DecidableEq P]

abbrev System (P : Type) := State P Shared Pc Chan Result

def Start (s : System P) : Prop := Fresh Made s

def fresh : System P where
  data :=
    { data := fun _ => 0, nread := 0, nwrite := 0, readopen := true, writeopen := true,
      freed := false, stored := [], delivered := [] }
  lock := none
  proc := fun _ => { phase := .out ⟨0, []⟩, killed := false, chan := none }

omit [DecidableEq P] in
theorem start_fresh : Start (fresh : System P) where
  data := ⟨rfl, rfl, rfl, rfl, rfl, rfl, rfl⟩
  lock := rfl
  out := fun _ => ⟨_, rfl⟩
  awake := fun _ => rfl

variable {d d' : Shared} {pc : Pc} {k : Bool} {e : Effect Pc Chan Result} {s s' : System P}

theorem body_of_act (h : code.act k pc d = some (d', e)) : body k d pc = (d', e) := by
  unfold code at h
  dsimp only at h
  split at h
  · cases h
  · exact Option.some.inj h

/-! ### The stream -/

/-- The cells from `nread` to `nwrite` hold the bytes that were stored and not delivered. -/
def Fifo (d : Shared) : Prop :=
  ∃ q, d.stored = d.delivered ++ q ∧ Ring.Holds d.data d.nread d.nwrite q

theorem Made.fifo (h : Made d) : Fifo d := by
  refine ⟨[], ?_, ?_⟩
  · rw [h.stored, h.delivered, List.append_nil]
  · rw [h.nread, h.nwrite]
    exact .nil d.data 0

theorem Fifo.store (h : Fifo d) (hfull : ¬ d.Full) (c : UInt8) : Fifo (d.store c) := by
  obtain ⟨q, hq, hring⟩ := h
  have hlt : q.length < PIPESIZE :=
    lt_of_le_of_ne hring.length_le fun he => hfull (hring.full_iff.mpr he)
  refine ⟨q ++ [c], ?_, hring.push hlt c⟩
  simp only [Shared.store, hq, List.append_assoc]

theorem Fifo.deliver (h : Fifo d) (hempty : ¬ d.Empty) : Fifo d.deliver := by
  obtain ⟨q, hq, hring⟩ := h
  cases q with
  | nil => exact absurd (hring.empty_iff.mpr rfl) hempty
  | cons c q =>
  obtain ⟨hc, hring'⟩ := hring.pop
  refine ⟨q, ?_, hring'⟩
  simp only [Shared.deliver, Shared.front, hc, List.append_assoc, List.singleton_append]
  exact hq

theorem Fifo.closeEnd (h : Fifo d) (writable : Bool) : Fifo (d.closeEnd writable) := by
  cases writable <;> exact h

/-! ### What is known at each point -/

/-- What the call found, and what no one else can have changed since. -/
def Knows : Pc → Shared → Prop
  | .wwake _ _ _, d => d.Full ∧ d.readopen = true
  | .wsleep _ _ _, d => d.Full ∧ d.readopen = true
  | .rsleep _, d => d.Empty ∧ d.writeopen = true
  | .rcopy _ bytes, d => bytes = [] → ¬ (d.Empty ∧ d.writeopen = true)
  | .rdone n bytes, d => bytes = [] → 0 < n → d.Empty ∧ d.writeopen = false
  | .rrelease n bytes, d => bytes = [] → 0 < n → d.Empty ∧ d.writeopen = false
  | _, _ => True

theorem knows_of_entry (h : entry pc = true) : Knows pc d := by
  cases pc <;> trivial

theorem body_sound (hi : Fifo d) (hk : Knows pc d) (h : body k d pc = (d', e)) :
    Fifo d' ∧ e.After Fifo Knows d' := by
  cases pc with
  | wtest addr n i since =>
    rw [body] at h
    split_ifs at h with hin hfull hstop <;> cases h
    · exact ⟨hi, trivial⟩
    · refine ⟨hi, hfull, ?_⟩
      simpa using fun ho => hstop (.inl ho)
    · exact ⟨hi.store hfull _, trivial⟩
    · exact ⟨hi, trivial⟩
  | wwake | rdone =>
    cases h
    exact ⟨hi, hk⟩
  | wsleep | rsleep =>
    cases h
    exact ⟨hi, fun _ _ => trivial⟩
  | wdone | wrelease | rrelease | cwake =>
    cases h
    exact ⟨hi, trivial⟩
  | rtest n =>
    rw [body] at h
    split_ifs at h with hwait hkilled <;> cases h
    · exact ⟨hi, trivial⟩
    · exact ⟨hi, hwait⟩
    · exact ⟨hi, fun _ => hwait⟩
  | rcopy n bytes =>
    rw [body] at h
    split_ifs at h with hmore
    · cases h
      exact ⟨hi.deliver hmore.2, fun hb => absurd hb (by simp)⟩
    cases h
    refine ⟨hi, fun hb hn => ?_⟩
    -- nothing was copied although bytes were wanted, so that the pipe was empty at once
    subst hb
    have hempty : d.Empty := by
      by_contra hne
      exact hmore ⟨hn, hne⟩
    exact ⟨hempty, by simpa using fun ho => hk rfl ⟨hempty, ho⟩⟩
  | cmark writable =>
    cases h
    exact ⟨hi.closeEnd writable, trivial⟩
  | crelease =>
    rw [body] at h
    split_ifs at h <;> cases h
    · exact ⟨hi, trivial⟩
    · exact ⟨hi, trivial⟩

theorem code_sound (ok : Bool → Pc → Shared → Prop) : Sound code ok Fifo Knows where
  entry := fun h _ => knows_of_entry h
  act := fun _ hi hk h => body_sound hi hk (body_of_act h)

omit [DecidableEq P] in
theorem Start.fresh (h : Start s) : Fresh Fifo s :=
  ⟨Made.fifo h.data, h.lock, h.out, h.awake⟩

/-! ### First in, first out -/

/-- The argument of the call of `piperead` that is at this point. -/
def Pc.reads : Pc → Option ℤ
  | .rtest n => some n
  | .rsleep n => some n
  | .rcopy n _ => some n
  | .rdone n _ => some n
  | .rrelease n _ => some n
  | _ => none

/-- What the call returns, where it is over. -/
def Pc.due : Pc → Option ℤ
  | .wrelease _ n => some n
  | .rrelease _ bytes => some bytes.length
  | .crelease => some 0
  | _ => none

/-- The bytes that a call of `pipewrite` is to store. -/
def bufferOf (addr : ℕ → UInt8) (n : ℤ) : List UInt8 := (List.range n.toNat).map addr

/-- The bytes that the call has stored. -/
def Pc.written : Pc → List UInt8
  | .wtest addr n i _ | .wwake addr n i | .wsleep addr n i => (bufferOf addr n).take i
  | .wdone addr n | .wrelease addr n => bufferOf addr n
  | _ => []

/-- The bytes that the call has put at its `addr`. -/
def Pc.taken : Pc → List UInt8
  | .rcopy _ bytes | .rdone _ bytes | .rrelease _ bytes => bytes
  | _ => []

/-- What a step from `pc` passes on: the bytes that it stores are the next ones of its buffer, the
bytes that it takes from the pipe go behind those it has, and what the call has when it returns are
the bytes that it returns. -/
def Passes (pc : Pc) (d d' : Shared) : Phase Pc Result → Prop
  | .inside pc' | .wants pc' => ∃ u v, d'.stored = d.stored ++ u ∧ pc'.written = pc.written ++ u ∧
      d'.delivered = d.delivered ++ v ∧ pc'.taken = pc.taken ++ v
  | .out r => d'.stored = d.stored ∧ d'.delivered = d.delivered ∧ r.bytes = pc.taken ∧
      (r.ret = -1 ∨ pc.due = some r.ret)

theorem passes_of_eq {pc' : Pc} (hs : d'.stored = d.stored) (hd : d'.delivered = d.delivered)
    (hw : pc'.written = pc.written) (ht : pc'.taken = pc.taken) :
    Passes pc d d' (.inside pc') ∧ Passes pc d d' (.wants pc') := by
  have h : Passes pc d d' (.inside pc') :=
    ⟨[], [], by rw [hs, List.append_nil], by rw [hw, List.append_nil],
      by rw [hd, List.append_nil], by rw [ht, List.append_nil]⟩
  exact ⟨h, h⟩

theorem length_bufferOf (addr : ℕ → UInt8) (n : ℤ) : (bufferOf addr n).length = n.toNat := by
  rw [bufferOf, List.length_map, List.length_range]

theorem take_succ_bufferOf {addr : ℕ → UInt8} {n : ℤ} {i : ℕ} (hi : i < n) :
    (bufferOf addr n).take (i + 1) = (bufferOf addr n).take i ++ [addr i] := by
  have hlt : i < (bufferOf addr n).length := by
    rw [length_bufferOf]
    omega
  rw [List.take_succ_eq_append_getElem hlt]
  simp [bufferOf]

theorem body_passes (h : body k d pc = (d', e)) : Passes pc d d' e.next := by
  cases pc with
  | wtest addr n i since =>
    rw [body] at h
    split_ifs at h with hin hfull hstop <;> cases h
    · exact ⟨rfl, rfl, rfl, .inl rfl⟩
    · exact (passes_of_eq rfl rfl rfl rfl).1
    · exact ⟨[addr i], [], rfl, take_succ_bufferOf hin, (List.append_nil _).symm, rfl⟩
    · have hall : (Pc.wdone addr n).written = (Pc.wtest addr n i since).written := by
        refine (List.take_of_length_le ?_).symm
        have hlen := length_bufferOf addr n
        change (bufferOf addr n).length ≤ i
        omega
      exact (passes_of_eq rfl rfl hall rfl).1
  | rtest n =>
    rw [body] at h
    split_ifs at h <;> cases h
    · exact ⟨rfl, rfl, rfl, .inl rfl⟩
    · exact (passes_of_eq rfl rfl rfl rfl).1
    · exact (passes_of_eq rfl rfl rfl rfl).1
  | rcopy n bytes =>
    rw [body] at h
    split_ifs at h <;> cases h
    · exact ⟨[], [d.front], (List.append_nil _).symm, rfl, rfl, rfl⟩
    · exact (passes_of_eq rfl rfl rfl rfl).1
  | cmark writable =>
    cases h
    cases writable <;> exact (passes_of_eq rfl rfl rfl rfl).1
  | crelease =>
    rw [body] at h
    split_ifs at h <;> cases h <;> exact ⟨rfl, rfl, rfl, .inr rfl⟩
  | wsleep | rsleep =>
    cases h
    exact (passes_of_eq rfl rfl rfl rfl).2
  | wrelease | rrelease =>
    cases h
    exact ⟨rfl, rfl, rfl, .inr rfl⟩
  | _ =>
    cases h
    exact (passes_of_eq rfl rfl rfl rfl).1

theorem rrelease_of_due {n : ℤ} (hn : pc.reads = some n) (hr : pc.due = some 0) :
    pc = .rrelease n [] := by
  cases pc with
  | rrelease m bytes =>
    cases hn
    have hb : bytes = [] := by simpa [Pc.due] using hr
    rw [hb]
  | wrelease | crelease => cases hn
  | _ => cases hr

theorem Fifo.get (h : Fifo d) {i : ℕ} {c : UInt8}
    (hc : d.stored[d.delivered.length + i]? = some c) :
    d.data (Ring.cell PIPESIZE (d.nread + UInt32.ofNat i)) = c := by
  obtain ⟨q, hq, hring⟩ := h
  rw [hq, List.getElem?_append_right (Nat.le_add_right _ _), Nat.add_sub_cancel_left] at hc
  obtain ⟨hi, hget⟩ := List.getElem?_eq_some_iff.mp hc
  exact (hring.get i hi).trans hget

theorem Fifo.length_le (h : Fifo d) : d.stored.length ≤ d.delivered.length + PIPESIZE := by
  obtain ⟨q, hq, hring⟩ := h
  rw [hq, List.length_append]
  exact Nat.add_le_add_left hring.length_le _

/-- **A pipe is a first-in first-out stream.** In every interleaving of any number of processes,
however long: what was delivered is a prefix of what was stored; at most `PIPESIZE` bytes are on
their way; each of them is still in the cell where it was stored; a call `piperead(p, addr, n)`
with `n > 0` returns 0 only when the pipe is empty and its write end is closed; and only calls store
and take bytes, a writer those of its buffer one after the other, until it has stored all of them or
returns -1, and a reader those that it returns. -/
theorem pipe_fifo (h : Run.Reachable (step code) (fun _ _ => True) Start s) :
    s.data.delivered <+: s.data.stored ∧ s.data.stored.length ≤ s.data.delivered.length + PIPESIZE ∧
      (∀ i c, s.data.stored[s.data.delivered.length + i]? = some c →
        s.data.data (Ring.cell PIPESIZE (s.data.nread + UInt32.ofNat i)) = c) ∧
      (∀ p pc n r a s', (s.proc p).phase = .inside pc → pc.reads = some n → 0 < n →
        step code s a = some s' → (s'.proc p).phase = .out r → r.ret = 0 →
        s.data.nread = s.data.nwrite ∧ s.data.writeopen = false) ∧
      ∀ a s', step code s a = some s' →
        (∀ p pc, (s.proc p).phase = .inside pc → Passes pc s.data s'.data (s'.proc p).phase) ∧
        ((∀ p pc, (s.proc p).phase ≠ .inside pc) → s'.data = s.data) := by
  have hinv : Inv Fifo Knows s := by
    refine Reachable.inv (code_sound fun _ _ _ => True) (fun s hs => Start.fresh hs) ?_
    exact h.mono fun s a _ _ => permits_of_forall (fun _ _ _ => trivial) s a
  have htrans : ∀ {a s'}, step code s a = some s' → Trans code (fun _ _ _ => True) s s' :=
    fun {a} {_} hstep => trans_of_step (permits_of_forall (fun _ _ _ => trivial) s a) hstep
  have hpasses : ∀ {a s' p pc}, step code s a = some s' → (s.proc p).phase = .inside pc →
      Passes pc s.data s'.data (s'.proc p).phase := by
    intro a s' p pc hstep hp
    rcases hinv.inside_step hp (htrans hstep) with ⟨hd, hp'⟩ | ⟨e, hact, hp'⟩
    · rw [hp', hd]
      exact (passes_of_eq rfl rfl rfl rfl).1
    · rw [hp']
      exact body_passes (body_of_act hact)
  refine ⟨?_, hinv.data.length_le, fun i c => hinv.data.get, ?_, fun a s' hstep =>
    ⟨fun p pc hp => hpasses hstep hp, (htrans hstep).data_eq⟩⟩
  · obtain ⟨q, hq, -⟩ := hinv.data
    exact ⟨q, hq.symm⟩
  intro p pc n r a s' hp hreads hn hstep hout hr
  have hret := hpasses hstep hp
  rw [hout] at hret
  obtain ⟨-, -, -, hneg | hdue⟩ := hret
  · rw [hr] at hneg
    cases hneg
  rw [rrelease_of_due hreads (hr ▸ hdue)] at hp
  exact (hinv.inside hp).2 rfl hn

/-- A reader sleeps, a writer stores one byte, and the reader takes it and returns it. -/
theorem pipe_fifo_one_byte : ∃ s : System Bool,
    Run.Reachable (step code) (fun _ _ => True) Start s ∧ (s.proc false).phase = .out ⟨1, [104]⟩ ∧
      s.data.delivered = [104] ∧ s.data.delivered <+: s.data.stored := by
  have hstart : Run.Reachable (step code) (fun _ _ => True) Start (fresh : System Bool) :=
    .start start_fresh
  obtain ⟨s, hs, hq⟩ := hstart.exists_of_exec
    ([.call false (.rtest 2), .run false, .run false, .run false,
      .call true (.wtest (fun _ => 104) 1 0 0), .run true, .run true, .run true, .run true,
      .run true, .run false, .run false, .run false, .run false, .run false,
      .run false] : List (Action Bool Pc))
    (fun s : System Bool => (s.proc false).phase.returned = some ⟨1, [104]⟩ ∧
      s.data.delivered = [104]) (by decide +kernel)
  obtain ⟨hout, hd⟩ := of_decide_eq_true hq
  exact ⟨s, hs, Phase.eq_out hout, hd, (pipe_fifo hs).1⟩

end

end Xv6.Pipe
