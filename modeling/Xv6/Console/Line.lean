import Xv6.Lib.Monitor
import Xv6.Lib.Ring

/-!
# The console

`consoleintr` and `consoleread` of `console.c`, under `cons.lock`. The keyboard and the serial line
call `consoleintr` with a batch of characters, which edits the line that is being typed; a newline,
an end of file (`^D`) or a full buffer commits it. `consoleread` takes committed characters, and
puts a `^D` back if it has characters to return first.

The shared data records beside the buffer the line that is being typed, the characters that were
committed, and those that were consumed: delivered, or taken as an end of file.
-/

namespace Xv6.Console

open Monitor List

def INPUT_BUF : ℕ := 128

instance : NeZero INPUT_BUF := ⟨by decide⟩

instance : Ring.Size INPUT_BUF := ⟨by decide, by decide⟩

def C (x : Char) : UInt8 := UInt8.ofNat (x.toNat - '@'.toNat)

def newline : UInt8 := UInt8.ofNat '\n'.toNat

def carriageReturn : UInt8 := UInt8.ofNat '\r'.toNat

/-- `(c == '\r') ? '\n' : c` -/
def translate (c : UInt8) : UInt8 := if c = carriageReturn then newline else c

structure Input where
  buf : Fin INPUT_BUF → UInt8
  r : UInt32
  w : UInt32
  e : UInt32

/-- The buffer, the line that is being typed, and what was committed and consumed. -/
structure Shared extends Input where
  line : List UInt8
  committed : List UInt8
  consumed : List UInt8

/-- The channel `&input.r`. -/
inductive Chan where
  | r
  deriving DecidableEq

inductive Result where
  /-- `consoleintr` ends; it may have to print the processes. -/
  | intr (doprocdump : Bool)
  /-- `consoleread` returns, with these bytes at `dst`. -/
  | read (ret : ℤ) (bytes : List UInt8)
  deriving DecidableEq

inductive Pc where
  | intr (batch : List UInt8) (doprocdump : Bool)
  | killLine (batch : List UInt8) (doprocdump : Bool)
  | wake (batch : List UInt8) (doprocdump : Bool)
  /-- The loops of `consoleread`. -/
  | read (target n : ℤ) (bytes : List UInt8)
  | sleep (target n : ℤ) (bytes : List UInt8)

namespace Shared

variable (d : Shared)

/-- `input.e--` -/
def erase : Shared := { d with e := d.e - 1, line := d.line.dropLast }

/-- `input.buf[input.e++ % INPUT_BUF] = c` -/
def type (c : UInt8) : Shared :=
  { d with
    buf := Function.update d.buf (Ring.cell INPUT_BUF d.e) c
    e := d.e + 1
    line := d.line ++ [c] }

/-- `input.w = input.e` -/
def commit : Shared := { d with w := d.e, line := [], committed := d.committed ++ d.line }

/-- The character `input.buf[input.r % INPUT_BUF]`. -/
def front : UInt8 := d.buf (Ring.cell INPUT_BUF d.r)

/-- `input.r++`, for a character that is not put back. -/
def consume : Shared := { d with r := d.r + 1, consumed := d.consumed ++ [d.front] }

def insert (c : UInt8) (batch : List UInt8) (doprocdump : Bool) :
    Shared × Effect Pc Chan Result :=
  if c ≠ 0 ∧ d.e - d.r < UInt32.ofNat INPUT_BUF then
    if translate c = newline ∨ translate c = C 'D' ∨
        (d.type (translate c)).e = d.r + UInt32.ofNat INPUT_BUF then
      ((d.type (translate c)).commit, .goto (.wake batch doprocdump))
    else (d.type (translate c), .goto (.intr batch doprocdump))
  else (d, .goto (.intr batch doprocdump))

end Shared

def body (killed : Bool) (d : Shared) : Pc → Shared × Effect Pc Chan Result
  | .intr [] doprocdump => (d, .leave (.intr doprocdump))
  | .intr (c :: batch) doprocdump =>
    if c = C 'P' then (d, .goto (.intr batch true))
    else if c = C 'U' then (d, .goto (.killLine batch doprocdump))
    else if c = C 'H' ∨ c = 0x7f then
      if d.e ≠ d.w then (d.erase, .goto (.intr batch doprocdump))
      else (d, .goto (.intr batch doprocdump))
    else d.insert c batch doprocdump
  | .killLine batch doprocdump =>
    if d.e ≠ d.w ∧ d.buf (Ring.cell INPUT_BUF (d.e - 1)) ≠ newline then
      (d.erase, .goto (.killLine batch doprocdump))
    else (d, .goto (.intr batch doprocdump))
  | .wake batch doprocdump => (d, .wakeup .r (.intr batch doprocdump))
  | .read target n bytes =>
    if 0 < n then
      if d.r = d.w then
        if killed = true then (d, .leave (.read (-1) bytes)) else (d, .goto (.sleep target n bytes))
      else if d.front = C 'D' then
        -- saved for next time if there is something to return first
        if n < target then (d, .leave (.read (target - n) bytes))
        else (d.consume, .leave (.read (target - n) bytes))
      else if d.front = newline then
        (d.consume, .leave (.read (target - (n - 1)) (bytes ++ [d.front])))
      else (d.consume, .goto (.read target (n - 1) (bytes ++ [d.front])))
    else (d, .leave (.read (target - n) bytes))
  | .sleep target n bytes => (d, .sleep .r (.read target n bytes))

/-- Where `consoleintr` and `consoleread` start. -/
def entry : Pc → Bool
  | .intr _ doprocdump => !doprocdump
  | .read target n bytes => n == target && bytes.isEmpty
  | _ => false

def code : Code Shared Pc Chan Result where
  entry := entry
  act := fun killed pc d => some (body killed d pc)

structure Boot (d : Shared) : Prop where
  r : d.r = 0
  w : d.w = 0
  e : d.e = 0
  line : d.line = []
  committed : d.committed = []
  consumed : d.consumed = []

/-- The states of the console, its interrupt handlers and its readers. -/
abbrev System (P : Type) := State P Shared Pc Chan Result

def Start {P : Type} (s : System P) : Prop := Fresh Boot s

variable {d d' : Shared} {pc : Pc} {k : Bool} {e : Effect Pc Chan Result}

/-! ### The buffer -/

/-- The buffer holds the characters that are committed and not consumed, and then the line, which
has no newline in it. -/
structure Edits (d : Shared) (unread : List UInt8) : Prop where
  ring : Ring.Holds d.buf d.r d.e (unread ++ d.line)
  write_eq : d.w = d.r + UInt32.ofNat unread.length
  committed : d.committed = d.consumed ++ unread
  line : newline ∉ d.line

def Edited (d : Shared) : Prop := ∃ unread, Edits d unread

theorem Boot.edited (h : Boot d) : Edited d := by
  refine ⟨[], ?_, ?_, ?_, ?_⟩
  · rw [h.r, h.e, h.line]
    exact .nil d.buf 0
  · rw [h.w, h.r]
    rfl
  · rw [h.committed, h.consumed, append_nil]
  · rw [h.line]
    exact not_mem_nil

namespace Edits

variable {unread : List UInt8}

section

variable (h : Edits d unread)

include h

theorem length_lt : unread.length < 2 ^ 32 := by
  have hlen := h.ring.length_lt
  rw [length_append] at hlen
  omega

theorem toNat_write : (d.w - d.r).toNat = unread.length := by
  rw [h.write_eq]
  exact Ring.toNat_add_sub h.length_lt d.r

theorem toNat_edit : (d.e - d.r).toNat = unread.length + d.line.length := by
  rw [h.ring.toNat_sub, length_append]

theorem line_ne_nil (he : d.e ≠ d.w) : d.line ≠ [] := by
  intro hl
  rw [h.ring.write_eq, h.write_eq, hl, append_nil] at he
  exact he rfl

theorem unread_ne_nil (he : d.r ≠ d.w) : unread ≠ [] := by
  rintro rfl
  rw [h.write_eq] at he
  exact he (by simp)

theorem erase (he : d.e ≠ d.w) :
    d.buf (Ring.cell INPUT_BUF (d.e - 1)) ≠ newline ∧ Edits d.erase unread := by
  have hlast := dropLast_append_getLast (h.line_ne_nil he)
  have hring := h.ring
  rw [← hlast, ← append_assoc] at hring
  obtain ⟨hbuf, hring'⟩ := hring.pop_last
  refine ⟨fun hn => h.line ?_, hring', h.write_eq, h.committed, fun hm => h.line ?_⟩
  · rw [← hn, hbuf]
    exact getLast_mem _
  · exact mem_of_mem_dropLast hm

theorem type (hroom : d.e - d.r < UInt32.ofNat INPUT_BUF) (c : UInt8) :
    Ring.Holds (d.type c).buf (d.type c).r (d.type c).e (unread ++ (d.type c).line) := by
  have hlt : (unread ++ d.line).length < INPUT_BUF := by
    rw [← h.ring.toNat_sub]
    exact UInt32.lt_iff_toNat_lt.mp hroom
  have hring := h.ring.push hlt c
  rwa [append_assoc] at hring

theorem commit_type (hroom : d.e - d.r < UInt32.ofNat INPUT_BUF) (c : UInt8) :
    Edits (d.type c).commit (unread ++ (d.type c).line) where
  ring := by
    have hring := h.type hroom c
    rwa [← append_nil (unread ++ (d.type c).line)] at hring
  write_eq := (h.type hroom c).write_eq
  committed := by
    simp only [Shared.commit, Shared.type, h.committed, append_assoc]
  line := not_mem_nil

theorem consume (hr : d.r ≠ d.w) : Edited d.consume := by
  cases unread with
  | nil => exact absurd rfl (h.unread_ne_nil hr)
  | cons c unread =>
  obtain ⟨hc, hring⟩ := Ring.Holds.pop (q := unread ++ d.line) h.ring
  refine ⟨unread, hring, ?_, ?_, h.line⟩
  · have hw := h.write_eq
    rw [length_cons, UInt32.ofNat_add, UInt32.add_comm (UInt32.ofNat unread.length),
      ← UInt32.add_assoc] at hw
    exact hw
  · have hfront : d.front = c := hc
    rw [Shared.consume, hfront, append_assoc]
    exact h.committed

end

end Edits

/-! ### The steps -/

theorem insert_edited {unread : List UInt8} {c : UInt8} {batch : List UInt8} {dump : Bool}
    (h : Edits d unread) (hb : d.insert c batch dump = (d', e)) : Edited d' := by
  unfold Shared.insert at hb
  split_ifs at hb with hroom hcommit <;> cases hb
  · exact ⟨_, h.commit_type hroom.2 _⟩
  · refine ⟨unread, h.type hroom.2 _, h.write_eq, h.committed, fun hm => ?_⟩
    rcases mem_append.mp hm with hm | hm
    · exact h.line hm
    · exact hcommit (.inl (mem_singleton.mp hm).symm)
  · exact ⟨unread, h⟩

/-- `n` is what is left of `target`, and a reader that goes to sleep has found nothing. -/
def Knows : Pc → Shared → Prop
  | .read target n bytes, _ => n + bytes.length = target
  | .sleep target n bytes, d => d.r = d.w ∧ n + bytes.length = target
  | _, _ => True

theorem insert_after {c : UInt8} {batch : List UInt8} {dump : Bool}
    (hb : d.insert c batch dump = (d', e)) : e.After Edited Knows d' := by
  unfold Shared.insert at hb
  split_ifs at hb <;> cases hb <;> trivial

theorem body_sound (hi : Edited d) (hk : Knows pc d) (h : body k d pc = (d', e)) :
    Edited d' ∧ e.After Edited Knows d' := by
  obtain ⟨unread, hu⟩ := hi
  cases pc with
  | intr batch dump =>
    cases batch with
    | nil =>
      cases h
      exact ⟨⟨unread, hu⟩, trivial⟩
    | cons c batch =>
    rw [body] at h
    split_ifs at h with hP hU hH he
    · cases h
      exact ⟨⟨unread, hu⟩, trivial⟩
    · cases h
      exact ⟨⟨unread, hu⟩, trivial⟩
    · cases h
      exact ⟨⟨unread, (hu.erase he).2⟩, trivial⟩
    · cases h
      exact ⟨⟨unread, hu⟩, trivial⟩
    · exact ⟨insert_edited hu h, insert_after h⟩
  | killLine batch dump =>
    rw [body] at h
    split_ifs at h with he <;> cases h
    · exact ⟨⟨unread, (hu.erase he.1).2⟩, trivial⟩
    · exact ⟨⟨unread, hu⟩, trivial⟩
  | wake batch dump =>
    cases h
    exact ⟨⟨unread, hu⟩, trivial⟩
  | read target n bytes =>
    have hk : n + bytes.length = target := hk
    rw [body] at h
    split_ifs at h with hn hr hkilled hD hlt hnl <;> cases h
    · exact ⟨⟨unread, hu⟩, trivial⟩
    · exact ⟨⟨unread, hu⟩, hr, hk⟩
    · exact ⟨⟨unread, hu⟩, trivial⟩
    · exact ⟨hu.consume hr, trivial⟩
    · exact ⟨hu.consume hr, trivial⟩
    · refine ⟨hu.consume hr, ?_⟩
      change n - 1 + ((bytes ++ [d.front]).length : ℤ) = target
      rw [length_append, length_singleton]
      omega
    · exact ⟨⟨unread, hu⟩, trivial⟩
  | sleep target n bytes =>
    cases h
    exact ⟨⟨unread, hu⟩, fun _ _ => hk.2⟩

theorem code_sound : Sound code (fun _ _ _ => True) Edited Knows where
  entry := by
    intro pc d h _
    cases pc with
    | read target n bytes =>
      obtain ⟨hn, hb⟩ := Bool.and_eq_true_iff.mp h
      change n + bytes.length = target
      rw [beq_iff_eq.mp hn, isEmpty_iff.mp hb, length_nil]
      exact add_zero target
    | sleep => cases h
    | _ => trivial
  act := fun _ hi hk h => body_sound hi hk (Option.some.inj h)

/-! ### Wakeups -/

/-- A reader may sleep while there is nothing committed to read. -/
def Reason (_ : Chan) (d : Shared) : Prop := d.r = d.w

/-- A line has been committed, and the readers are not yet woken. -/
def Owes (_ : Chan) : Pc → Prop
  | .wake _ _ => True
  | _ => False

theorem insert_settled {c : UInt8} {batch : List UInt8} {dump : Bool} {ch : Chan}
    (hr : Reason ch d) (hb : d.insert c batch dump = (d', e)) : e.Settled Reason Owes ch d' := by
  unfold Shared.insert at hb
  split_ifs at hb <;> cases hb
  · exact .inr trivial
  · exact .inl hr
  · exact .inl hr

theorem body_wakes {ch : Chan} (h : body k d pc = (d', e)) (hr : Reason ch d ∨ Owes ch pc) :
    e.Settled Reason Owes ch d' := by
  cases pc with
  | intr batch dump =>
    replace hr : Reason ch d := hr.resolve_right id
    cases batch with
    | nil =>
      cases h
      exact hr
    | cons c batch =>
    rw [body] at h
    split_ifs at h
    iterate 4
      · cases h
        exact .inl hr
    · exact insert_settled hr h
  | killLine batch dump =>
    replace hr : Reason ch d := hr.resolve_right id
    rw [body] at h
    split_ifs at h <;> cases h
    · exact .inl hr
    · exact .inl hr
  | wake batch dump =>
    cases h
    exact .inl rfl
  | read target n bytes =>
    replace hr : d.r = d.w := hr.resolve_right id
    rw [body, if_pos hr] at h
    split_ifs at h <;> cases h
    · exact hr
    · exact .inl hr
    · exact hr
  | sleep target n bytes =>
    cases h
    exact hr.resolve_right id

theorem reason_of_sleep {ch : Chan} {pc' : Pc} (hk : Knows pc d)
    (h : body k d pc = (d', .sleep ch pc')) : Reason ch d' := by
  cases pc with
  | sleep target n bytes =>
    cases h
    exact hk.1
  | intr batch dump =>
    cases batch with
    | nil => cases h
    | cons c batch =>
    rw [body] at h
    unfold Shared.insert at h
    split_ifs at h <;> cases h
  | killLine | read =>
    rw [body] at h
    split_ifs at h <;> cases h
  | wake batch dump => cases h

theorem code_wakes : Wakes code (fun _ _ _ => True) Edited Knows Reason Owes where
  sleep := fun _ hk h => reason_of_sleep hk (Option.some.inj h)
  act := fun _ _ _ _ h hr => body_wakes (Option.some.inj h) hr

/-! ### Erasing -/

theorem ne_sub_one (x : UInt32) : x ≠ x - 1 := by
  intro h
  have hn := congrArg UInt32.toNat h
  have hlt := x.toNat_lt
  rw [UInt32.toNat_sub] at hn
  simp only [UInt32.toNat_one] at hn
  omega

theorem add_one_ne_sub_one (x : UInt32) : x + 1 ≠ x - 1 := by
  intro h
  have hn := congrArg UInt32.toNat h
  have hlt := x.toNat_lt
  rw [UInt32.toNat_sub, UInt32.toNat_add] at hn
  simp only [UInt32.toNat_one] at hn
  omega

theorem body_erase (h : body k d pc = (d', e)) (he : d'.e = d.e - 1) :
    d.e ≠ d.w ∧ d' = d.erase := by
  cases pc with
  | intr batch dump =>
    cases batch with
    | nil =>
      cases h
      exact absurd he (ne_sub_one d.e)
    | cons c batch =>
    rw [body] at h
    unfold Shared.insert at h
    split_ifs at h with hP hU hH hne <;> cases h
    · exact absurd he (ne_sub_one d.e)
    · exact absurd he (ne_sub_one d.e)
    · exact ⟨hne, rfl⟩
    · exact absurd he (ne_sub_one d.e)
    · exact absurd he (add_one_ne_sub_one d.e)
    · exact absurd he (add_one_ne_sub_one d.e)
    · exact absurd he (ne_sub_one d.e)
  | killLine batch dump =>
    rw [body] at h
    split_ifs at h with hne <;> cases h
    · exact ⟨hne.1, rfl⟩
    · exact absurd he (ne_sub_one d.e)
  | wake | sleep =>
    cases h
    exact absurd he (ne_sub_one d.e)
  | read target n bytes =>
    rw [body] at h
    split_ifs at h <;> cases h <;> exact absurd he (ne_sub_one d.e)

/-! ### Reading -/

/-- The bytes that a call of `consoleread` has put at `dst`. -/
def Pc.bytes : Pc → List UInt8
  | .read _ _ bytes | .sleep _ _ bytes => bytes
  | _ => []

/-- The characters that a call consumes are those that it puts behind `bytes`. -/
def Puts (d d' : Shared) (bytes bytes' : List UInt8) : Prop :=
  ∃ v, C 'D' ∉ v ∧ d'.consumed = d.consumed ++ v ∧ bytes' = bytes ++ v

/-- What a step from `pc` does with the characters that it consumes. They are put at `dst` and are
no `^D`, or the call ends with nothing at `dst`, and a `^D` is consumed. -/
def Takes (pc : Pc) (d d' : Shared) : Phase Pc Result → Prop
  | .inside pc' | .wants pc' => Puts d d' pc.bytes pc'.bytes
  | .out (.intr _) => d'.consumed = d.consumed
  | .out (.read ret bytes) => (ret = -1 ∨ ret = bytes.length) ∧ (Puts d d' pc.bytes bytes ∨
      pc.bytes = [] ∧ bytes = [] ∧ d'.consumed = d.consumed ++ [C 'D'])

theorem Puts.nothing {bytes : List UInt8} (h : d'.consumed = d.consumed) :
    Puts d d' bytes bytes :=
  ⟨[], not_mem_nil, by rw [h, append_nil], (append_nil _).symm⟩

theorem Puts.front {bytes : List UInt8} (h : d.front ≠ C 'D') :
    Puts d d.consume bytes (bytes ++ [d.front]) :=
  ⟨[d.front], fun hm => h (mem_singleton.mp hm).symm, rfl, rfl⟩

theorem body_takes (hk : Knows pc d) (h : body k d pc = (d', e)) : Takes pc d d' e.next := by
  cases pc with
  | intr batch dump =>
    cases batch with
    | nil =>
      cases h
      rfl
    | cons c batch =>
    rw [body] at h
    unfold Shared.insert at h
    split_ifs at h <;> cases h <;> exact .nothing rfl
  | killLine batch dump =>
    rw [body] at h
    split_ifs at h <;> cases h <;> exact .nothing rfl
  | wake | sleep =>
    cases h
    exact .nothing rfl
  | read target n bytes =>
    have hk : n + bytes.length = target := hk
    rw [body] at h
    split_ifs at h with hn hr hkilled hD hlt hnl <;> cases h
    · exact ⟨.inl rfl, .inl (.nothing rfl)⟩
    · exact .nothing rfl
    · exact ⟨.inr (by omega), .inl (.nothing rfl)⟩
    · have hb : bytes = [] := length_eq_zero_iff.mp (by omega)
      refine ⟨.inr (by omega), .inr ⟨hb, hb, ?_⟩⟩
      rw [Shared.consume, hD]
    · refine ⟨.inr ?_, .inl (.front hD)⟩
      rw [length_append, length_singleton]
      omega
    · exact .front hD
    · exact ⟨.inr (by omega), .inl (.nothing rfl)⟩

/-! ### The line discipline -/

section

variable {P : Type} [DecidableEq P] {s : System P}

omit [DecidableEq P] in
theorem Start.fresh (h : Start s) : Fresh Edited s :=
  ⟨Boot.edited h.data, h.lock, h.out, h.awake⟩

/-- **The line discipline of the console.** In every interleaving of batches of characters and
calls of `consoleread`, however long: the indexes are in order and at most `INPUT_BUF` apart; a step
that moves the edit index back erases one character, which is not committed and is not a newline,
and changes nothing else of the buffer; the characters that were consumed, and then those from the
read index to the write index, are the committed characters; only calls of `consoleread` consume
characters, and a call puts those that it consumes at `dst`, in order, or consumes a `^D` and
returns 0; and while `cons.lock` is free no reader sleeps unless there is nothing to read. -/
theorem console_discipline (h : Run.Reachable (step code) (fun _ _ => True) Start s) :
    ((s.data.w - s.data.r).toNat ≤ (s.data.e - s.data.r).toNat ∧
        (s.data.e - s.data.r).toNat ≤ INPUT_BUF) ∧
      (∀ a s', step code s a = some s' → s'.data.e = s.data.e - 1 →
        s.data.e ≠ s.data.w ∧ s.data.buf (Ring.cell INPUT_BUF (s.data.e - 1)) ≠ newline ∧
          s'.data = s.data.erase) ∧ (∃ unread, s.data.committed = s.data.consumed ++ unread ∧
        unread.length = (s.data.w - s.data.r).toNat ∧ ∀ i c, unread[i]? = some c →
          s.data.buf (Ring.cell INPUT_BUF (s.data.r + UInt32.ofNat i)) = c) ∧
      (∀ a s', step code s a = some s' →
        (∀ p pc, (s.proc p).phase = .inside pc → Takes pc s.data s'.data (s'.proc p).phase) ∧
        ((∀ p pc, (s.proc p).phase ≠ .inside pc) → s'.data = s.data)) ∧
      (s.lock = none → ∀ p, (s.proc p).chan = some .r → s.data.r = s.data.w) := by
  have hall : Run.Reachable (step code) (Permits fun _ _ _ => True) Start s :=
    h.mono fun s a _ _ => permits_of_forall (fun _ _ _ => trivial) s a
  have hinv : Inv Edited Knows s := Reachable.inv code_sound (fun s hs => Start.fresh hs) hall
  have htrans : ∀ {a s'}, step code s a = some s' → Trans code (fun _ _ _ => True) s s' :=
    fun {a} {_} hstep => trans_of_step (permits_of_forall (fun _ _ _ => trivial) s a) hstep
  obtain ⟨unread, hu⟩ := hinv.data
  refine ⟨⟨?_, ?_⟩, ?_, ⟨unread, hu.committed, hu.toNat_write.symm, ?_⟩, fun a s' hstep =>
    ⟨fun p pc hp => ?_, (htrans hstep).data_eq⟩, fun hfree p hp => ?_⟩
  · rw [hu.toNat_write, hu.toNat_edit]
    exact Nat.le_add_right _ _
  · rw [hu.toNat_edit, ← length_append]
    exact hu.ring.length_le
  · intro a s' hstep he
    cases htrans hstep with
    | call | acquire | kill => exact absurd he (ne_sub_one _)
    | act _ _ _ hact =>
    rw [data_perform] at he ⊢
    obtain ⟨hne, hd⟩ := body_erase (Option.some.inj hact) he
    exact ⟨hne, (hu.erase hne).1, hd⟩
  · intro i c hc
    obtain ⟨hi, hget⟩ := List.getElem?_eq_some_iff.mp hc
    have hlt : i < (unread ++ s.data.line).length := by
      rw [length_append]
      exact Nat.lt_add_right _ hi
    rw [hu.ring.get i hlt, getElem_append_left hi, hget]
  · rcases hinv.inside_step hp (htrans hstep) with ⟨hd, hp'⟩ | ⟨e, hact, hp'⟩
    · rw [hp', hd]
      exact .nothing rfl
    · rw [hp']
      exact body_takes (hinv.inside hp).2 (Option.some.inj hact)
  · exact Reachable.sleeper code_sound code_wakes (fun s hs => Start.fresh hs) hall hfree hp

def booted : System P where
  data :=
    { buf := fun _ => 0, r := 0, w := 0, e := 0, line := [], committed := [], consumed := [] }
  lock := none
  proc := fun _ => { phase := .out (.intr false), killed := false, chan := none }

omit [DecidableEq P] in
theorem start_booted : Start (booted : System P) where
  data := ⟨rfl, rfl, rfl, rfl, rfl, rfl⟩
  lock := rfl
  out := fun _ => ⟨_, rfl⟩
  awake := fun _ => rfl

/-- A reader sleeps; `a`, `b`, backspace, `c` and return are typed; the reader takes `a`, `c` and a
newline, and returns them. -/
theorem console_discipline_ac : ∃ s : System Bool,
    Run.Reachable (step code) (fun _ _ => True) Start s ∧
      (s.proc false).phase = .out (.read 3 [97, 99, 10]) ∧ s.data.consumed = [97, 99, 10] ∧
      (s.data.e - s.data.r).toNat ≤ INPUT_BUF := by
  have hstart : Run.Reachable (step code) (fun _ _ => True) Start (booted : System Bool) :=
    .start start_booted
  obtain ⟨s, hs, hq⟩ := hstart.exists_of_exec
    ([.call false (.read 10 10 []), .run false, .run false, .run false,
      .call true (.intr [97, 98, 8, 99, 13] false), .run true, .run true, .run true, .run true,
      .run true, .run true, .run true, .run true, .run false, .run false, .run false,
      .run false] : List (Action Bool Pc))
    (fun s : System Bool => (s.proc false).phase.returned = some (.read 3 [97, 99, 10]) ∧
      s.data.consumed = [97, 99, 10]) (by decide +kernel)
  obtain ⟨hout, hd⟩ := of_decide_eq_true hq
  exact ⟨s, hs, Phase.eq_out hout, hd, (console_discipline hs).1.2⟩

end

end Xv6.Console
