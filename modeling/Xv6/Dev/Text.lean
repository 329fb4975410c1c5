import Mathlib.Data.Int.Notation
import Mathlib.Logic.Function.Basic
import Mathlib.Tactic.Common

/-!
# Devices that are read as text

The read functions of the devices in `dhello.c`, `zero.c` and `ticks.c`. Each of them has a text and
copies as much of it as there is room for, with a copy of `s_cnputs`. The three copies store the
same bytes, but the one in `ticks.c` counts the zero behind the text, whether it was stored or not.

The text of `ticks` is made by the `snprintf` of `ticks.c`, whose conversion of integers fills its
buffer: the loop tests the number that it is given and not what is left of it, so that every number
but 0 has 15 digits.
-/

namespace Xv6.Dev

open Function List

/-- A `char *`. -/
abbrev Buf := ℕ → UInt8

def const (l : List UInt8) : Buf := fun k => l.getD k 0

/-! ### Copying a string -/

/-- The loop of `s_cnputs`; the first argument bounds the rounds. -/
def copyLoop (string : Buf) (n : ℤ) : ℕ → ℕ → Buf → ℕ × Buf
  | 0, count, out => (count, out)
  | fuel + 1, count, out =>
    if count < n ∧ string count ≠ 0 then
      copyLoop string n fuel (count + 1) (update out count (string count))
    else (count, out)

/-- Copy into `outbuffer` at most `n` characters of `string`: the return value and the buffer. -/
def cnputs (outbuffer : Buf) (n : ℤ) (string : Buf) : ℤ × Buf :=
  let r := copyLoop string n n.toNat 0 outbuffer
  (r.1, if r.1 < n then update r.2 r.1 0 else r.2)

/-- `s_cnputs` of `dhello.c`. -/
def Hello.cnputs : Buf → ℤ → Buf → ℤ × Buf := Dev.cnputs

/-- `s_cnputs` of `zero.c`. -/
def Zero.cnputs : Buf → ℤ → Buf → ℤ × Buf := Dev.cnputs

/-- `s_cnputs` of `ticks.c`, which returns one more. -/
def Ticks.cnputs (outbuffer : Buf) (n : ℤ) (string : Buf) : ℤ × Buf :=
  let r := copyLoop string n n.toNat 0 outbuffer
  let outbuffer := if r.1 < n then update r.2 r.1 0 else r.2
  let itr := r.1 + 1
  (itr, outbuffer)

/-! ### `snprintf` -/

/-- `digs[]` -/
def dig (d : UInt32) : UInt8 := if d < 10 then 48 + d.toUInt8 else 55 + d.toUInt8

/-- The loop of `s_getReverse`, which runs until the buffer is full. -/
def digitLoop (base : UInt32) : ℕ → UInt32 → List UInt8
  | 0, _ => []
  | k + 1, a => dig (a % base) :: digitLoop base k (a / base)

/-- `s_getReverse`: what it stores in a buffer of `length` bytes, the last digit first. -/
def getReverse (length : ℕ) (x : Int32) (base : UInt32) (sgn : Bool) : List UInt8 :=
  let negative := sgn ∧ x < 0
  let a := if negative then (-x).toUInt32 else x.toUInt32
  let out := if x ≠ 0 then digitLoop base (length - 1) a else []
  let out := if x = 0 ∧ out.length + 1 < length then out ++ [48] else out
  if negative ∧ out.length < length then out ++ [45] else out

/-- What `s_printf` has written so far: `outbuffer` and `outindex`. -/
structure Out where
  buf : Buf
  outindex : ℕ

/-- `putcFunction(fd, outbuffer, length, outindex++, c)`, where the function is `s_sputc`. -/
def putc (length : ℕ) (o : Out) (c : UInt8) : Out :=
  ⟨if o.outindex < length then update o.buf o.outindex c else o.buf, o.outindex + 1⟩

/-- `s_printint`. The count that it returns, by which `outindex` grows, is that of all digits, also
of those that did not fit. -/
def printint (length : ℕ) (o : Out) (xx : Int32) (base : UInt32) (sgn : Bool) : Out :=
  (getReverse 16 xx base sgn).reverse.foldl (putc length) o

/-- The loop of `s_printf`, with `state == '%'` as a Boolean. `strAt` gives the string at an
address. -/
def printfLoop (strAt : UInt32 → List UInt8) (length : ℕ) :
    List UInt8 → Bool → List UInt32 → Out → Out
  | [], _, _, o => o
  | c :: fmt, state, ap, o =>
    if c = 0 ∨ ¬ o.outindex < length then o
    else if state = false then
      if c = 37 then printfLoop strAt length fmt true ap o
      else printfLoop strAt length fmt false ap (putc length o c)
    else if c = 100 then
      printfLoop strAt length fmt false ap.tail
        (printint length o (ap.headD 0).toInt32 10 true)
    else if c = 120 ∨ c = 112 then
      printfLoop strAt length fmt false ap.tail
        (printint length o (ap.headD 0).toInt32 16 false)
    else if c = 115 then
      -- "(null)" for a null pointer
      let s := if ap.headD 0 = 0 then [40, 110, 117, 108, 108, 41] else strAt (ap.headD 0)
      printfLoop strAt length fmt false ap.tail (s.foldl (putc length) o)
    else if c = 99 then
      printfLoop strAt length fmt false ap.tail (putc length o (ap.headD 0).toUInt8)
    else if c = 37 then printfLoop strAt length fmt false ap (putc length o c)
    else
      -- Unknown % sequence. Print it to draw attention.
      printfLoop strAt length fmt false ap (putc length (putc length o 37) c)

/-- `snprintf(outbuffer, n, fmt, ap)`, for `n > 0`. -/
def snprintf (strAt : UInt32 → List UInt8) (outbuffer : Buf) (n : ℕ) (fmt : List UInt8)
    (ap : List UInt32) : ℕ × Buf :=
  let o := printfLoop strAt (n - 1) fmt false ap ⟨outbuffer, 0⟩
  let count := min (n - 1) o.outindex
  (count, if count < n then update o.buf count 0 else o.buf)

/-! ### The devices -/

/-- `"Hello, World!"` -/
def helloText : List UInt8 := [72, 101, 108, 108, 111, 44, 32, 87, 111, 114, 108, 100, 33]

def helloread (dst : Buf) (n : ℤ) : ℤ × Buf := Hello.cnputs dst n (const helloText)

/-- `"0"` -/
def zeroText : List UInt8 := [48]

def zeroread (dst : Buf) (n : ℤ) : ℤ × Buf := Zero.cnputs dst n (const zeroText)

/-- `bufferSize` -/
def bufferSize : ℕ := 512

/-- `ticksread`; `buf` is its static buffer. -/
def ticksread (ticks : UInt32) (buf : Buf) (dst : Buf) (n : ℤ) : ℤ × Buf :=
  let t := ticks.toInt32
  -- snprintf(buf, bufferSize, "%d\0", t)
  let r := snprintf (fun _ => []) buf bufferSize [37, 100] [t.toUInt32]
  Ticks.cnputs dst n r.2

/-! ### What is copied -/

structure Holds (string : Buf) (text : List UInt8) : Prop where
  chars : ∀ k < text.length, string k = text.getD k 0
  not_nul : ∀ k < text.length, text.getD k 0 ≠ 0
  nul : string text.length = 0

variable {string out : Buf} {text l : List UInt8} {n : ℤ} {count fuel : ℕ}

theorem copyLoop_eq (h : Holds string text) (hcount : count ≤ min n.toNat text.length)
    (hfuel : n.toNat ≤ count + fuel) : copyLoop string n fuel count out =
      (min n.toNat text.length, fun k =>
        if count ≤ k ∧ k < min n.toNat text.length then text.getD k 0 else out k) := by
  induction fuel generalizing count out with
  | zero =>
    have hend : count = min n.toNat text.length := by omega
    rw [copyLoop, Prod.mk.injEq]
    refine ⟨hend, funext fun k => ?_⟩
    rw [if_neg (by omega)]
  | succ fuel ih =>
  rw [copyLoop]
  by_cases hlt : count < min n.toNat text.length
  · have hchar := h.chars count (by omega)
    have hne := h.not_nul count (by omega)
    rw [if_pos ⟨by omega, hchar ▸ hne⟩, ih (by omega) (by omega), Prod.mk.injEq]
    refine ⟨rfl, funext fun k => ?_⟩
    by_cases hk : k = count
    · rw [hk, if_neg (by omega), if_pos (by omega), update_self, hchar]
    · rw [update_of_ne hk]
      exact if_congr (by omega) rfl rfl
  have hend : count = min n.toNat text.length := by omega
  have hstop : ¬ ((count : ℤ) < n ∧ string count ≠ 0) := by
    rintro ⟨h₁, h₂⟩
    have hlen : count = text.length := by omega
    exact h₂ (hlen ▸ h.nul)
  rw [if_neg hstop, Prod.mk.injEq]
  refine ⟨hend, funext fun k => ?_⟩
  rw [if_neg (by omega)]

/-- The request is respected, and what is returned is a first part of the text. -/
structure ReadOk (text : List UInt8) (n : ℤ) (dst : Buf) (r : ℤ × Buf) : Prop where
  nonneg : 0 ≤ r.1
  le : r.1 ≤ n
  outside : ∀ k : ℕ, n ≤ k → r.2 k = dst k
  bytes : ∀ k : ℕ, k < r.1 → k < text.length ∧ r.2 k = text.getD k 0

theorem cnputs_spec (dst : Buf) (hn : 0 ≤ n) (h : Holds string text) :
    (cnputs dst n string).1 = min n text.length ∧ ReadOk text n dst (cnputs dst n string) := by
  have hloop : copyLoop string n n.toNat 0 dst = (min n.toNat text.length, fun k =>
      if 0 ≤ k ∧ k < min n.toNat text.length then text.getD k 0 else dst k) :=
    copyLoop_eq h (Nat.zero_le _) (by omega)
  have hret : (cnputs dst n string).1 = min n text.length := by
    rw [cnputs, hloop]
    dsimp only
    omega
  refine ⟨hret, ?_, ?_, fun k hk => ?_, fun k hk => ?_⟩
  · omega
  · omega
  · rw [cnputs, hloop]
    dsimp only
    split
    · rw [update_of_ne (by omega), if_neg (by omega)]
    · exact if_neg (by omega)
  rw [hret] at hk
  refine ⟨by omega, ?_⟩
  rw [cnputs, hloop]
  dsimp only
  split
  · rw [update_of_ne (by omega), if_pos (by omega)]
  · exact if_pos (by omega)

theorem ticks_cnputs_eq (dst : Buf) (n : ℤ) (string : Buf) :
    Ticks.cnputs dst n string = ((cnputs dst n string).1 + 1, (cnputs dst n string).2) := rfl

theorem holds_const (h : 0 ∉ l) : Holds (const l) l where
  chars _ _ := rfl
  not_nul k hk hz := by
    rw [getD_eq_getElem?_getD, getElem?_eq_getElem hk, Option.getD_some] at hz
    exact h (hz ▸ getElem_mem hk)
  nul := by simp [const]

/-! ### The text of `ticks` -/

theorem length_digitLoop (base : UInt32) (k : ℕ) (a : UInt32) :
    (digitLoop base k a).length = k := by
  induction k generalizing a with
  | zero => rfl
  | succ k ih => rw [digitLoop, length_cons, ih]

theorem dig_mod_ten_ne (a : UInt32) : dig (a % 10) ≠ 0 := by
  have hlt : a % 10 < 10 := UInt32.mod_lt a (by decide)
  rw [dig, if_pos hlt]
  intro hz
  have hnat := congrArg UInt8.toNat hz
  have hmod : (a % 10).toNat < 10 := hlt
  rw [UInt8.toNat_add, UInt32.toNat_toUInt8] at hnat
  have h48 : UInt8.toNat 48 = 48 := rfl
  have h0 : UInt8.toNat 0 = 0 := rfl
  omega

theorem zero_notMem_digitLoop (k : ℕ) (a : UInt32) : 0 ∉ digitLoop 10 k a := by
  induction k generalizing a with
  | zero => exact not_mem_nil
  | succ k ih =>
    rw [digitLoop, mem_cons, not_or]
    exact ⟨(dig_mod_ten_ne a).symm, ih _⟩

/-- The characters of a number, as `%d` prints it. -/
def decimal (x : Int32) : List UInt8 := (getReverse 16 x 10 true).reverse

theorem getReverse_of_ne {x : Int32} (hx : x ≠ 0) : ∃ a,
    getReverse 16 x 10 true = digitLoop 10 15 a ∨
      getReverse 16 x 10 true = digitLoop 10 15 a ++ [45] := by
  refine ⟨if x < 0 then (-x).toUInt32 else x.toUInt32, ?_⟩
  simp only [getReverse, hx, ne_eq, not_false_eq_true, if_true, false_and, if_false, true_and,
    length_digitLoop]
  by_cases hneg : x < 0
  · rw [if_pos hneg, if_pos ⟨hneg, by decide⟩]
    exact .inr rfl
  · rw [if_neg hneg, if_neg fun h => hneg h.1]
    exact .inl rfl

theorem length_decimal_le (x : Int32) : (decimal x).length ≤ 16 := by
  rw [decimal, length_reverse]
  by_cases hx : x = 0
  · subst hx
    decide
  obtain ⟨a, h | h⟩ := getReverse_of_ne hx
  · rw [h, length_digitLoop]
    decide
  · rw [h, length_append, length_digitLoop]
    decide

theorem zero_notMem_decimal (x : Int32) : 0 ∉ decimal x := by
  rw [decimal, mem_reverse]
  by_cases hx : x = 0
  · subst hx
    decide
  obtain ⟨a, h | h⟩ := getReverse_of_ne hx
  · rw [h]
    exact zero_notMem_digitLoop _ _
  · rw [h, mem_append, not_or]
    exact ⟨zero_notMem_digitLoop _ _, by decide⟩

theorem foldl_putc_eq {length : ℕ} {o : Out} (h : o.outindex + l.length ≤ length) :
    l.foldl (putc length) o = ⟨fun k =>
      if o.outindex ≤ k ∧ k < o.outindex + l.length then l.getD (k - o.outindex) 0 else o.buf k,
      o.outindex + l.length⟩ := by
  induction l generalizing o with
  | nil =>
    rw [foldl_nil, length_nil, Nat.add_zero]
    have hbuf : (fun k => if o.outindex ≤ k ∧ k < o.outindex then
        ([] : List UInt8).getD (k - o.outindex) 0 else o.buf k) = o.buf :=
      funext fun k => if_neg (by omega)
    rw [hbuf]
  | cons c l ih =>
  rw [length_cons] at h
  have hstore : putc length o c = ⟨update o.buf o.outindex c, o.outindex + 1⟩ := by
    rw [putc, if_pos (by omega)]
  rw [foldl_cons, hstore, ih (by dsimp only; omega), length_cons]
  dsimp only
  rw [Out.mk.injEq]
  refine ⟨funext fun k => ?_, by omega⟩
  by_cases hk : k = o.outindex
  · rw [if_neg (by omega), if_pos (by omega), hk, update_self, Nat.sub_self]
    rfl
  rw [update_of_ne hk]
  by_cases hin : o.outindex + 1 ≤ k ∧ k < o.outindex + 1 + l.length
  · rw [if_pos hin, if_pos (by omega)]
    obtain ⟨j, rfl⟩ := Nat.exists_eq_add_of_le hin.1
    rw [Nat.add_sub_cancel_left, Nat.add_assoc, Nat.add_sub_cancel_left, Nat.add_comm 1 j]
    rfl
  · rw [if_neg hin, if_neg (by omega)]

theorem holds_snprintf (strAt : UInt32 → List UInt8) (buf : Buf) (t : UInt32) :
    Holds (snprintf strAt buf bufferSize [37, 100] [t]).2 (decimal t.toInt32) := by
  have hlen := length_decimal_le t.toInt32
  have hprint : printfLoop strAt (bufferSize - 1) [37, 100] false [t] ⟨buf, 0⟩
      = (decimal t.toInt32).foldl (putc (bufferSize - 1)) ⟨buf, 0⟩ := rfl
  have hsize : bufferSize = 512 := rfl
  rw [foldl_putc_eq (by dsimp only; omega)] at hprint
  simp only [snprintf, hprint, Nat.zero_add, Nat.zero_le, true_and, Nat.sub_zero]
  have hcount : min (bufferSize - 1) (decimal t.toInt32).length = (decimal t.toInt32).length := by
    omega
  rw [hcount, if_pos (by omega)]
  refine ⟨fun k hk => ?_, (holds_const (zero_notMem_decimal _)).not_nul, update_self ..⟩
  rw [update_of_ne (by omega), if_pos hk]

/-! ### Reading a device -/

inductive Device
  | hello
  | zero
  | ticks
  deriving DecidableEq, Repr

/-- The read function that `main` registers, where `ticks` is the time and `buf` the static buffer
of `ticksread`. -/
def Device.read (ticks : UInt32) (buf : Buf) : Device → Buf → ℤ → ℤ × Buf
  | .hello => helloread
  | .zero => zeroread
  | .ticks => ticksread ticks buf

def Device.content (ticks : UInt32) : Device → List UInt8
  | .hello => helloText
  | .zero => zeroText
  | .ticks => decimal ticks.toInt32

theorem helloread_ok (dst : Buf) (hn : 0 ≤ n) : ReadOk helloText n dst (helloread dst n) := by
  have hholds : Holds (const helloText) helloText := holds_const (by decide)
  exact (cnputs_spec dst hn hholds).2

theorem zeroread_ok (dst : Buf) (hn : 0 ≤ n) : ReadOk zeroText n dst (zeroread dst n) := by
  have hholds : Holds (const zeroText) zeroText := holds_const (by decide)
  exact (cnputs_spec dst hn hholds).2

theorem ticksread_spec (ticks : UInt32) (buf dst : Buf) (hn : 0 ≤ n) :
    (ticksread ticks buf dst n).1 = min n (decimal ticks.toInt32).length + 1 ∧
      ReadOk (decimal ticks.toInt32) n dst
        ((ticksread ticks buf dst n).1 - 1, (ticksread ticks buf dst n).2) := by
  have hholds := holds_snprintf (fun _ => []) buf ticks.toInt32.toUInt32
  obtain ⟨hret, hok⟩ := cnputs_spec dst hn hholds
  rw [ticksread, ticks_cnputs_eq]
  refine ⟨congrArg (· + 1) hret, ?_⟩
  dsimp only
  rw [Int.add_sub_cancel]
  exact hok

/-- **Reading a device.** The functions of `hello` and `zero` keep within the request and return a
first part of their text. That of `ticks` stores the right bytes and always returns one more than
it has copied: more than the request, or more than the text. It is the only difference of the three
copies of `s_cnputs`. -/
theorem device_reads (d : Device) (ticks : UInt32) (buf dst : Buf) (n : ℤ) (hn : 0 ≤ n) :
    (ReadOk (d.content ticks) n dst (d.read ticks buf dst n) ↔ d ≠ .ticks) ∧
      ReadOk (d.content ticks) n dst
        ((d.read ticks buf dst n).1 - (if d = .ticks then 1 else 0), (d.read ticks buf dst n).2) ∧
      ∀ string, Zero.cnputs dst n string = Hello.cnputs dst n string ∧ Ticks.cnputs dst n string =
          ((Hello.cnputs dst n string).1 + 1, (Hello.cnputs dst n string).2) := by
  refine ⟨?_, ?_, fun string => ⟨rfl, rfl⟩⟩
  · cases d with
    | hello => exact iff_of_true (helloread_ok dst hn) (by decide)
    | zero => exact iff_of_true (zeroread_ok dst hn) (by decide)
    | ticks =>
      refine iff_of_false (fun h => ?_) (by decide)
      have hret : (Device.read ticks buf .ticks dst n).1
          = min n (decimal ticks.toInt32).length + 1 := (ticksread_spec ticks buf dst hn).1
      have hle := h.le
      -- the request is longer than the text, and the last byte counted is behind the text
      have hlast := (h.bytes (decimal ticks.toInt32).length (by omega)).1
      exact Nat.lt_irrefl _ hlast
  · cases d with
    | hello =>
      rw [if_neg (by decide), Int.sub_zero]
      exact helloread_ok dst hn
    | zero =>
      rw [if_neg (by decide), Int.sub_zero]
      exact zeroread_ok dst hn
    | ticks => exact (ticksread_spec ticks buf dst hn).2

theorem device_reads_hello : (0 : ℤ) ≤ 5 ∧
    ReadOk helloText 5 (fun _ => 0) (helloread (fun _ => 0) 5) :=
  ⟨by decide, (device_reads .hello 0 (fun _ => 0) (fun _ => 0) 5 (by decide)).1.mpr (by decide)⟩

theorem ticksread_zero_request : (Device.ticks.read 7 (fun _ => 0) (fun _ => 0) 0).1 = 1 ∧
    ¬ ReadOk (Device.ticks.content 7) 0 (fun _ => 0)
      (Device.ticks.read 7 (fun _ => 0) (fun _ => 0) 0) := by
  have hret : (Device.ticks.read 7 (fun _ => 0) (fun _ => 0) 0).1 = 1 := by decide +kernel
  refine ⟨hret, fun h => ?_⟩
  have hle := h.le
  omega

end Xv6.Dev
