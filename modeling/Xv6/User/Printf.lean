import Mathlib.Data.Nat.Digits.Lemmas
import Xv6.Dev.Text

/-!
# `snprintf` of user programs

`printf.c`. A format is copied to a buffer with its conversions replaced, by one function that takes
what puts a character as an argument: `s_sputc` for `snprintf`. The index of the next character is
counted on behind the end of the buffer, and `s_sputc` leaves out what is not before the end.

The end is `n - 1` as a `uint`. For a positive `n` that leaves room for the zero; for `n ≤ 0` it is
at the end of the address space.

Addresses and indices are 32-bit words. A call is described by the stores it does, in order, and by
what it returns. The format and the strings are the bytes before their zeroes; they are in user
memory, which ends at `KERNBASE`.
-/

namespace Xv6.Printf

open Function List

open Dev (dig)

structure Str where
  bytes : List UInt8
  not_nul : 0 ∉ bytes
  length_lt : bytes.length < 2 ^ 31

abbrev Store := UInt32 × UInt8

abbrev Memory := UInt32 → UInt8

def Memory.after (mem : Memory) (stores : List Store) : Memory :=
  stores.foldl (fun mem st => update mem st.1 st.2) mem

/-! ### The code -/

/-- Store `c` at `index` within `outbuffer` if `index` is less than `length`. -/
def sputc (outbuffer length index : UInt32) (c : UInt8) : List Store :=
  if index < length then [(outbuffer + index, c)] else []

/-- The loop of `s_getReverseDigits`, with the number of rounds that there is room for. -/
def digitLoop (base : UInt32) : ℕ → UInt32 → List UInt8
  | 0, _ => []
  | k + 1, x => if x ≠ 0 then dig (x % base) :: digitLoop base k (x / base) else []

/-- `s_getReverseDigits`: what it stores in a buffer of `length` bytes, the last digit first. -/
def getReverseDigits (length : ℕ) (xx : Int32) (base : UInt32) (sgn : Bool) : List UInt8 :=
  let neg := sgn ∧ xx < 0
  let x := if neg then (-xx).toUInt32 else xx.toUInt32
  let out := digitLoop base (length - 1) x
  let out := if xx = 0 ∧ out.length + 1 < length then out ++ [48] else out
  if neg ∧ out.length < length then out ++ [45] else out

/-- The loop of `s_printint`, from index `j` on. -/
def putLoop (outbuf length : UInt32) : UInt32 → List UInt8 → List Store
  | _, [] => []
  | j, c :: cs =>
    if j < length then sputc outbuf length j c ++ putLoop outbuf length (j + 1) cs else []

/-- `s_printint`: how many characters the number has, and the stores. -/
def printint (outbuf length : UInt32) (xx : Int32) (base : UInt32) (sgn : Bool) :
    UInt32 × List Store :=
  let localBuffer := getReverseDigits 16 xx base sgn
  (UInt32.ofNat localBuffer.length, putLoop outbuf length 0 localBuffer.reverse)

/-- `putcFunction(fd, outbuffer, length, outindex++, c)` for one character after the other: the new
index, and the stores. -/
def putAll (outbuffer length : UInt32) : UInt32 → List UInt8 → UInt32 × List Store
  | outindex, [] => (outindex, [])
  | outindex, c :: s =>
    let r := putAll outbuffer length (outindex + 1) s
    (r.1, sputc outbuffer length outindex c ++ r.2)

/-- `"(null)"` -/
def nullText : List UInt8 := [40, 110, 117, 108, 108, 41]

section Printf

variable (strAt : UInt32 → Str) (ap : ℕ → UInt32)

/-- A character after `'%'`, where `arg` is `*ap`. -/
def convert (outbuffer length : UInt32) (c : UInt8) (arg outindex : UInt32) :
    UInt32 × List Store :=
  if c = 100 then
    let r := printint (outbuffer + outindex) (length - outindex) arg.toInt32 10 true
    (outindex + r.1, r.2)
  else if c = 120 ∨ c = 112 then
    let r := printint (outbuffer + outindex) (length - outindex) arg.toInt32 16 false
    (outindex + r.1, r.2)
  else if c = 115 then
    putAll outbuffer length outindex (if arg = 0 then nullText else (strAt arg).bytes)
  else if c = 99 then putAll outbuffer length outindex [arg.toUInt8]
  else if c = 37 then putAll outbuffer length outindex [c]
  else
    -- Unknown % sequence. Print it to draw attention.
    putAll outbuffer length outindex [37, c]

/-- The conversions that do `ap++`. -/
def takesArg (c : UInt8) : Bool := c = 100 ∨ c = 120 ∨ c = 112 ∨ c = 115 ∨ c = 99

/-- The loop of `s_printf`, with `state == '%'` as a Boolean and `ap` as an index: the last
`outindex`, and the stores. -/
def printfLoop (outbuffer length : UInt32) :
    List UInt8 → Bool → ℕ → UInt32 → UInt32 × List Store
  | [], _, _, outindex => (outindex, [])
  | c :: fmt, state, k, outindex =>
    if outindex < length then
      if state = false then
        if c = 37 then printfLoop outbuffer length fmt true k outindex
        else
          let r := putAll outbuffer length outindex [c]
          let t := printfLoop outbuffer length fmt false k r.1
          (t.1, r.2 ++ t.2)
      else
        let r := convert strAt outbuffer length c (ap k) outindex
        let t := printfLoop outbuffer length fmt false (if takesArg c then k + 1 else k) r.1
        (t.1, r.2 ++ t.2)
    else (outindex, [])

/-- `snprintf`: what it returns, and the stores. The words behind `fmt` on the stack are the
arguments. -/
def snprintf (outbuffer : UInt32) (n : Int32) (fmt : Str) : UInt32 × List Store :=
  let length := (n - 1).toUInt32
  let r := printfLoop strAt ap outbuffer length fmt.bytes false 0 0
  let count := if length < r.1 then length else r.1
  (count, if count < n.toUInt32 then r.2 ++ [(outbuffer + count, 0)] else r.2)

/-! ### What a format stands for -/

def digitChar (d : ℕ) : UInt8 := if d < 10 then 48 + UInt8.ofNat d else 55 + UInt8.ofNat d

/-- A number in base `b`, without leading zeroes. -/
def numeral (b n : ℕ) : List UInt8 :=
  if n = 0 then [48] else ((Nat.digits b n).map digitChar).reverse

def decimal (x : ℤ) : List UInt8 :=
  if x < 0 then 45 :: numeral 10 x.natAbs else numeral 10 x.natAbs

/-- What `'%'` and a character are replaced by. -/
def conversion (c : UInt8) (arg : UInt32) : List UInt8 :=
  if c = 100 then decimal arg.toInt32.toInt
  else if c = 120 ∨ c = 112 then numeral 16 arg.toNat
  else if c = 115 then (if arg = 0 then nullText else (strAt arg).bytes)
  else if c = 99 then [arg.toUInt8]
  else if c = 37 then [37]
  else [37, c]

/-- The full text of a format; with `state`, behind a `'%'`. -/
def fullText : List UInt8 → Bool → ℕ → List UInt8
  | [], _, _ => []
  | c :: fmt, false, k => if c = 37 then fullText fmt true k else c :: fullText fmt false k
  | c :: fmt, true, k =>
    conversion strAt c (ap k) ++ fullText fmt false (if takesArg c then k + 1 else k)

end Printf

/-! ### Digits -/

theorem dig_eq (d : UInt32) : dig d = digitChar d.toNat := by
  unfold dig digitChar
  have hlt : d < 10 ↔ d.toNat < 10 := UInt32.lt_iff_toNat_lt
  simp only [hlt]
  rfl

theorem digitLoop_eq {base : UInt32} (hbase : 1 < base.toNat) (k : ℕ) (x : UInt32) :
    digitLoop base k x = ((Nat.digits base.toNat x.toNat).take k).map digitChar := by
  induction k generalizing x with
  | zero => rfl
  | succ k ih =>
  rw [digitLoop]
  by_cases hx : x = 0
  · subst hx
    simp
  · have hpos : 0 < x.toNat := Nat.pos_of_ne_zero fun h => hx (UInt32.toNat_inj.mp h)
    rw [if_pos hx, ih, Nat.digits_def' hbase hpos, take_succ_cons, map_cons, dig_eq,
      UInt32.toNat_mod, UInt32.toNat_div]

def magnitude (xx : Int32) (sgn : Bool) : UInt32 :=
  if sgn ∧ xx < 0 then (-xx).toUInt32 else xx.toUInt32

section Convert

variable {xx : Int32} {base : UInt32} {sgn : Bool}

theorem toInt_eq (xx : Int32) : xx.toInt =
    if 2 * xx.toUInt32.toNat < 2 ^ 32 then (xx.toUInt32.toNat : ℤ)
    else xx.toUInt32.toNat - 2 ^ 32 := BitVec.toInt_eq_toNat_cond _

theorem lt_zero_iff : xx < 0 ↔ xx.toInt < 0 := Int32.lt_iff_toInt_lt

theorem magnitude_neg (h : xx < 0) : (magnitude xx true).toNat = xx.toInt.natAbs := by
  have hneg : xx.toInt < 0 := lt_zero_iff.mp h
  have hint := toInt_eq xx
  have hnat : (-xx).toUInt32.toNat = (2 ^ 32 - xx.toUInt32.toNat) % 2 ^ 32 := BitVec.toNat_neg _
  have hlt := xx.toUInt32.toNat_lt
  rw [magnitude, if_pos ⟨rfl, h⟩]
  split at hint
  · omega
  · omega

theorem magnitude_of_nonneg (h : ¬ xx < 0) : (magnitude xx sgn).toNat = xx.toInt.natAbs := by
  have hneg : ¬ xx.toInt < 0 := fun hc => h (lt_zero_iff.mpr hc)
  have hint := toInt_eq xx
  have hlt := xx.toUInt32.toNat_lt
  rw [magnitude, if_neg fun hc => h hc.2]
  split at hint
  · omega
  · omega

theorem magnitude_eq_zero : (magnitude xx sgn).toNat = 0 ↔ xx = 0 := by
  have hzero : xx.toUInt32.toNat = 0 ↔ xx = 0 := by
    refine ⟨fun h => ?_, fun h => by rw [h]; rfl⟩
    have hint := toInt_eq xx
    rw [h] at hint
    exact Int32.toInt_inj.mp hint
  have hnat : (-xx).toUInt32.toNat = (2 ^ 32 - xx.toUInt32.toNat) % 2 ^ 32 := BitVec.toNat_neg _
  have hlt := xx.toUInt32.toNat_lt
  rw [magnitude, ← hzero]
  split
  · omega
  · exact Iff.rfl

def reverseDigits (length : ℕ) (xx : Int32) (base : UInt32) (sgn : Bool) : List UInt8 :=
  ((Nat.digits base.toNat (magnitude xx sgn).toNat).take (length - 1)).map digitChar

theorem getReverseDigits_zero (length : ℕ) (base : UInt32) (sgn : Bool) :
    getReverseDigits length 0 base sgn = if 1 < length then [48] else [] := by
  have hneg : ¬ (sgn = true ∧ (0 : Int32) < 0) := fun h => absurd h.2 (by decide)
  have hloop : digitLoop base (length - 1) (0 : Int32).toUInt32 = [] := by
    cases length - 1 with
    | zero => rfl
    | succ k => exact if_neg (not_not.mpr rfl)
  simp only [getReverseDigits, if_neg hneg, hloop, if_neg fun h : _ ∧ _ => hneg h.1]
  simp

theorem getReverseDigits_of_ne (hbase : 1 < base.toNat) (hx : xx ≠ 0) (length : ℕ) :
    getReverseDigits length xx base sgn = reverseDigits length xx base sgn ++
      if (sgn ∧ xx < 0) ∧ (reverseDigits length xx base sgn).length < length then [45] else [] := by
  have hloop : digitLoop base (length - 1) (if sgn ∧ xx < 0 then (-xx).toUInt32 else xx.toUInt32)
        = reverseDigits length xx base sgn := digitLoop_eq hbase _ _
  simp only [getReverseDigits, hloop, if_neg fun h : xx = 0 ∧ _ => hx h.1]
  split
  · rfl
  · rw [append_nil]

theorem length_digits_le (hbase : 10 ≤ base.toNat) (x : UInt32) :
    (Nat.digits base.toNat x.toNat).length ≤ 10 := by
  refine (Nat.digits_length_le_iff (by omega) _).mpr ?_
  calc x.toNat < 2 ^ 32 := x.toNat_lt
    _ ≤ 10 ^ 10 := by decide
    _ ≤ base.toNat ^ 10 := Nat.pow_le_pow_left hbase 10

theorem reverseDigits_sixteen (hbase : 10 ≤ base.toNat) : reverseDigits 16 xx base sgn =
      (Nat.digits base.toNat (magnitude xx sgn).toNat).map digitChar := by
  have hlen := length_digits_le hbase (magnitude xx sgn)
  rw [reverseDigits, take_of_length_le (by omega)]

theorem reverse_reverseDigits (hbase : 10 ≤ base.toNat) (hx : xx ≠ 0) :
    (reverseDigits 16 xx base sgn).reverse = numeral base.toNat (magnitude xx sgn).toNat := by
  rw [reverseDigits_sixteen hbase, numeral, if_neg (mt magnitude_eq_zero.mp hx)]

theorem reverse_getReverseDigits_ten (xx : Int32) :
    (getReverseDigits 16 xx 10 true).reverse = decimal xx.toInt := by
  by_cases hx : xx = 0
  · subst hx
    decide
  have hlen : (Nat.digits (10 : UInt32).toNat (magnitude xx true).toNat).length ≤ 10 :=
    length_digits_le (by decide) (magnitude xx true)
  rw [getReverseDigits_of_ne (by decide) hx, reverse_append,
    reverse_reverseDigits (by decide) hx, decimal]
  by_cases hneg : xx < 0
  · have hroom : (reverseDigits 16 xx 10 true).length < 16 := by
      rw [reverseDigits_sixteen (by decide), length_map]
      omega
    rw [if_pos ⟨⟨rfl, hneg⟩, hroom⟩, if_pos (lt_zero_iff.mp hneg), magnitude_neg hneg]
    rfl
  · rw [if_neg fun h => hneg h.1.2, if_neg fun h => hneg (lt_zero_iff.mpr h),
      magnitude_of_nonneg hneg]
    rfl

theorem reverse_getReverseDigits_sixteen (x : UInt32) :
    (getReverseDigits 16 x.toInt32 16 false).reverse = numeral 16 x.toNat := by
  by_cases hx : x.toInt32 = 0
  · have hzero : x = 0 := congrArg Int32.toUInt32 hx
    subst hzero
    decide
  · rw [getReverseDigits_of_ne (by decide) hx, if_neg fun h => absurd h.1.1 (by decide),
      append_nil, reverse_reverseDigits (by decide) hx]
    rfl

theorem length_getReverseDigits_le (hbase : 10 ≤ base.toNat) :
    (getReverseDigits 16 xx base sgn).length ≤ 11 := by
  by_cases hx : xx = 0
  · subst hx
    rw [getReverseDigits_zero]
    decide
  have hlen := length_digits_le hbase (magnitude xx sgn)
  rw [getReverseDigits_of_ne (by omega) hx, reverseDigits_sixteen hbase, length_append, length_map]
  split
  · rw [length_singleton]
    omega
  · rw [length_nil]
    omega

end Convert

/-! ### Stores -/

/-- Characters one behind the other, from address `a` on. -/
def placed : UInt32 → List UInt8 → List Store
  | _, [] => []
  | a, c :: s => (a, c) :: placed (a + 1) s

theorem ofNat_succ (k : ℕ) : UInt32.ofNat (k + 1) = 1 + UInt32.ofNat k := by
  rw [UInt32.ofNat_add, UInt32.add_comm]
  rfl

theorem placed_append (a : UInt32) (s t : List UInt8) :
    placed a (s ++ t) = placed a s ++ placed (a + UInt32.ofNat s.length) t := by
  induction s generalizing a with
  | nil => exact congrArg (placed · t) (UInt32.add_zero a).symm
  | cons c s ih =>
    rw [cons_append, placed, placed, ih, length_cons, ofNat_succ, UInt32.add_assoc, cons_append]

section Put

variable {o L i : UInt32} {s : List UInt8}

theorem toNat_succ (h : i.toNat + 1 < 2 ^ 32) : (i + 1).toNat = i.toNat + 1 := by
  rw [UInt32.toNat_add]
  exact Nat.mod_eq_of_lt h

theorem sputc_append (hi : i.toNat + 1 < 2 ^ 32) (c : UInt8) (s : List UInt8) :
    sputc o L i c ++ placed (o + (i + 1)) (s.take (L.toNat - (i + 1).toNat)) =
      placed (o + i) ((c :: s).take (L.toNat - i.toNat)) := by
  rw [toNat_succ hi]
  by_cases hlt : i < L
  · have hnat : i.toNat < L.toNat := UInt32.lt_iff_toNat_lt.mp hlt
    have hroom : L.toNat - i.toNat = L.toNat - (i.toNat + 1) + 1 := by omega
    rw [sputc, if_pos hlt, hroom, take_succ_cons, placed, UInt32.add_assoc]
    rfl
  · have hnat : ¬ i.toNat < L.toNat := mt UInt32.lt_iff_toNat_lt.mpr hlt
    rw [sputc, if_neg hlt, Nat.sub_eq_zero_of_le (by omega), Nat.sub_eq_zero_of_le (by omega)]
    rfl

theorem putAll_eq (h : i.toNat + s.length < 2 ^ 32) : putAll o L i s =
    (i + UInt32.ofNat s.length, placed (o + i) (s.take (L.toNat - i.toNat))) := by
  induction s generalizing i with
  | nil =>
    rw [putAll, take_nil, length_nil, placed]
    exact congrArg (·, []) (UInt32.add_zero i).symm
  | cons c s ih =>
  rw [length_cons] at h
  have hsucc : (i + 1).toNat = i.toNat + 1 := toNat_succ (by omega)
  rw [putAll, ih (by omega), length_cons, ofNat_succ, UInt32.add_assoc]
  exact Prod.ext rfl (sputc_append (by omega) c s)

theorem putLoop_eq (h : i.toNat + s.length < 2 ^ 32) :
    putLoop o L i s = placed (o + i) (s.take (L.toNat - i.toNat)) := by
  induction s generalizing i with
  | nil => rw [putLoop, take_nil, placed]
  | cons c s ih =>
  rw [length_cons] at h
  have hsucc : (i + 1).toNat = i.toNat + 1 := toNat_succ (by omega)
  rw [putLoop, ← sputc_append (by omega), ih (by omega)]
  split
  · rfl
  next hlt =>
  have hnat : ¬ i.toNat < L.toNat := mt UInt32.lt_iff_toNat_lt.mpr hlt
  rw [sputc, if_neg hlt, Nat.sub_eq_zero_of_le (by omega)]
  rfl

theorem printint_eq (hi : i < L) {xx : Int32} {base : UInt32} {sgn : Bool}
    (hbase : 10 ≤ base.toNat) (ht : (getReverseDigits 16 xx base sgn).reverse = s) :
    printint (o + i) (L - i) xx base sgn =
      (UInt32.ofNat s.length, placed (o + i) (s.take (L.toNat - i.toNat))) := by
  have hlen : (getReverseDigits 16 xx base sgn).length ≤ 11 := length_getReverseDigits_le hbase
  have hsub : (L - i).toNat = L.toNat - i.toNat :=
    UInt32.toNat_sub_of_le _ _ (UInt32.le_of_lt hi)
  rw [← length_reverse, ht] at hlen
  rw [printint, ht, ← length_reverse, ht, putLoop_eq (by rw [UInt32.toNat_zero]; omega), hsub,
    UInt32.add_zero, UInt32.toNat_zero, Nat.sub_zero]

end Put

section Loop

variable {strAt : UInt32 → Str} {ap : ℕ → UInt32} {o L i : UInt32}

theorem length_conversion_lt (c : UInt8) (arg : UInt32) :
    (conversion strAt c arg).length < 2 ^ 31 := by
  unfold conversion
  split
  · rw [← reverse_getReverseDigits_ten, length_reverse]
    exact lt_of_le_of_lt (length_getReverseDigits_le (by decide)) (by decide)
  split
  · rw [← reverse_getReverseDigits_sixteen, length_reverse]
    exact lt_of_le_of_lt (length_getReverseDigits_le (by decide)) (by decide)
  split
  · split
    · decide
    · exact (strAt arg).length_lt
  split
  · rw [length_singleton]
    decide
  split
  · decide
  · rw [length_cons, length_singleton]
    decide

theorem convert_eq (hi : i < L) (hlow : i.toNat < 2 ^ 31) (c : UInt8) (arg : UInt32) :
    convert strAt o L c arg i = (i + UInt32.ofNat (conversion strAt c arg).length,
      placed (o + i) ((conversion strAt c arg).take (L.toNat - i.toNat))) := by
  have hlen : (conversion strAt c arg).length < 2 ^ 31 := length_conversion_lt c arg
  have hfits : i.toNat + (conversion strAt c arg).length < 2 ^ 32 := by omega
  unfold conversion at hfits ⊢
  unfold convert
  split_ifs at hfits ⊢ with hd hx hs harg hc hp
  · rw [printint_eq hi (by decide) (reverse_getReverseDigits_ten _)]
  · rw [printint_eq hi (by decide) (reverse_getReverseDigits_sixteen _)]
  · exact putAll_eq hfits
  · exact putAll_eq hfits
  · exact putAll_eq hfits
  · rw [hp]
    exact putAll_eq hfits
  · exact putAll_eq hfits

/-- What the loop has to do from index `i` on for the text `t`. -/
structure Puts (o L i : UInt32) (t : List UInt8) (r : UInt32 × List Store) : Prop where
  index : min L.toNat r.1.toNat = min L.toNat (i.toNat + t.length)
  stores : r.2 = placed (o + i) (t.take (L.toNat - i.toNat))

theorem Puts.append {s t : List UInt8} {r : UInt32 × List Store} (hi : i < L)
    (hL : L.toNat < 2 ^ 31) (hs : s.length < 2 ^ 31)
    (hr : Puts o L (i + UInt32.ofNat s.length) t r) :
    Puts o L i (s ++ t) (r.1, placed (o + i) (s.take (L.toNat - i.toNat)) ++ r.2) := by
  have hnat : i.toNat < L.toNat := UInt32.lt_iff_toNat_lt.mp hi
  have hindex : (i + UInt32.ofNat s.length).toNat = i.toNat + s.length := by
    rw [UInt32.toNat_add, UInt32.toNat_ofNat_of_lt' (by change _ < 2 ^ 32; omega)]
    exact Nat.mod_eq_of_lt (by omega)
  obtain ⟨hidx, hstores⟩ := hr
  rw [hindex] at hidx hstores
  refine ⟨?_, ?_⟩
  · rw [length_append, hidx]
    omega
  rw [hstores, take_append]
  by_cases hfit : s.length ≤ L.toNat - i.toNat
  · rw [take_of_length_le hfit, placed_append, UInt32.add_assoc]
    have hrest : L.toNat - i.toNat - s.length = L.toNat - (i.toNat + s.length) := by omega
    rw [hrest]
  · have hfull : L.toNat - (i.toNat + s.length) = 0 := by omega
    have hrest : L.toNat - i.toNat - s.length = 0 := by omega
    rw [hfull, hrest, take_zero, placed, append_nil, append_nil]

end Loop

/-! ### The memory afterwards -/

section Snprintf

variable (strAt : UInt32 → Str) (ap : ℕ → UInt32) (outbuffer : UInt32) (n : Int32) (fmt : Str)

theorem toNat_end (h : n.toUInt32.toNat ≠ 0) : (n - 1).toUInt32.toNat = n.toUInt32.toNat - 1 := by
  have hsub : (n - 1).toUInt32.toNat = (2 ^ 32 - 1 + n.toUInt32.toNat) % 2 ^ 32 :=
    UInt32.toNat_sub ..
  have hlt := n.toUInt32.toNat_lt
  omega

theorem toNat_min (a b : UInt32) : (if a < b then a else b).toNat = min a.toNat b.toNat := by
  split
  · next h => exact (Nat.min_eq_left (UInt32.lt_iff_toNat_lt.mp h).le).symm
  · next h => exact (Nat.min_eq_right (not_lt.mp (mt UInt32.lt_iff_toNat_lt.mpr h))).symm

theorem snprintf_stores (h : n.toUInt32.toNat ≠ 0) : (snprintf strAt ap outbuffer n fmt).2 =
      (printfLoop strAt ap outbuffer (n - 1).toUInt32 fmt.bytes false 0 0).2 ++
        [(outbuffer + (snprintf strAt ap outbuffer n fmt).1, 0)] := by
  refine if_pos (UInt32.lt_iff_toNat_lt.mpr ?_)
  rw [toNat_min, toNat_end n h]
  omega

theorem nil_ok : 0 ∉ ([] : List UInt8) ∧ ([] : List UInt8).length < 2 ^ 31 := by decide

theorem hex_ok : 0 ∉ ([48, 120, 37, 120] : List UInt8) ∧
    ([48, 120, 37, 120] : List UInt8).length < 2 ^ 31 := by decide

def noStrings : UInt32 → Str := fun _ => ⟨[], nil_ok.1, nil_ok.2⟩

/-- `"0x%x"` -/
def hexFormat : Str := ⟨[48, 120, 37, 120], hex_ok.1, hex_ok.2⟩

variable {strAt ap outbuffer n fmt}

theorem placed_take_eq_nil {L : UInt32} (hL : 0 < L) (a : UInt32) (s : List UInt8) :
    placed a (s.take (L.toNat - (0 : UInt32).toNat)) = [] ↔ s = [] := by
  have hpos : L.toNat ≠ 0 := (UInt32.lt_iff_toNat_lt.mp hL).ne'
  rw [UInt32.toNat_zero, Nat.sub_zero]
  cases s with
  | nil => exact iff_of_true (by rw [take_nil]; rfl) rfl
  | cons c s =>
  obtain ⟨k, hk⟩ := Nat.exists_eq_succ_of_ne_zero hpos
  rw [hk, take_succ_cons]
  exact iff_of_false (cons_ne_nil _ _) (cons_ne_nil _ _)

theorem printfLoop_eq_nil {o L : UInt32} (hL : 0 < L) (l : List UInt8) (state : Bool) (k : ℕ) :
    (printfLoop strAt ap o L l state k 0).2 = [] ↔ fullText strAt ap l state k = [] := by
  induction l generalizing state k with
  | nil => exact iff_of_true rfl rfl
  | cons c l ih =>
  rw [printfLoop, if_pos hL]
  cases state with
  | false =>
    rw [if_pos rfl, fullText]
    split
    · exact ih true k
    refine iff_of_false (fun h => ?_) (cons_ne_nil _ _)
    have hput : putAll o L 0 [c] = _ := putAll_eq (by rw [length_singleton]; decide)
    rw [hput] at h
    exact cons_ne_nil _ _ ((placed_take_eq_nil hL _ _).mp (append_eq_nil_iff.mp h).1)
  | true =>
    rw [if_neg Bool.false_ne_true.symm, fullText, append_eq_nil_iff, append_eq_nil_iff,
      convert_eq hL (by decide), placed_take_eq_nil hL]
    refine and_congr_right fun hnil => ?_
    rw [hnil]
    exact ih false _

/-- **Empty buffers.** For `n ≤ 0` nothing is stored exactly if `n` is 0 and the full text is empty:
the end of the buffer is then the end of memory, and for a negative `n` there is always the zero. -/
theorem no_store_iff (hn : n ≤ 0) : (snprintf strAt ap outbuffer n fmt).2 = [] ↔
    n = 0 ∧ fullText strAt ap fmt.bytes false 0 = [] := by
  by_cases hzero : n = 0
  · subst hzero
    have hstores : (snprintf strAt ap outbuffer 0 fmt).2 =
        (printfLoop strAt ap outbuffer ((0 : Int32) - 1).toUInt32 fmt.bytes false 0 0).2 := by
      have hlt : ∀ a : UInt32, ¬ a < (0 : Int32).toUInt32 := fun _ => UInt32.not_lt_zero
      rw [snprintf]
      dsimp only
      rw [if_neg (hlt _)]
    rw [hstores, printfLoop_eq_nil (by decide)]
    exact (and_iff_right rfl).symm
  · have hne : n.toUInt32.toNat ≠ 0 := by
      have hmag : magnitude n false = n.toUInt32 := by
        rw [magnitude, if_neg fun hc => Bool.false_ne_true hc.1]
      rw [← hmag]
      exact fun h => hzero (magnitude_eq_zero.mp h)
    rw [snprintf_stores strAt ap outbuffer n fmt hne]
    refine iff_of_false (fun h => ?_) fun h => hzero h.1
    exact cons_ne_nil _ _ (append_eq_nil_iff.mp h).2

theorem no_store_iff_empty : (0 : Int32) ≤ 0 ∧
    (snprintf noStrings (fun _ => 0) 4096 0 ⟨[], nil_ok.1, nil_ok.2⟩).2 = [] := by
  refine ⟨by decide, (no_store_iff (by decide)).mpr ⟨rfl, rfl⟩⟩

/-- `snprintf(buf, 0, "0x%x", 0xdeadbeef)` stores all ten characters. -/
theorem zero_size_stores :
    (snprintf noStrings (fun _ => 0xDEADBEEF) 4096 0 hexFormat).2.length = 10 := by
  decide +kernel

end Snprintf

/-! ### Against `ticks.c` -/

section Ticks

variable {x : Int32} {base : UInt32} {sgn : Bool} {length : ℕ}

theorem ticks_digitLoop_eq (hbase : 1 < base.toNat) (k : ℕ) (a : UInt32)
    (hk : k ≤ (Nat.digits base.toNat a.toNat).length) :
    Dev.digitLoop base k a = ((Nat.digits base.toNat a.toNat).take k).map digitChar := by
  induction k generalizing a with
  | zero => rfl
  | succ k ih =>
  have hpos : 0 < a.toNat := by
    refine Nat.pos_of_ne_zero fun h => ?_
    rw [h, Nat.digits_zero] at hk
    cases hk
  rw [Nat.digits_def' hbase hpos] at hk ⊢
  rw [Dev.digitLoop, take_succ_cons, map_cons, dig_eq, UInt32.toNat_mod,
    ih _ (by rw [UInt32.toNat_div]; exact Nat.le_of_succ_le_succ hk), UInt32.toNat_div]

theorem getReverse_of_ne (hx : x ≠ 0) :
    Dev.getReverse length x base sgn = Dev.digitLoop base (length - 1) (magnitude x sgn) ++
      if (sgn ∧ x < 0) ∧ length - 1 < length then [45] else [] := by
  simp only [Dev.getReverse, magnitude, ne_eq, hx, not_false_eq_true, if_true, false_and, if_false,
    Dev.length_digitLoop]
  split
  · rfl
  · rw [append_nil]

theorem getReverse_zero (length : ℕ) (base : UInt32) (sgn : Bool) :
    Dev.getReverse length 0 base sgn = if 1 < length then [48] else [] := by
  have hneg : ¬ (sgn = true ∧ (0 : Int32) < 0) := fun h => absurd h.2 (by decide)
  simp only [Dev.getReverse, if_neg fun h : _ ∧ _ => hneg h.1]
  simp

theorem getReverse_agrees_iff (hbase : 1 < base.toNat) :
    Dev.getReverse length x base sgn = getReverseDigits length x base sgn ↔
      x = 0 ∨ length ≤ (Nat.digits base.toNat (magnitude x sgn).toNat).length + 1 := by
  by_cases hx : x = 0
  · subst hx
    exact iff_of_true ((getReverse_zero _ _ _).trans (getReverseDigits_zero _ _ _).symm) (.inl rfl)
  rw [getReverse_of_ne hx, getReverseDigits_of_ne hbase hx]
  simp only [hx, false_or]
  have hlen : (reverseDigits length x base sgn).length =
      min (length - 1) (Nat.digits base.toNat (magnitude x sgn).toNat).length := by
    rw [reverseDigits, length_map, length_take]
  constructor
  · intro heq
    have hlens := congrArg List.length heq
    rw [List.length_append, List.length_append, Dev.length_digitLoop, hlen] at hlens
    by_contra hroom
    have hboth : (((sgn = true ∧ x < 0) ∧ length - 1 < length) ↔ (sgn = true ∧ x < 0) ∧
        min (length - 1) (Nat.digits base.toNat (magnitude x sgn).toNat).length < length) :=
      and_congr_right fun _ => by omega
    simp only [hboth] at hlens
    omega
  · intro hroom
    have hdigits : Dev.digitLoop base (length - 1) (magnitude x sgn)
        = reverseDigits length x base sgn := ticks_digitLoop_eq hbase _ _ (by omega)
    rw [hdigits, hlen, Nat.min_eq_left (by omega)]

/-- **The two conversions of integers** store the same characters exactly if the number is 0 or its
digits fill the buffer. So the text of `ticks` is that of `%d` at time 0 only. -/
theorem reverse_agrees_iff (hbase : base = 10 ∨ base = 16) :
    (Dev.getReverse length x base sgn = getReverseDigits length x base sgn ↔
      x = 0 ∨ length ≤ (Nat.digits base.toNat (magnitude x sgn).toNat).length + 1) ∧
    ∀ (strAt : UInt32 → Str) (ticks : UInt32),
      Dev.Device.ticks.content ticks = fullText strAt (fun _ => ticks) [37, 100] false 0 ↔
        ticks = 0 := by
  have hlt : 1 < base.toNat := by
    rcases hbase with rfl | rfl
    · decide
    · decide
  refine ⟨getReverse_agrees_iff hlt, fun strAt ticks => ?_⟩
  have htext : fullText strAt (fun _ => ticks) [37, 100] false 0 =
      (getReverseDigits 16 ticks.toInt32 10 true).reverse := by
    rw [reverse_getReverseDigits_ten]
    exact append_nil _
  have hlen : (Nat.digits (10 : UInt32).toNat (magnitude ticks.toInt32 true).toNat).length ≤ 10 :=
    length_digits_le (by decide) (magnitude ticks.toInt32 true)
  change (Dev.getReverse 16 ticks.toInt32 10 true).reverse = _ ↔ _
  rw [htext, reverse_inj, getReverse_agrees_iff (by decide)]
  constructor
  · rintro (hzero | hfull)
    · exact congrArg Int32.toUInt32 hzero
    · omega
  · rintro rfl
    exact .inl rfl

/-- The number 123, in a buffer that it fills. -/
theorem reverse_agrees_iff_full : getReverseDigits 4 123 10 true = [51, 50, 49] ∧
    Dev.getReverse 4 123 10 true = getReverseDigits 4 123 10 true :=
  ⟨by decide +kernel, (reverse_agrees_iff (.inl rfl)).1.mpr (.inr (by decide +kernel))⟩

/-- The number 7, in a buffer of 16 bytes: fifteen digits against one. -/
theorem seven_padded : (Dev.getReverse 16 7 10 true).length = 15 ∧
    getReverseDigits 16 7 10 true = [55] ∧
    Dev.getReverse 16 7 10 true ≠ getReverseDigits 16 7 10 true := by
  decide +kernel

end Ticks

end Xv6.Printf
