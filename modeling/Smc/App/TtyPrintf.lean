/-
# Formatted output

`tty_printf` of `giet_2011/app/stdio.c`. The format is read from memory byte
by byte: a run of characters up to a `%` or the final NUL is one system call,
and the byte after a `%` chooses a conversion of the next argument. A
conversion of a number fills a buffer from its end, with digits from the table
`HexaTab`. Every system call is checked, and a short one ends the function
with 1.

The table and the buffer are C arrays: an index is an integer, and what it
finds outside of the array is not known. The indices used are recorded.

Key definitions: `convert`, `arguments`, `scan`, `ttyPrintf`.
-/
import Smc.Giet.TtyWrite
import Smc.Lib.Numerals

namespace Smc
namespace App

open Giet.Tty

/-- The bytes of a string literal. -/
def ascii (s : String) : List Byte := s.toList.map fun c => BitVec.ofNat 8 c.toNat

/-- A string in memory, without its NUL. -/
structure CString where
  bytes : List Byte
  ne_nul : ∀ c ∈ bytes, c ≠ 0

namespace TtyPrintf

/-! ### The function -/

/-- `HexaTab`, with the NUL of its literal. -/
def hexaTab : List Byte := ascii "0123456789ABCDEF" ++ [0]

/-- The size of `buf`. -/
def bufSize : ℤ := 20

/-- What a call finds: its arguments, the strings in memory, and the bytes
outside of `HexaTab` and in `buf` at first. -/
structure Env where
  args : ℕ → Word
  str : Word → CString
  outside : ℤ → Byte
  buf : ℤ → Byte

/-- The terminal, the next argument, and the indices used of `HexaTab` and of
`buf`. -/
structure State where
  tty : Terminal
  ap : ℕ
  tabUsed : List ℤ
  bufUsed : List ℤ

/-- `HexaTab[i]`. -/
def Env.hexa (env : Env) (i : ℤ) : Byte :=
  if 0 ≤ i ∧ i < hexaTab.length then hexaTab.getD i.toNat 0 else env.outside i

/-- A loop that converts a number: the buffer, the number left and the
counter, and the indices used. -/
structure Conv where
  buf : ℤ → Byte
  val : Word
  i : ℕ
  tabUsed : List ℤ
  bufUsed : List ℤ

/-- The operators of a conversion: `val % base` as an index and `val / base`,
and the last index of the buffer. -/
structure Radix where
  rem : Word → ℤ
  quot : Word → Word
  last : ℕ

/-- The operators on `int`, which round to zero. -/
def decimal : Radix where
  rem v := v.toInt.tmod 10
  quot v := BitVec.ofInt 32 (v.toInt.tdiv 10)
  last := 9

/-- The operators with `16U`, on `unsigned int`. -/
def hexadecimal : Radix where
  rem v := (v.toNat % 16 : ℕ)
  quot v := v / 16
  last := 7

section Loop

variable (env : Env) (rad : Radix)

/-- The rest of the loop, of `k` iterations at most. A `break` leaves `i` as
it is. -/
def convLoop : ℕ → Conv → Conv
  | 0, c => c
  | k + 1, c =>
    let j := (rad.last : ℤ) - c.i
    let c' : Conv :=
      { buf := Function.update c.buf j (env.hexa (rad.rem c.val))
        val := rad.quot c.val
        i := c.i
        tabUsed := c.tabUsed ++ [rad.rem c.val]
        bufUsed := c.bufUsed ++ [j] }
    if c'.val = 0 then c' else convLoop k { c' with i := c.i + 1 }

/-- The `n` bytes from index `p` on. -/
def bytesAt (buf : ℤ → Byte) (p : ℤ) (n : ℕ) : List Byte := (List.range n).map fun j => buf (p + (j : ℕ))

/-- The loop of a conversion. -/
def conv (val : Word) : Conv := convLoop env rad (rad.last + 1) ⟨env.buf, val, 0, [], []⟩

/-- The digits: `len = i+1` bytes from `&buf[last-i]` on. -/
def digits (val : Word) : List Byte :=
  bytesAt (conv env rad val).buf (rad.last - (conv env rad val).i) ((conv env rad val).i + 1)

/-- The indices of the bytes that the system call reads. -/
def digitsUsed (val : Word) : List ℤ :=
  (List.range ((conv env rad val).i + 1)).map fun j => (rad.last : ℤ) - (conv env rad val).i + (j : ℕ)

end Loop

/-- A system call that writes, and the test of what it returns. -/
def sysWrite (buffer : List Byte) (s : State) : Except State State :=
  let r := ttyWrite buffer s.tty
  if r.1 ≠ buffer.length then .error { s with tty := r.2 } else .ok { s with tty := r.2 }

variable (env : Env)

/-- A conversion of a number, and the system call for its digits. -/
def convert (rad : Radix) (val : Word) (s : State) : Except State State :=
  sysWrite (digits env rad val)
    { s with
      tabUsed := s.tabUsed ++ (conv env rad val).tabUsed
      bufUsed := s.bufUsed ++ ((conv env rad val).bufUsed ++ digitsUsed env rad val) }

/-- `printf_arguments`, with the byte after the `%`. The case of `d` falls
through to that of `u`. -/
def arguments (c : Byte) (s : State) : Except State State :=
  let val := env.args s.ap
  let s := { s with ap := s.ap + 1 }
  if c = 0x63 then sysWrite [val.setWidth 8] { s with bufUsed := s.bufUsed ++ [0] }
  else if c = 0x64 then
    if val.toInt < 0 then sysWrite (ascii "-") s >>= convert env decimal (-val)
    else convert env decimal val s
  else if c = 0x75 then convert env decimal val s
  else if c = 0x78 then sysWrite (ascii "0x") s >>= convert env hexadecimal val
  else if c = 0x73 then sysWrite (env.str val).bytes s
  else .ok s

/-- Where the function is: at `printf_text` after some characters of a run, or
at `printf_arguments`. -/
inductive Pc where
  | text (run : List Byte)
  | arguments
deriving DecidableEq, Repr

/-- The function from a point on, with the bytes from `*format` on: it returns
0 (`ok`) or 1 (`error`), or leaves the memory. -/
def scan : Pc → List Byte → State → Option (Except State State)
  | _, [], _ => none
  | .text run, c :: format, s =>
    if c = 0 ∨ c = 0x25 then
      match (if run = [] then .ok s else sysWrite run s : Except State State) with
      | .error s => some (.error s)
      | .ok s => if c = 0x25 then scan .arguments format s else some (.ok s)
    else scan (.text (run ++ [c])) format s
  | .arguments, c :: format, s =>
    match arguments env c s with
    | .error s => some (.error s)
    | .ok s => scan (.text []) format s

/-- `tty_printf`, with the memory from the format on. -/
def ttyPrintf (format : List Byte) (status : ℕ → Word) : Option (Except State State) :=
  scan env (.text []) format ⟨.start status, 0, [], []⟩

/-! ### The loop of a conversion -/

section Digits

variable {env} {rad : Radix} {b : ℕ} {D : Word → Prop}

/-- On the words of `D`, the operators are those of base `b`. -/
structure Radix.Divides (rad : Radix) (b : ℕ) (D : Word → Prop) : Prop where
  rem : ∀ v, D v → rad.rem v = (v.toNat % b : ℕ)
  quot : ∀ v, D v → (rad.quot v).toNat = v.toNat / b
  closed : ∀ v, D v → D (rad.quot v)

theorem decimal_divides : decimal.Divides 10 fun v => v.toNat < 2 ^ 31 := by
  have hint : ∀ v : Word, v.toNat < 2 ^ 31 → v.toInt = (v.toNat : ℤ) :=
    fun v hv => BitVec.toInt_eq_toNat_of_lt (by omega)
  have hquot : ∀ v : Word, v.toNat < 2 ^ 31 → (decimal.quot v).toNat = v.toNat / 10 := by
    intro v hv
    show (BitVec.ofInt 32 (v.toInt.tdiv 10)).toNat = _
    rw [hint v hv, BitVec.toNat_ofInt, Int.tdiv_eq_ediv_of_nonneg (by omega)]
    omega
  refine ⟨fun v hv => ?_, hquot, fun v hv => ?_⟩
  · show v.toInt.tmod 10 = _
    rw [hint v hv, Int.tmod_eq_emod_of_nonneg (by omega)]
    rfl
  · rw [hquot v hv]
    omega

theorem hexadecimal_divides : hexadecimal.Divides 16 fun _ => True :=
  ⟨fun _ _ => rfl, fun _ _ => BitVec.toNat_udiv, fun _ _ => trivial⟩

theorem bytesAt_update (buf : ℤ → Byte) (p : ℤ) (x : Byte) (n : ℕ) :
    bytesAt (Function.update buf p x) p (n + 1) = x :: bytesAt buf (p + 1) n := by
  unfold bytesAt
  rw [List.range_succ_eq_map, List.map_cons, List.map_map]
  congr 1
  · simp
  · apply List.map_congr_left
    intro j _
    have hne : p + ((j + 1 : ℕ) : ℤ) ≠ p := by omega
    have hadd : p + ((j + 1 : ℕ) : ℤ) = p + 1 + (j : ℕ) := by push_cast; ring
    rw [Function.comp_apply, Nat.succ_eq_add_one, Function.update_of_ne hne, hadd]

/-- One iteration, before the test. -/
def iteration (env : Env) (rad : Radix) (c : Conv) : Conv where
  buf := Function.update c.buf (rad.last - c.i) (env.hexa (rad.rem c.val))
  val := rad.quot c.val
  i := c.i
  tabUsed := c.tabUsed ++ [rad.rem c.val]
  bufUsed := c.bufUsed ++ [(rad.last : ℤ) - c.i]

theorem convLoop_succ (k : ℕ) (c : Conv) : convLoop env rad (k + 1) c = if (iteration env rad c).val = 0
    then iteration env rad c else convLoop env rad k { iteration env rad c with i := c.i + 1 } := rfl

theorem iteration_text (h : rad.Divides b D) {c : Conv} (hD : D c.val) :
    bytesAt (iteration env rad c).buf (rad.last - c.i) (c.i + 1) =
      env.hexa (c.val.toNat % b : ℕ) :: bytesAt c.buf (rad.last - c.i + 1) c.i := by
  rw [← h.rem c.val hD]
  exact bytesAt_update c.buf (rad.last - c.i) _ c.i

theorem iteration_tabUsed (env : Env) (h : rad.Divides b D) (hb : 1 < b) {c : Conv} (hD : D c.val) :
    ∀ j ∈ (iteration env rad c).tabUsed, j ∈ c.tabUsed ∨ (0 ≤ j ∧ j < b) := by
  intro j hj
  have hmod : c.val.toNat % b < b := Nat.mod_lt _ (by omega)
  rcases List.mem_append.mp hj with hj | hj
  · exact .inl hj
  · rw [List.mem_singleton.mp hj, h.rem c.val hD]
    exact .inr ⟨by omega, by omega⟩

theorem iteration_bufUsed (env : Env) (c : Conv) (k : ℕ) : ∀ j ∈ (iteration env rad c).bufUsed,
    j ∈ c.bufUsed ∨ ((rad.last : ℤ) - (c.i + (k + 1 : ℕ)) < j ∧ j ≤ rad.last) := by
  intro j hj
  rcases List.mem_append.mp hj with hj | hj
  · exact .inl hj
  · rw [List.mem_singleton.mp hj]
    exact .inr ⟨by omega, by omega⟩

/-- What the loop has done when it ends, `k` iterations being left. -/
structure Converted (env : Env) (rad : Radix) (b k : ℕ) (c r : Conv) : Prop where
  text : bytesAt r.buf (rad.last - r.i) (r.i + 1) =
    (Numerals.numeral b c.val.toNat).map (fun d => env.hexa (d : ℕ)) ++ bytesAt c.buf (rad.last - c.i + 1) c.i
  lt : r.i < c.i + k
  tabUsed : ∀ j ∈ r.tabUsed, j ∈ c.tabUsed ∨ (0 ≤ j ∧ j < b)
  bufUsed : ∀ j ∈ r.bufUsed, j ∈ c.bufUsed ∨ ((rad.last : ℤ) - (c.i + k) < j ∧ j ≤ rad.last)

/-- The iteration of the first digit is the last one. -/
theorem converted_of_lt (h : rad.Divides b D) (hb : 1 < b) {c : Conv} (hD : D c.val) (hn : c.val.toNat < b) (k : ℕ) :
    Converted env rad b (k + 1) c (iteration env rad c) := by
  refine ⟨?_, ?_, iteration_tabUsed env h hb hD, iteration_bufUsed env c k⟩
  · show bytesAt (iteration env rad c).buf (rad.last - c.i) (c.i + 1) = _
    rw [iteration_text h hD, Numerals.numeral_of_lt hn, Nat.mod_eq_of_lt hn]
    rfl
  · show c.i < _
    omega

/-- An iteration puts its digit behind those of the rest of the loop. -/
theorem Converted.before {k : ℕ} {c r : Conv} (h : rad.Divides b D) (hb : 1 < b) (hD : D c.val) (hn : b ≤ c.val.toNat)
    (hr : Converted env rad b k { iteration env rad c with i := c.i + 1 } r) : Converted env rad b (k + 1) c r := by
  refine ⟨?_, ?_, fun j hj => ?_, fun j hj => ?_⟩
  · have hp : (rad.last : ℤ) - ((c.i + 1 : ℕ) : ℤ) + 1 = rad.last - c.i := by push_cast; ring
    have hval : (iteration env rad c).val.toNat = c.val.toNat / b := h.quot c.val hD
    rw [hr.text, hval, hp, iteration_text h hD, Numerals.numeral_of_le hb hn]
    simp
  · have hlt : r.i < c.i + 1 + k := hr.lt
    omega
  · rcases hr.tabUsed j hj with hj | hj
    · exact iteration_tabUsed env h hb hD j hj
    · exact .inr hj
  · rcases hr.bufUsed j hj with hj | hj
    · exact iteration_bufUsed env c k j hj
    · dsimp only at hj
      push_cast at hj ⊢
      exact .inr ⟨by omega, hj.2⟩

/-- With enough iterations for the number, the loop writes its numeral in
front of what is there. -/
theorem convLoop_spec (h : rad.Divides b D) (hb : 1 < b) : ∀ (k : ℕ) (c : Conv), 0 < k → D c.val →
    c.val.toNat < b ^ k → Converted env rad b k c (convLoop env rad k c)
  | 0, _, hk, _, _ => absurd hk (lt_irrefl 0)
  | k + 1, c, _, hD, hlt => by
    have hquot : (iteration env rad c).val.toNat = c.val.toNat / b := h.quot c.val hD
    have hzero : (iteration env rad c).val = 0 ↔ c.val.toNat < b := by
      rw [← Nat.div_eq_zero_iff_lt (show 0 < b by omega), ← hquot]
      exact BitVec.toNat_inj.symm
    rw [convLoop_succ]
    split_ifs with h0
    · exact converted_of_lt h hb hD (hzero.mp h0) k
    · have hn : b ≤ c.val.toNat := by
        rw [hzero] at h0
        omega
      have hdiv : c.val.toNat / b < b ^ k := by
        apply Nat.div_lt_of_lt_mul
        rwa [pow_succ, mul_comm] at hlt
      have hk : 0 < k := by
        rcases Nat.eq_zero_or_pos k with rfl | hk
        · exact absurd hlt (by simpa using hn)
        · exact hk
      apply Converted.before h hb hD hn
      apply convLoop_spec h hb k _ hk (h.closed _ hD)
      show (iteration env rad c).val.toNat < b ^ k
      rw [hquot]
      exact hdiv

/-- The character of a digit, with capital letters. -/
def digitByte (d : ℕ) : Byte := if d < 10 then BitVec.ofNat 8 (0x30 + d) else BitVec.ofNat 8 (0x41 + (d - 10))

/-- The canonical numeral of a number. -/
def numeralText (b n : ℕ) : List Byte := (Numerals.numeral b n).map digitByte

theorem hexa_of_lt {d : ℕ} (hd : d < 16) : env.hexa (d : ℕ) = digitByte d := by
  unfold Env.hexa
  have hlen : hexaTab.length = 17 := by decide
  rw [if_pos ⟨by omega, by rw [hlen]; omega⟩]
  interval_cases d <;> rfl

/-- What a conversion gives when there are digits enough for the number. -/
structure Numbers (env : Env) (rad : Radix) (b : ℕ) (v : Word) : Prop where
  digits : digits env rad v = numeralText b v.toNat
  tabUsed : ∀ j ∈ (conv env rad v).tabUsed, 0 ≤ j ∧ j < hexaTab.length
  bufUsed : ∀ j ∈ (conv env rad v).bufUsed ++ digitsUsed env rad v, 0 ≤ j ∧ j < bufSize

theorem numbers (h : rad.Divides b D) (hb : 1 < b) (hb' : b ≤ 16) (hlast : rad.last < 20) {v : Word} (hD : D v)
    (hlt : v.toNat < b ^ (rad.last + 1)) : Numbers env rad b v := by
  have hc : Converted env rad b (rad.last + 1) ⟨env.buf, v, 0, [], []⟩ (conv env rad v) :=
    convLoop_spec h hb (rad.last + 1) _ (Nat.succ_pos _) hD hlt
  have hi : (conv env rad v).i ≤ rad.last := by
    have := hc.lt
    dsimp only at this
    omega
  refine ⟨?_, fun j hj => ?_, fun j hj => ?_⟩
  · rw [TtyPrintf.digits, hc.text]
    have hnil : bytesAt env.buf (rad.last - (0 : ℕ) + 1) 0 = [] := rfl
    rw [hnil, List.append_nil]
    apply List.map_congr_left
    intro d hd
    exact hexa_of_lt (lt_of_lt_of_le (Numerals.lt_of_mem_numeral hb hd) hb')
  · rcases hc.tabUsed j hj with hj | hj
    · cases hj
    · have hlen : hexaTab.length = 17 := by decide
      rw [hlen]
      omega
  · unfold bufSize
    rcases List.mem_append.mp hj with hj | hj
    · rcases hc.bufUsed j hj with hj | hj
      · cases hj
      · push_cast at hj
        omega
    · unfold digitsUsed at hj
      obtain ⟨i, hi', rfl⟩ := List.mem_map.mp hj
      have := List.mem_range.mp hi'
      omega

theorem numbers_decimal {v : Word} (hv : v.toNat < 2 ^ 31) : Numbers env decimal 10 v :=
  numbers decimal_divides (by decide) (by decide) (by decide) hv (hv.trans (by decide))

theorem numbers_hexadecimal (v : Word) : Numbers env hexadecimal 16 v :=
  numbers hexadecimal_divides (by decide) (by decide) (by decide) trivial (v.isLt.trans_eq (by rfl))

theorem mem_convLoop {j : ℤ} : ∀ (k : ℕ) (c : Conv), j ∈ c.tabUsed → j ∈ (convLoop env rad k c).tabUsed
  | 0, _, hj => hj
  | k + 1, c, hj => by
    unfold convLoop
    dsimp only
    split_ifs
    · exact List.mem_append_left _ hj
    · exact mem_convLoop k _ (List.mem_append_left _ hj)

/-- The operators on a negative `int` round to zero, and leave a negative
remainder or none. -/
theorem decimal_neg {v : Word} (hv : v.toInt < 0) :
    decimal.rem v = -(-v.toInt % 10) ∧ (decimal.quot v).toInt = -(-v.toInt / 10) := by
  have hmin := BitVec.le_toInt v
  constructor
  · show v.toInt.tmod 10 = _
    rw [← neg_neg v.toInt, Int.neg_tmod, Int.tmod_eq_emod_of_nonneg (by omega), neg_neg]
  · show (BitVec.ofInt 32 (v.toInt.tdiv 10)).toInt = _
    rw [← neg_neg v.toInt, Int.neg_tdiv, Int.tdiv_eq_ediv_of_nonneg (by omega), neg_neg, BitVec.toInt_ofInt]
    apply Int.bmod_eq_of_le <;> omega

/-- A negative number has a digit that is not zero, and its index is
negative. -/
theorem convLoop_neg : ∀ (k : ℕ) (c : Conv), c.val.toInt < 0 → -(10 ^ k : ℤ) < c.val.toInt →
    ∃ j ∈ (convLoop env decimal k c).tabUsed, j < 0
  | 0, _, hneg, hlt => by
    rw [pow_zero] at hlt
    omega
  | k + 1, c, hneg, hlt => by
    obtain ⟨hrem, hquot⟩ := decimal_neg hneg
    unfold convLoop
    dsimp only
    by_cases h0 : decimal.rem c.val < 0
    · refine ⟨decimal.rem c.val, ?_, h0⟩
      split_ifs
      · exact List.mem_append_right _ (List.mem_singleton_self _)
      · exact mem_convLoop k _ (List.mem_append_right _ (List.mem_singleton_self _))
    · -- the last digit is zero: there is one before it
      have hq : (decimal.quot c.val).toInt < 0 := by omega
      have hne : decimal.quot c.val ≠ 0 := by
        intro hz
        rw [hz] at hq
        exact absurd hq (by decide)
      rw [if_neg hne]
      refine convLoop_neg k _ ?_ ?_
      · exact hq
      · show -(10 ^ k : ℤ) < (decimal.quot c.val).toInt
        rw [pow_succ] at hlt
        omega

theorem conv_neg {v : Word} (hv : v.toInt < 0) : ∃ j ∈ (conv env decimal v).tabUsed, j < 0 := by
  have hmin := BitVec.le_toInt v
  have hlt : -(10 ^ 10 : ℤ) < v.toInt := by omega
  exact convLoop_neg 10 ⟨env.buf, v, 0, [], []⟩ hv hlt

end Digits

end TtyPrintf
end App
end Smc
