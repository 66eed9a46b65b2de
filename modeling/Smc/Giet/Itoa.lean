/-
# Numbers as text

`_itoa_dec` and `_itoa_hex` (`giet_2011/sys/common.c`) write a 32-bit number
from its last digit to its first, ten decimal or eight hexadecimal characters;
in decimal, leading zeros are spaces. Each digit is looked up in a table. The
table of `_itoa_hex` ends with D: for the digit E the character is the NUL that
ends the table, and for F it is read outside of it.

The text of `_itoa_hex` can be read back exactly if the number has none of
these two digits (`faithful_iff`). The registers that the exception handlers
print are such numbers only by chance.

Key definitions: `itoaDec`, `itoaHex`, `Faithful`.
Key theorems: `decText_eq`, `hexText_eq`, `faithful_iff`.
-/
import Smc.Lib.Numerals
import Smc.Giet.Tty

namespace Smc
namespace Giet
namespace Itoa

open Tty (Word Byte)
open Numerals (fillBack value)

/-! ### The functions -/

/-- `"0123456789"`, with its NUL. -/
def dectab : List Byte := [0x30, 0x31, 0x32, 0x33, 0x34, 0x35, 0x36, 0x37, 0x38, 0x39, 0x00]

/-- `"0123456789ABCD"`, with its NUL. -/
def hexatab : List Byte :=
  [0x30, 0x31, 0x32, 0x33, 0x34, 0x35, 0x36, 0x37, 0x38, 0x39, 0x41, 0x42, 0x43, 0x44, 0x00]

/-- `_itoa_dec`, on what the buffer holds at first. -/
def itoaDec (val : Word) (buf : ℕ → Byte) : Option (ℕ → Byte) :=
  fillBack 10 (fun i val => if val ≠ 0 ∨ i = 0 then dectab[(val % 10).toNat]? else some 0x20) (· / 10) 10 0 val buf

/-- `_itoa_hex`; it fails if it reads outside of its table. -/
def itoaHex (val : Word) (buf : ℕ → Byte) : Option (ℕ → Byte) :=
  fillBack 8 (fun _ val => hexatab[(val % 16).toNat]?) (· / 16) 8 0 val buf

def decText (val : Word) (buf : ℕ → Byte) : Option (List Byte) := (itoaDec val buf).map fun b => (List.range 10).map b

def hexText (val : Word) (buf : ℕ → Byte) : Option (List Byte) := (itoaHex val buf).map fun b => (List.range 8).map b

/-! ### The digits -/

variable {val : Word} {buf : ℕ → Byte}

theorem toNat_iterate_div {d : Word} (val : Word) (k : ℕ) : ((· / d)^[k] val).toNat = val.toNat / d.toNat ^ k := by
  induction k with
  | zero => rw [pow_zero, Nat.div_one]; rfl
  | succ k ih => rw [Function.iterate_succ_apply', BitVec.toNat_udiv, ih, Nat.div_div_eq_div_mul, pow_succ]

theorem toNat_digit {d : Word} (val : Word) (k : ℕ) :
    ((· / d)^[k] val % d).toNat = val.toNat / d.toNat ^ k % d.toNat := by
  rw [BitVec.toNat_umod, toNat_iterate_div]

def decChar (n i : ℕ) : Byte := if n / 10 ^ i ≠ 0 ∨ i = 0 then BitVec.ofNat 8 (0x30 + n / 10 ^ i % 10) else 0x20

theorem dectab_get {d : ℕ} (hd : d < 10) : dectab[d]? = some (BitVec.ofNat 8 (0x30 + d)) := by
  interval_cases d <;> rfl

/-- `_itoa_dec` always ends, with the characters of the ten places. -/
theorem decText_eq (val : Word) (buf : ℕ → Byte) :
    decText val buf = some ((List.range 10).reverse.map (decChar val.toNat)) := by
  have hten : (10 : Word).toNat = 10 := rfl
  obtain ⟨buf', hrun, htext⟩ : ∃ buf', itoaDec val buf = some buf' ∧
      (List.range 10).map buf' = (List.range 10).reverse.map (decChar val.toNat) := by
    apply Numerals.fillBack_eq
    intro i _
    have hzero : (· / 10)^[i] val ≠ 0 ↔ val.toNat / 10 ^ i ≠ 0 := by
      rw [ne_eq, ← BitVec.toNat_inj, toNat_iterate_div, hten]
      rfl
    rw [toNat_digit, hten, dectab_get (Nat.mod_lt _ (by decide)), decChar]
    simp only [hzero, apply_ite some]
  rw [decText, hrun, ← htext]
  rfl

/-! ### Hexadecimal -/

/-- A character of 0-9A-F. -/
def isHexDigit (c : Byte) : Bool :=
  decide (0x30 ≤ c) && decide (c ≤ 0x39) || decide (0x41 ≤ c) && decide (c ≤ 0x46)

def hexVal (c : Byte) : ℕ := if c ≤ 0x39 then c.toNat - 0x30 else c.toNat - 0x37

/-- The index into the table in a pass. -/
def hexIndex (val : Word) (k : ℕ) : ℕ := ((· / 16)^[k] val % 16).toNat

/-- The digits in the table, without the NUL. -/
def hexDigits : ℕ := hexatab.length - 1

/-- A number is printed as it should be. -/
structure Faithful (val : Word) (buf : ℕ → Byte) : Prop where
  /-- the table is read at its digits -/
  indices : ∀ k < 8, hexIndex val k < hexDigits
  /-- there are eight characters of 0-9A-F, which read as the number -/
  text : ∃ cs, hexText val buf = some cs ∧ cs.length = 8 ∧ (∀ c ∈ cs, isHexDigit c = true) ∧
    value 16 (cs.map hexVal) = val.toNat
  /-- no other number has this text -/
  distinct : ∀ val', hexText val' buf = hexText val buf → val' = val

theorem hexIndex_eq (val : Word) (k : ℕ) : hexIndex val k = val.toNat / 16 ^ k % 16 := toNat_digit val k

theorem hexatab_get {d : ℕ} (hd : d < 14) : ∃ c, hexatab[d]? = some c ∧ isHexDigit c = true ∧ hexVal c = d := by
  interval_cases d <;> exact ⟨_, rfl, by decide, by decide⟩

theorem lt_of_hexatab_get {d : ℕ} {c : Byte} (h : hexatab[d]? = some c) (hc : isHexDigit c = true) : d < 14 := by
  by_contra hd
  rcases Nat.lt_or_ge d 15 with hlt | hge
  · have hnul : hexatab[14]? = some c := by rwa [show d = 14 by omega] at h
    cases hnul
    exact absurd hc (by decide)
  · rw [List.getElem?_eq_none (show hexatab.length ≤ d from hge)] at h
    cases h

theorem digits_of_hexText {cs : List Byte} (h : hexText val buf = some cs) (hcs : ∀ c ∈ cs, isHexDigit c = true) :
    ∀ k < 8, val.toNat / 16 ^ k % 16 < 14 := by
  intro k hk
  obtain ⟨buf', hrun, rfl⟩ := Option.map_eq_some_iff.mp h
  rcases Numerals.fillBack_spec (i := 0) (n := 8) (w := 8) le_rfl val buf with ⟨buf'', hrun', hchars, -⟩ | ⟨hnone, -⟩
  · have hsame : buf'' = buf' := Option.some.inj (hrun'.symm.trans hrun)
    have hget := hchars k hk
    rw [← hexIndex_eq]
    apply lt_of_hexatab_get hget
    apply hcs
    rw [hsame]
    exact List.mem_map_of_mem (List.mem_range.mpr (by omega))
  · rw [itoaHex, hnone] at hrun
    cases hrun

/-- Without E and F the text is that of the digits. -/
theorem hexText_eq (h : ∀ k < 8, val.toNat / 16 ^ k % 16 < 14) (buf : ℕ → Byte) :
    ∃ cs, hexText val buf = some cs ∧ cs.length = 8 ∧ (∀ c ∈ cs, isHexDigit c = true) ∧
      value 16 (cs.map hexVal) = val.toNat := by
  have hchar : ∀ k, ∃ c, k < 8 → hexatab[val.toNat / 16 ^ k % 16]? = some c ∧ isHexDigit c = true ∧
      hexVal c = val.toNat / 16 ^ k % 16 := by
    intro k
    by_cases hk : k < 8
    · obtain ⟨c, hc⟩ := hexatab_get (h k hk)
      exact ⟨c, fun _ => hc⟩
    · exact ⟨0, fun hk' => absurd hk' hk⟩
  choose c hc using hchar
  obtain ⟨buf', hrun, htext⟩ : ∃ buf', itoaHex val buf = some buf' ∧
      (List.range 8).map buf' = (List.range 8).reverse.map c := by
    apply Numerals.fillBack_eq
    intro k hk
    rw [toNat_digit]
    exact (hc k hk).1
  refine ⟨(List.range 8).reverse.map c, ?_, ?_, ?_, ?_⟩
  · rw [hexText, hrun, ← htext]
    rfl
  · rw [List.length_map, List.length_reverse, List.length_range]
  · intro x hx
    obtain ⟨k, hk, rfl⟩ := List.mem_map.mp hx
    exact (hc k (List.mem_range.mp (List.mem_reverse.mp hk))).2.1
  · have hplaces := Numerals.value_places 16 8 val.toNat (fun _ => true) (fun _ hi => by cases hi)
    rw [List.filter_true, Nat.mod_eq_of_lt (show val.toNat < 16 ^ 8 from val.isLt)] at hplaces
    have hdigits : ((List.range 8).reverse.map c).map hexVal =
        (List.range 8).reverse.map fun k => val.toNat / 16 ^ k % 16 := by
      rw [List.map_map]
      apply List.map_congr_left
      intro k hk
      exact (hc k (List.mem_range.mp (List.mem_reverse.mp hk))).2.2
    rw [hdigits, hplaces]

/-- **When a number is printed faithfully.** For every 32-bit number: the eight
characters are of 0-9A-F, the table is read at its digits and the text reads as
the number, exactly when the number has no hexadecimal digit E or F. -/
theorem faithful_iff (val : Word) (buf : ℕ → Byte) :
    Faithful val buf ↔ ∀ k < 8, val.toNat / 16 ^ k % 16 < 14 := by
  constructor
  · intro h
    obtain ⟨cs, hcs, -, hdigits, -⟩ := h.text
    exact digits_of_hexText hcs hdigits
  · intro h
    obtain ⟨cs, hcs, hlen, hdigits, hvalue⟩ := hexText_eq h buf
    refine ⟨fun k hk => ?_, ⟨cs, hcs, hlen, hdigits, hvalue⟩, fun val' hsame => ?_⟩
    · rw [hexIndex_eq]
      exact h k hk
    · rw [hcs] at hsame
      obtain ⟨cs', hcs', -, -, hvalue'⟩ := hexText_eq (digits_of_hexText hsame hdigits) buf
      rw [hsame] at hcs'
      obtain rfl := Option.some.inj hcs'
      exact BitVec.eq_of_toNat_eq (hvalue'.symm.trans hvalue)

/-- The digit E is printed as a NUL, and F is read outside of the table. -/
theorem digit_missing : hexText 0xE (fun _ => 0) = some [0x30, 0x30, 0x30, 0x30, 0x30, 0x30, 0x30, 0x00] ∧
    hexText 0xF (fun _ => 0) = none ∧ ¬ Faithful 0xE (fun _ => 0) ∧ ¬ Faithful 0xF (fun _ => 0) := by
  refine ⟨by decide, by decide, fun h => ?_, fun h => ?_⟩
  · exact absurd (h.indices 0 (by decide)) (by decide)
  · exact absurd (h.indices 0 (by decide)) (by decide)

end Itoa
end Giet
end Smc
