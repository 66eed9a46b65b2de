/-
# Printing a number and reading it back

`tty_putw` (`giet_2011/app/stdio.c`) prints a number as ten decimal characters
with leading zeros; the kernel's `_itoa_dec` has spaces in their place. What
either prints can be typed into `tty_getw_irq`, which ignores spaces: it gives
the number back (`getw_of_printed`). The digits that are kept have the number as
their value, it has 32 bits, and so has every part of it: no overflow is seen.

Key definitions: `ttyPutw`, `putwText`, `placed`.
Key theorems: `ttyPutw_ready`, `getw_placed`, `getw_of_printed`.
-/
import Smc.Giet.Itoa
import Smc.App.TtyGetw

namespace Smc
namespace App
namespace TtyGetw

open Giet.Tty Giet.Itoa LineEdit
open Numerals (fillBack)

/-- The buffer of `tty_putw`, with what it holds at first. -/
def ttyPutwBuf (val : Word) (buf : ℕ → Byte) : Option (ℕ → Byte) :=
  fillBack 10 (fun _ val => some ((val % 10 + 0x30).setWidth 8)) (· / 10) 10 0 val buf

/-- `tty_putw`: the number of characters written, and the terminal after it. -/
def ttyPutw (val : Word) (buf : ℕ → Byte) (tty : Terminal) : Option (ℕ × Terminal) :=
  (ttyPutwBuf val buf).map fun b => ttyWrite (held b 10) tty

/-- The ten characters of `tty_putw`. -/
def putwText (val : Word) (buf : ℕ → Byte) : Option (List Byte) := (ttyPutwBuf val buf).map (held · 10)

/-! ### The text -/

/-- The character of a decimal place; a space where none is kept. -/
def placed (keep : ℕ → Bool) (n i : ℕ) : Byte := if keep i then BitVec.ofNat 8 (0x30 + n / 10 ^ i % 10) else 0x20

theorem putwText_eq (val : Word) (buf : ℕ → Byte) :
    putwText val buf = some ((List.range 10).reverse.map (placed (fun _ => true) val.toNat)) := by
  obtain ⟨buf', hrun, htext⟩ : ∃ buf', ttyPutwBuf val buf = some buf' ∧
      (List.range 10).map buf' = (List.range 10).reverse.map (placed (fun _ => true) val.toNat) := by
    apply Numerals.fillBack_eq
    intro i _
    have hdigit : ((· / 10)^[i] val % 10).toNat = val.toNat / 10 ^ i % 10 := Giet.Itoa.toNat_digit val i
    have hten : (0x30 : Word).toNat = 0x30 := rfl
    congr 1
    apply BitVec.eq_of_toNat_eq
    rw [placed, if_pos rfl, BitVec.toNat_setWidth, BitVec.toNat_add, hdigit, hten, BitVec.toNat_ofNat]
    omega
  rw [putwText, hrun, ← htext]
  rfl

/-- The places that `_itoa_dec` shows. -/
def shown (n i : ℕ) : Bool := decide (n / 10 ^ i ≠ 0 ∨ i = 0)

theorem decChar_eq (n : ℕ) : decChar n = placed (shown n) n := by
  funext i
  simp only [decChar, placed, shown, decide_eq_true_eq]

/-- On a terminal that is ready, the ten characters are sent. -/
theorem ttyPutw_ready (val : Word) (buf : ℕ → Byte) {tty : Terminal} (h : tty.Ready) :
    ∃ tty', ttyPutw val buf tty = some (10, tty') ∧
      tty'.sent = tty.sent ++ (List.range 10).reverse.map (placed (fun _ => true) val.toNat) := by
  have htext := putwText_eq val buf
  obtain ⟨buf', hrun, hheld⟩ := Option.map_eq_some_iff.mp htext
  have hwrite := ttyWrite_spec (held buf' 10) tty
  have hall := hwrite.ready h
  refine ⟨(ttyWrite (held buf' 10) tty).2, ?_, ?_⟩
  · rw [ttyPutw, hrun, Option.map_some]
    rw [length_held] at hall
    exact congrArg some (Prod.ext hall rfl)
  · rw [hwrite.sent, hall, List.take_length, hheld]

/-! ### Reading it -/

/-- Without a DEL, the line is made of the decimal characters. -/
theorem digitsOf_eq_filter {input : List Byte} (h : ∀ c ∈ input, c ≠ 0x7F) : digitsOf input = input.filter isDecimal := by
  induction input using List.reverseRecOn with
  | nil => rfl
  | append_singleton input c ih =>
    have hc : c ≠ 0x7F := h c (List.mem_append_right _ (List.mem_singleton_self c))
    rw [digitsOf_concat, if_neg hc, ih fun x hx => h x (List.mem_append_left _ hx), List.filter_append]
    by_cases hdec : isDecimal c
    · rw [if_pos hdec, List.filter_cons_of_pos hdec, List.filter_nil]
    · rw [if_neg hdec, List.filter_cons_of_neg hdec, List.filter_nil, List.append_nil]

section Placed

variable {keep : ℕ → Bool} {n : ℕ}

/-- The characters are digits at the places that are kept, and never a DEL or
the end of the line. -/
theorem placed_cases (keep : ℕ → Bool) (n i : ℕ) : isDecimal (placed keep n i) = keep i ∧
    (keep i = true → digitVal (placed keep n i) = n / 10 ^ i % 10) ∧ placed keep n i ≠ 0x7F ∧
    isEnd (placed keep n i) = false := by
  have hd : n / 10 ^ i % 10 < 10 := Nat.mod_lt _ (by decide)
  unfold placed
  cases keep i with
  | true =>
    rw [if_pos rfl]
    generalize n / 10 ^ i % 10 = d at hd ⊢
    interval_cases d <;> decide
  | false =>
    rw [if_neg Bool.false_ne_true]
    exact ⟨rfl, nofun, by decide, rfl⟩

/-- The digits of the line are those of the places kept. -/
theorem number_placed (hkeep : ∀ i, keep i = false → n / 10 ^ i = 0) :
    number (digitsOf ((List.range 10).reverse.map (placed keep n))) = n % 10 ^ 10 := by
  have hne : ∀ c ∈ (List.range 10).reverse.map (placed keep n), c ≠ 0x7F := by
    intro c hc
    obtain ⟨i, -, rfl⟩ := List.mem_map.mp hc
    exact (placed_cases keep n i).2.2.1
  have hdecimal : isDecimal ∘ placed keep n = keep := funext fun i => (placed_cases keep n i).1
  rw [digitsOf_eq_filter hne, List.filter_map, hdecimal, number, List.map_map, ← Numerals.value_places 10 10 n keep hkeep]
  congr 1
  apply List.map_congr_left
  intro i hi
  exact (placed_cases keep n i).2.1 (List.mem_filter.mp hi).2

/-- A number printed with some of its leading zeros, and read. -/
theorem getw_placed (hkeep : ∀ i, keep i = false → n / 10 ^ i = 0) (hn : n < 2 ^ 32) (buf : ℕ → Byte) (tty : Terminal)
    (rest : List Byte) :
    ∃ s, ttyGetwIrq buf tty ((List.range 10).reverse.map (placed keep n) ++ 0x0A :: rest) =
      .returns .value (BitVec.ofNat 32 n) s := by
  have hstart : Holds [] ⟨buf, 0, [], tty⟩ := ⟨rfl, nofun⟩
  have hin : ∀ c ∈ (List.range 10).reverse.map (placed keep n), isEnd c = false := by
    intro c hc
    obtain ⟨i, -, rfl⟩ := List.mem_map.mp hc
    exact (placed_cases keep n i).2.2.2
  have hne : ∀ c ∈ (List.range 10).reverse.map (placed keep n), c ≠ 0x7F := by
    intro c hc
    obtain ⟨i, -, rfl⟩ := List.mem_map.mp hc
    exact (placed_cases keep n i).2.2.1
  have hlt : ∀ q, q <+: (List.range 10).reverse.map (placed keep n) → (digitsOf ([] ++ q)).length < 32 := by
    intro q hq
    have hlen := hq.length_le
    have hfilter := List.length_filter_le isDecimal q
    rw [List.length_map, List.length_reverse, List.length_range] at hlen
    rw [List.nil_append, digitsOf_eq_filter fun c hc => hne c (hq.subset hc)]
    omega
  obtain ⟨s, hs, hholds⟩ := loop_line (e := 0x0A) hstart rfl hin hlt rest
  rw [List.nil_append] at hholds
  have hnumber : number (digitsOf ((List.range 10).reverse.map (placed keep n))) = n := by
    rw [number_placed hkeep]
    omega
  have hquiet : ¬ Noticed (digitsOf ((List.range 10).reverse.map (placed keep n))) :=
    Numerals.not_drops_of_lt (by decide) (by rwa [← hnumber] at hn)
  refine ⟨s, ?_⟩
  unfold ttyGetwIrq
  rw [hs, finish_of_quiet hholds hquiet, hnumber]

end Placed

/-- **What is printed is read back.** For every 32-bit number, the ten
characters of `tty_putw` and the ten of `_itoa_dec`, with a line feed after
them, are read by `tty_getw_irq` as the number. -/
theorem getw_of_printed (val : Word) (out buf : ℕ → Byte) (tty : Terminal) (rest : List Byte) :
    (∃ cs s, putwText val out = some cs ∧ cs.length = 10 ∧
      ttyGetwIrq buf tty (cs ++ 0x0A :: rest) = .returns .value val s) ∧
    (∃ cs s, decText val out = some cs ∧ cs.length = 10 ∧
      ttyGetwIrq buf tty (cs ++ 0x0A :: rest) = .returns .value val s) := by
  have hval : BitVec.ofNat 32 val.toNat = val := by rw [BitVec.ofNat_toNat, BitVec.setWidth_eq]
  have hlen : ∀ c : ℕ → Byte, ((List.range 10).reverse.map c).length = 10 := fun c => by simp
  have hshown : ∀ i, shown val.toNat i = false → val.toNat / 10 ^ i = 0 := by
    intro i hi
    simp only [shown, decide_eq_false_iff_not, not_or, not_not] at hi
    exact hi.1
  constructor
  · have hall : ∀ i, (fun _ : ℕ => true) i = false → val.toNat / 10 ^ i = 0 := fun _ h => by cases h
    obtain ⟨s, hs⟩ := getw_placed hall val.isLt buf tty rest
    rw [hval] at hs
    exact ⟨_, s, putwText_eq val out, hlen _, hs⟩
  · obtain ⟨s, hs⟩ := getw_placed hshown val.isLt buf tty rest
    rw [hval] at hs
    refine ⟨_, s, decText_eq val out, hlen _, ?_⟩
    rw [decChar_eq]
    exact hs

end TtyGetw
end App
end Smc
