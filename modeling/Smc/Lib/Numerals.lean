/-
# Numerals

`numeral b n` are the digits of `n` in base `b`, the most significant first,
without leading zeros: a digit below the base, or the numeral of the quotient
followed by the remainder (`numeral_of_lt`, `numeral_of_le`). `value b` reads
digits back, the way a reader does that has seen the leading ones.

A machine reads them into a word of fixed size, and has the partial values
modulo some `m`. When it compares each of them with the one before, it sees an
overflow when they drop (`Drops`). They do not drop without one
(`not_drops_of_lt`), but they need not drop in spite of one.

A machine writes them from the last to the first into a buffer of fixed width
(`fillBack`). Leading zeros may be left out (`value_places`).

Key definitions: `numeral`, `value`, `Drops`, `fillBack`.
Key theorems: `not_drops_of_lt`, `value_places`, `fillBack_spec`.
-/
import Mathlib.Data.Nat.Digits.Lemmas
import Mathlib.Tactic

namespace Smc
namespace Numerals

variable {b n : ℕ}

/-! ### Writing -/

/-- The digits of a number, the most significant first; zero has one digit. -/
def numeral (b n : ℕ) : List ℕ := if n = 0 then [0] else (Nat.digits b n).reverse

theorem numeral_of_lt (h : n < b) : numeral b n = [n] := by
  unfold numeral
  split_ifs with h0
  · rw [h0]
  · rw [Nat.digits_of_lt b n h0 h, List.reverse_singleton]

theorem numeral_of_le (hb : 1 < b) (h : b ≤ n) : numeral b n = numeral b (n / b) ++ [n % b] := by
  have hn : 0 < n := by omega
  have hq : n / b ≠ 0 := (Nat.div_pos h (by omega)).ne'
  unfold numeral
  rw [if_neg hn.ne', if_neg hq, Nat.digits_def' hb hn, List.reverse_cons]

theorem lt_of_mem_numeral (hb : 1 < b) {d : ℕ} (hd : d ∈ numeral b n) : d < b := by
  unfold numeral at hd
  split_ifs at hd with h0
  · rw [List.mem_singleton.mp hd]
    omega
  · exact Nat.digits_lt_base hb (List.mem_reverse.mp hd)

/-! ### Reading -/

/-- The value of digits, the most significant first. -/
def value (b : ℕ) (l : List ℕ) : ℕ := l.foldl (fun a d => a * b + d) 0

theorem value_concat (b : ℕ) (l : List ℕ) (d : ℕ) : value b (l ++ [d]) = value b l * b + d := by
  simp [value]

/-! ### Overflow -/

/-- Some partial value is smaller, modulo `m`, than the one before it. -/
def Drops (m b : ℕ) (l : List ℕ) : Prop :=
  ∃ k < l.length, value b (l.take (k + 1)) % m < value b (l.take k) % m

theorem not_drops_nil (m b : ℕ) : ¬ Drops m b [] := by
  intro h
  obtain ⟨k, hk, -⟩ := h
  exact absurd hk (Nat.not_lt_zero k)

theorem drops_concat {m b d : ℕ} {l : List ℕ} :
    Drops m b (l ++ [d]) ↔ Drops m b l ∨ value b (l ++ [d]) % m < value b l % m := by
  have hlen : (l ++ [d]).length = l.length + 1 := by simp
  have hall : (l ++ [d]).take (l.length + 1) = l ++ [d] := List.take_of_length_le hlen.le
  have htake : ∀ k ≤ l.length, (l ++ [d]).take k = l.take k := fun k hk => List.take_append_of_le_length hk
  constructor
  · intro h
    obtain ⟨k, hk, hdrop⟩ := h
    by_cases hlast : k = l.length
    · rw [hlast, hall, htake _ le_rfl, List.take_length] at hdrop
      exact .inr hdrop
    · rw [htake _ (by omega), htake _ (by omega)] at hdrop
      exact .inl ⟨k, by omega, hdrop⟩
  · intro h
    rcases h with ⟨k, hk, hdrop⟩ | hdrop
    · refine ⟨k, by omega, ?_⟩
      rwa [htake _ (by omega), htake _ (by omega)]
    · refine ⟨l.length, by omega, ?_⟩
      rwa [hall, htake _ le_rfl, List.take_length]

theorem value_le_concat (hb : 0 < b) (l : List ℕ) (d : ℕ) : value b l ≤ value b (l ++ [d]) := by
  rw [value_concat]
  exact (Nat.le_mul_of_pos_right _ hb).trans (Nat.le_add_right _ _)

/-- Without an overflow nothing drops. -/
theorem not_drops_of_lt {m : ℕ} (hb : 0 < b) {l : List ℕ} (h : value b l < m) : ¬ Drops m b l := by
  induction l using List.reverseRecOn with
  | nil => exact not_drops_nil m b
  | append_singleton l d ih =>
    have hle := value_le_concat hb l d
    rw [drops_concat, not_or]
    refine ⟨ih (hle.trans_lt h), ?_⟩
    rw [Nat.mod_eq_of_lt h, Nat.mod_eq_of_lt (hle.trans_lt h)]
    omega

/-- When nothing drops, a residue of zero is that of zero. -/
theorem value_eq_zero {m : ℕ} {l : List ℕ} (hd : ∀ d ∈ l, d < m) (h : ¬ Drops m b l)
    (h0 : value b l % m = 0) : value b l = 0 := by
  induction l using List.reverseRecOn with
  | nil => rfl
  | append_singleton l d ih =>
    rw [drops_concat, not_or, h0] at h
    have hl : value b l = 0 := ih (fun x hx => hd x (List.mem_append_left _ hx)) h.1 (by omega)
    have hlt : d < m := hd d (List.mem_append_right _ (List.mem_singleton_self _))
    rw [value_concat, hl, Nat.zero_mul, Nat.zero_add] at h0 ⊢
    rwa [Nat.mod_eq_of_lt hlt] at h0

/-! ### A fixed width -/

/-- The digits of the places below `w` have the value of the number, also
without some of the leading zeros. -/
theorem value_places (b w n : ℕ) (keep : ℕ → Bool) (h : ∀ i, keep i = false → n / b ^ i = 0) :
    value b (((List.range w).reverse.filter keep).map fun i => n / b ^ i % b) = n % b ^ w := by
  induction w generalizing n keep with
  | zero => rw [pow_zero, Nat.mod_one]; rfl
  | succ w ih =>
    have hdiv : ∀ i, n / b ^ (i + 1) = n / b / b ^ i := fun i => by rw [pow_succ', Nat.div_div_eq_div_mul]
    have hrest := ih (n / b) (fun i => keep (i + 1)) fun i hi => by rw [← hdiv]; exact h (i + 1) hi
    -- the places above 0 are those of the quotient
    have hplaces : ((List.range (w + 1)).reverse.filter keep).map (fun i => n / b ^ i % b) =
        (((List.range w).reverse.filter fun i => keep (i + 1)).map fun i => n / b / b ^ i % b) ++
          ([0].filter keep).map fun i => n / b ^ i % b := by
      simp only [List.range_succ_eq_map, List.reverse_cons, List.filter_append, List.map_append, ← List.map_reverse,
        List.filter_map, List.map_map, ← hdiv]
      rfl
    rw [hplaces]
    cases hkeep : keep 0 with
    | true =>
      rw [List.filter_cons_of_pos (by rw [hkeep]), List.filter_nil, List.map_singleton, value_concat, hrest, pow_zero,
        Nat.div_one]
      calc n / b % b ^ w * b + n % b = n % b + b * (n / b % b ^ w) := by ring
        _ = n % (b * b ^ w) := Nat.mod_mul.symm
        _ = n % b ^ (w + 1) := by rw [pow_succ']
    | false =>
      have hn : n = 0 := by simpa using h 0 hkeep
      rw [List.filter_cons_of_neg (by rw [hkeep]; exact Bool.false_ne_true), List.filter_nil, List.map_nil,
        List.append_nil, hrest, hn, Nat.zero_div, Nat.zero_mod, Nat.zero_mod]

section FillBack

variable {V β : Type*} {w : ℕ} {char : ℕ → V → Option β} {next : V → V}

/-- `for (i = 0; i < n; i++) { buf[w - 1 - i] = char(i, v); v = next(v); }`,
with `n` passes to go from `i` on; a character may fail. -/
def fillBack (w : ℕ) (char : ℕ → V → Option β) (next : V → V) : ℕ → ℕ → V → (ℕ → β) → Option (ℕ → β)
  | 0, _, _, buf => some buf
  | n + 1, i, v, buf => do
    let c ← char i v
    fillBack w char next n (i + 1) (next v) (Function.update buf (w - 1 - i) c)

/-- The passes write their characters, and no other place; or one fails. -/
theorem fillBack_spec {n i : ℕ} (hin : i + n ≤ w) (v : V) (buf : ℕ → β) :
    (∃ buf', fillBack w char next n i v buf = some buf' ∧
      (∀ j < n, char (i + j) (next^[j] v) = some (buf' (w - 1 - (i + j)))) ∧
      ∀ k, w - i ≤ k → buf' k = buf k) ∨
    (fillBack w char next n i v buf = none ∧ ∃ j < n, char (i + j) (next^[j] v) = none) := by
  induction n generalizing i v buf with
  | zero => exact .inl ⟨buf, rfl, fun j hj => absurd hj (Nat.not_lt_zero j), fun _ _ => rfl⟩
  | succ n ih =>
    unfold fillBack
    cases hc : char i v with
    | none => exact .inr ⟨rfl, 0, Nat.succ_pos n, hc⟩
    | some c =>
      show (∃ buf', fillBack w char next n (i + 1) (next v) (Function.update buf (w - 1 - i) c) = some buf' ∧ _) ∨
        (fillBack w char next n (i + 1) (next v) (Function.update buf (w - 1 - i) c) = none ∧ _)
      have hshift : ∀ j, i + 1 + j = i + (j + 1) := fun j => by omega
      rcases ih (i := i + 1) (by omega) (next v) (Function.update buf (w - 1 - i) c) with
        ⟨buf', hrun, hchars, houtside⟩ | ⟨hrun, j, hj, hnone⟩
      · refine .inl ⟨buf', hrun, ?_, ?_⟩
        · intro j hj
          cases j with
          | zero =>
            rw [Nat.add_zero, houtside _ (by omega), Function.update_self]
            exact hc
          | succ j =>
            rw [← hshift]
            exact hchars j (by omega)
        · intro k hk
          rw [houtside k (by omega), Function.update_of_ne (by omega)]
      · refine .inr ⟨hrun, j + 1, by omega, ?_⟩
        rw [← hshift]
        exact hnone

/-- If no character fails, the buffer holds them, the first written at the end. -/
theorem fillBack_eq {c : ℕ → β} {v : V} (h : ∀ i < w, char i (next^[i] v) = some (c i)) (buf : ℕ → β) :
    ∃ buf', fillBack w char next w 0 v buf = some buf' ∧
      (List.range w).map buf' = (List.range w).reverse.map c := by
  rcases fillBack_spec (Nat.zero_add w).le v buf with ⟨buf', hrun, hchars, -⟩ | ⟨-, j, hj, hnone⟩
  · refine ⟨buf', hrun, ?_⟩
    have hc : ∀ i < w, buf' (w - 1 - i) = c i := by
      intro i hi
      have hchar := hchars i hi
      rw [Nat.zero_add, h i hi] at hchar
      exact (Option.some.inj hchar).symm
    rw [List.range_eq_range', List.reverse_range', List.map_map, ← List.range_eq_range']
    apply List.map_congr_left
    intro k hk
    have hk' : k < w := List.mem_range.mp hk
    rw [Function.comp_apply, ← hc _ (by omega)]
    congr 1
    omega
  · rw [Nat.zero_add, h j hj] at hnone
    cases hnone

end FillBack

end Numerals
end Smc
