/-
# Round-robin order

The positions `0, …, n - 1` in the order in which a round-robin arbiter that
served `r` last looks at them: `r + 1`, `r + 2`, … and `r` at the end, modulo
`n`. `rank n r j` is the place of `j` in that order.

Key theorems: `rank_lt_of_served`: once a position before `i` is served, `i`
stays before the positions it was before; `exists_odd_mod_eq`: an arbiter that
skips every other position reaches all of them if their number is odd.
-/
import Mathlib.Tactic

namespace Smc
namespace RoundRobin

/-- The place of `j` in the order after `r`. -/
def rank (n r j : ℕ) : ℕ := if r < j then j - r - 1 else j + n - r - 1

variable {n r i j : ℕ}

theorem rank_lt (hr : r < n) (hj : j < n) : rank n r j < n := by
  unfold rank
  split <;> omega

/-- The position at place `x`. -/
theorem rank_at {x : ℕ} (hr : r < n) (hx : x < n) : rank n r ((x + 1 + r) % n) = x := by
  unfold rank
  rcases Nat.lt_or_ge (x + 1 + r) n with h | h
  · rw [Nat.mod_eq_of_lt h]
    split <;> omega
  · rw [Nat.mod_eq_sub_mod h, Nat.mod_eq_of_lt (by omega)]
    split <;> omega

theorem at_rank (hr : r < n) (hj : j < n) : (rank n r j + 1 + r) % n = j := by
  unfold rank
  split
  · rw [Nat.mod_eq_of_lt (by omega)]
    omega
  · rw [Nat.mod_eq_sub_mod (by omega), Nat.mod_eq_of_lt (by omega)]
    omega

/-- A position is last right after it is served. -/
theorem rank_lt_self (hi : i < n) (hj : j < n) (hne : i ≠ j) : rank n j i < rank n j j := by
  unfold rank
  split <;> split <;> omega

/-- If `m` is before `i` and `i` before `j`, then `i` is before `j` once `m`
is served. -/
theorem rank_lt_of_served {m : ℕ} (hm : m < n) (hi : i < n) (hj : j < n) (h1 : rank n r m < rank n r i)
    (h2 : rank n r i < rank n r j) (hr : r < n) : rank n m i < rank n m j := by
  unfold rank at *
  split_ifs at h1 h2 ⊢ <;> omega

/-- Fewer than `n` places on is another position. -/
theorem add_mod_ne {d : ℕ} (hr : r < n) (h0 : 0 < d) (hd : d < n) : (r + d) % n ≠ r := by
  rcases Nat.lt_or_ge (r + d) n with h | h
  · rw [Nat.mod_eq_of_lt h]
    omega
  · rw [Nat.mod_eq_sub_mod h, Nat.mod_eq_of_lt (by omega)]
    omega

/-- Two places at a time every position of an odd number is reached, again and
again. -/
theorem exists_odd_mod_eq (hn : n % 2 = 1) (hi : i < n) (q : ℕ) : ∃ m, q ≤ m ∧ (2 * m + 1) % n = i := by
  obtain ⟨c, hc⟩ : ∃ c, 2 * c + 1 = i ∨ 2 * c + 1 = i + n := by
    rcases Nat.even_or_odd' i with ⟨x, hx | hx⟩
    · exact ⟨(i + n) / 2, .inr (by omega)⟩
    · exact ⟨x, .inl hx.symm⟩
  refine ⟨c + q * n, ?_, ?_⟩
  · have : q * 1 ≤ q * n := Nat.mul_le_mul_left q (by omega)
    omega
  · have hsplit : 2 * (c + q * n) + 1 = 2 * c + 1 + 2 * q * n := by ring
    rw [hsplit, Nat.add_mul_mod_self_right]
    rcases hc with hc | hc
    · rw [hc, Nat.mod_eq_of_lt hi]
    · rw [hc, Nat.add_mod_right, Nat.mod_eq_of_lt hi]

/-- Two places at a time only odd positions of an even number are reached. -/
theorem odd_mod_ne (hn : n % 2 = 0) (hi : i % 2 = 0) (q : ℕ) : (2 * q + 1) % n ≠ i := by
  have h := Nat.mod_mod_of_dvd (2 * q + 1) (Nat.dvd_of_mod_eq_zero hn)
  intro he
  rw [he] at h
  omega

end RoundRobin
end Smc
