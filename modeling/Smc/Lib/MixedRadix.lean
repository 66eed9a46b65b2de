/-
# Numbers packed into one word

Some numbers, each with a width in bits, are packed into one: the first takes
the highest bits. A list of widths and numbers stands for the word. `Fits`
says that each number has its width.

The bits of a tail are below those of what comes before it (`encode_append`),
so a division by their power takes the tail away (`encode_div`), and then the
remainder of the last width is the last number (`encode_digit`).

Key definitions: `bits`, `encode`, `Fits`.
Key theorems: `encode_append`, `encode_lt`, `encode_div`, `encode_digit`,
`encode_inj`.
-/
import Mathlib.Tactic

namespace Smc
namespace MixedRadix

/-- The width of the word. -/
def bits (l : List (ℕ × ℕ)) : ℕ := (l.map Prod.fst).sum

/-- The word: the numbers are shifted in, one after the other. -/
def encode (l : List (ℕ × ℕ)) : ℕ := l.foldl (fun acc p => acc * 2 ^ p.1 + p.2) 0

/-- Each number has its width. -/
def Fits (l : List (ℕ × ℕ)) : Prop := ∀ p ∈ l, p.2 < 2 ^ p.1

variable {l r : List (ℕ × ℕ)} {p : ℕ × ℕ}

theorem bits_append (l r : List (ℕ × ℕ)) : bits (l ++ r) = bits l + bits r := by
  rw [bits, List.map_append, List.sum_append]
  rfl

theorem bits_cons (p : ℕ × ℕ) (l : List (ℕ × ℕ)) : bits (p :: l) = p.1 + bits l := by
  rw [bits, List.map_cons, List.sum_cons]
  rfl

theorem encode_concat (l : List (ℕ × ℕ)) (p : ℕ × ℕ) : encode (l ++ [p]) = encode l * 2 ^ p.1 + p.2 := by
  rw [encode, List.foldl_append]
  rfl

/-- What comes before a tail is above its bits. -/
theorem encode_append (l r : List (ℕ × ℕ)) : encode (l ++ r) = encode l * 2 ^ bits r + encode r := by
  induction r using List.reverseRecOn with
  | nil => simp [bits, encode]
  | append_singleton r p ih =>
    have hbits : bits (r ++ [p]) = bits r + p.1 := by
      rw [bits_append, bits_cons]
      rfl
    calc encode (l ++ (r ++ [p])) = encode (l ++ r) * 2 ^ p.1 + p.2 := by rw [← List.append_assoc, encode_concat]
      _ = (encode l * 2 ^ bits r + encode r) * 2 ^ p.1 + p.2 := by rw [ih]
      _ = encode l * (2 ^ bits r * 2 ^ p.1) + (encode r * 2 ^ p.1 + p.2) := by ring
      _ = encode l * 2 ^ bits (r ++ [p]) + encode (r ++ [p]) := by rw [hbits, pow_add, encode_concat]

theorem encode_cons (p : ℕ × ℕ) (l : List (ℕ × ℕ)) : encode (p :: l) = p.2 * 2 ^ bits l + encode l := by
  rw [← List.singleton_append, encode_append]
  simp [encode]

theorem Fits.tail (h : Fits (p :: l)) : Fits l := fun q hq => h q (List.mem_cons_of_mem _ hq)

theorem Fits.of_append_left (h : Fits (l ++ r)) : Fits l := fun q hq => h q (List.mem_append_left _ hq)

theorem Fits.of_append_right (h : Fits (l ++ r)) : Fits r := fun q hq => h q (List.mem_append_right _ hq)

theorem encode_lt (h : Fits l) : encode l < 2 ^ bits l := by
  induction l with
  | nil => exact Nat.one_pos
  | cons p l ih =>
    have hp : p.2 < 2 ^ p.1 := h p List.mem_cons_self
    have hl := ih h.tail
    calc encode (p :: l) = p.2 * 2 ^ bits l + encode l := encode_cons p l
      _ < p.2 * 2 ^ bits l + 2 ^ bits l := Nat.add_lt_add_left hl _
      _ = (p.2 + 1) * 2 ^ bits l := by ring
      _ ≤ 2 ^ p.1 * 2 ^ bits l := Nat.mul_le_mul_right _ hp
      _ = 2 ^ bits (p :: l) := by rw [bits_cons, pow_add]

/-- A division takes the tail away. -/
theorem encode_div (h : Fits r) (l : List (ℕ × ℕ)) : encode (l ++ r) / 2 ^ bits r = encode l := by
  rw [encode_append, Nat.mul_comm, Nat.mul_add_div (Nat.two_pow_pos _), Nat.div_eq_of_lt (encode_lt h), Nat.add_zero]

/-- Every number can be taken from the word. -/
theorem encode_digit (h : Fits (p :: r)) (l : List (ℕ × ℕ)) :
    encode (l ++ p :: r) / 2 ^ bits r % 2 ^ p.1 = p.2 := by
  have hp : p.2 < 2 ^ p.1 := h p List.mem_cons_self
  calc encode (l ++ p :: r) / 2 ^ bits r % 2 ^ p.1 = encode (l ++ [p]) % 2 ^ p.1 := by
        rw [← List.singleton_append, ← List.append_assoc, encode_div h.tail]
    _ = (2 ^ p.1 * encode l + p.2) % 2 ^ p.1 := by rw [encode_concat, Nat.mul_comm]
    _ = p.2 := by rw [Nat.mul_add_mod, Nat.mod_eq_of_lt hp]

/-- Numbers of the same widths are known from their word. -/
theorem encode_inj (hw : l.map Prod.fst = r.map Prod.fst) (hl : Fits l) (hr : Fits r) (he : encode l = encode r) :
    l = r := by
  induction l generalizing r with
  | nil =>
    rw [List.map_nil, eq_comm, List.map_eq_nil_iff] at hw
    exact hw.symm
  | cons p l ih =>
    cases r with
    | nil => cases hw
    | cons q r =>
      obtain ⟨hwidth, hw⟩ := List.cons.inj hw
      have hbits : bits l = bits r := by rw [bits, bits, hw]
      have hp := encode_digit hl []
      have hq := encode_digit hr []
      have hdigit : p.2 = q.2 := by
        rw [← hp, ← hq, List.nil_append, List.nil_append, he, hbits, hwidth]
      have hpq : p = q := Prod.ext hwidth hdigit
      have hrest : encode l = encode r := by
        rw [encode_cons, encode_cons, hbits, hpq] at he
        exact Nat.add_left_cancel he
      rw [hpq, ih hw hl.tail hr.tail hrest]

end MixedRadix
end Smc
