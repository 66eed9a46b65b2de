/-
# The greatest common divisor by subtraction

Two unsigned words are compared, the smaller is subtracted from the larger,
until they are equal. `Loop` is the loop with one step for a comparison and
one for a subtraction, as hardware runs it; `Loop.Computes g` is its
invariant: it computes `g`. The loop ends exactly when both words are zero or
none is (`Loop.compare_step`, `Loop.oneZero_step`): with one zero the subtraction
changes nothing.

Key definitions: `gcd`, `Loop.step`, `Loop.Computes`, `Loop.OneZero`.
Key theorems: `Loop.Computes.step`, `Loop.Computes.result`, `Loop.compare_step`,
`Loop.left_step_lt`.
-/
import Mathlib.Tactic
import Mathlib.Data.Nat.GCD.Basic

namespace Smc
namespace SubGcd

variable {w : ℕ}

/-- The greatest common divisor of two unsigned words. -/
def gcd (a b : BitVec w) : BitVec w := BitVec.ofNat w (Nat.gcd a.toNat b.toNat)

theorem toNat_gcd (a b : BitVec w) : (gcd a b).toNat = Nat.gcd a.toNat b.toNat := by
  rw [gcd, BitVec.toNat_ofNat]
  apply Nat.mod_eq_of_lt
  rcases Nat.eq_zero_or_pos a.toNat with ha | ha
  · rw [ha, Nat.gcd_zero_left]
    exact b.isLt
  · exact lt_of_le_of_lt (Nat.gcd_le_left _ ha) a.isLt

theorem gcd_self (a : BitVec w) : gcd a a = a := by
  apply BitVec.eq_of_toNat_eq
  rw [toNat_gcd, Nat.gcd_self]

theorem gcd_sub_left {a b : BitVec w} (h : b < a) : gcd (a - b) b = gcd a b := by
  apply BitVec.eq_of_toNat_eq
  rw [toNat_gcd, toNat_gcd, BitVec.toNat_sub_of_le (BitVec.le_of_lt h)]
  exact Nat.gcd_sub_self_left (BitVec.le_of_lt h)

theorem gcd_sub_right {a b : BitVec w} (h : a < b) : gcd a (b - a) = gcd a b := by
  apply BitVec.eq_of_toNat_eq
  rw [toNat_gcd, toNat_gcd, BitVec.toNat_sub_of_le (BitVec.le_of_lt h)]
  exact Nat.gcd_sub_self_right (BitVec.le_of_lt h)

/-! ### The loop -/

inductive Phase where
  | compare
  | decA
  | decB
  | done
deriving DecidableEq, Repr

/-- The loop's state: what the next step does, and the two words. -/
structure Loop (w : ℕ) where
  phase : Phase
  a : BitVec w
  b : BitVec w
deriving DecidableEq, Repr

namespace Loop

def step (l : Loop w) : Loop w :=
  match l.phase with
  | .compare =>
    if l.a < l.b then { l with phase := .decB }
    else if l.b < l.a then { l with phase := .decA }
    else { l with phase := .done }
  | .decA => { l with a := l.a - l.b, phase := .compare }
  | .decB => { l with b := l.b - l.a, phase := .compare }
  | .done => l

/-- The loop computes `g`: the words' divisor is `g`, a subtraction is of the
smaller word, and a finished loop has two equal words. -/
structure Computes (l : Loop w) (g : BitVec w) : Prop where
  gcd_eq : gcd l.a l.b = g
  decA : l.phase = .decA → l.b < l.a
  decB : l.phase = .decB → l.a < l.b
  done : l.phase = .done → l.a = l.b

theorem Computes.start {a b : BitVec w} : Computes ⟨.compare, a, b⟩ (gcd a b) :=
  ⟨rfl, by simp, by simp, by simp⟩

theorem Computes.step {l : Loop w} {g : BitVec w} (h : l.Computes g) : l.step.Computes g := by
  obtain ⟨p, a, b⟩ := l
  cases p with
  | compare =>
    by_cases h1 : a < b
    · have e : Loop.step ⟨.compare, a, b⟩ = ⟨.decB, a, b⟩ := by simp [Loop.step, h1]
      rw [e]
      exact ⟨h.gcd_eq, by simp, fun _ => h1, by simp⟩
    · by_cases h2 : b < a
      · have e : Loop.step ⟨.compare, a, b⟩ = ⟨.decA, a, b⟩ := by simp [Loop.step, h1, h2]
        rw [e]
        exact ⟨h.gcd_eq, fun _ => h2, by simp, by simp⟩
      · have e : Loop.step ⟨.compare, a, b⟩ = ⟨.done, a, b⟩ := by simp [Loop.step, h1, h2]
        rw [e]
        exact ⟨h.gcd_eq, by simp, by simp, fun _ => by simp only; bv_omega⟩
  | decA => exact ⟨(gcd_sub_left (h.decA rfl)).trans h.gcd_eq, nofun, nofun, nofun⟩
  | decB => exact ⟨(gcd_sub_right (h.decB rfl)).trans h.gcd_eq, nofun, nofun, nofun⟩
  | done => exact h

/-- A finished loop has the divisor in both words. -/
theorem Computes.result {l : Loop w} {g : BitVec w} (h : l.Computes g) (hd : l.phase = .done) :
    l.a = g ∧ l.b = g := by
  have e := h.done hd
  have hg := h.gcd_eq
  rw [e, gcd_self] at hg
  exact ⟨e.trans hg, hg⟩

/-! ### When the loop ends -/

/-- Exactly one of the words is zero. -/
def OneZero (a b : BitVec w) : Prop := (a = 0 ∧ b ≠ 0) ∨ (a ≠ 0 ∧ b = 0)

instance (a b : BitVec w) : Decidable (OneZero a b) := by unfold OneZero; infer_instance

theorem oneZero_iff (a b : BitVec w) :
    OneZero a b ↔ (a.toNat = 0 ∧ b.toNat ≠ 0) ∨ (a.toNat ≠ 0 ∧ b.toNat = 0) := by
  have h : ∀ x : BitVec w, x = 0 ↔ x.toNat = 0 := fun x => by rw [BitVec.toNat_eq]; simp
  simp only [OneZero, ne_eq, h]

/-- One zero stays one zero, and no step makes one. -/
theorem oneZero_step {l : Loop w} {g : BitVec w} (hc : l.Computes g) :
    OneZero l.step.a l.step.b ↔ OneZero l.a l.b := by
  obtain ⟨p, a, b⟩ := l
  have hA := hc.decA
  have hB := hc.decB
  cases p with
  | compare =>
    simp only [Loop.step]
    split_ifs <;> rfl
  | decA =>
    have hlt : b < a := hA rfl
    simp only [oneZero_iff, Loop.step, BitVec.toNat_sub_of_le (BitVec.le_of_lt hlt)]
    rw [BitVec.lt_def] at hlt
    omega
  | decB =>
    have hlt : a < b := hB rfl
    simp only [oneZero_iff, Loop.step, BitVec.toNat_sub_of_le (BitVec.le_of_lt hlt)]
    rw [BitVec.lt_def] at hlt
    omega
  | done => rfl

/-- With one zero the loop is not finished. -/
theorem OneZero.not_done {l : Loop w} {g : BitVec w} (hc : l.Computes g) (h : OneZero l.a l.b) :
    l.phase ≠ .done := by
  intro hd
  have e := hc.done hd
  rcases h with ⟨h1, h2⟩ | ⟨h1, h2⟩
  · exact h2 (e ▸ h1)
  · exact h1 (e.trans h2)

/-- Without one zero, a comparison finishes the loop or the next subtraction
leaves less in the two words, and again not one zero. -/
theorem compare_step {a b : BitVec w} (h : ¬ OneZero a b) :
    Loop.step ⟨.compare, a, b⟩ = ⟨.done, a, b⟩ ∨
      ∃ a' b', Loop.step (Loop.step ⟨.compare, a, b⟩) = ⟨.compare, a', b'⟩ ∧ ¬ OneZero a' b' ∧
        a'.toNat + b'.toNat < a.toNat + b.toNat := by
  rw [oneZero_iff] at h
  by_cases h1 : a < b
  · refine .inr ⟨a, b - a, by simp [Loop.step, h1], ?_, ?_⟩ <;>
      [rw [oneZero_iff]; skip] <;> rw [BitVec.toNat_sub_of_le (BitVec.le_of_lt h1)] <;>
      rw [BitVec.lt_def] at h1 <;> omega
  · by_cases h2 : b < a
    · refine .inr ⟨a - b, b, by simp [Loop.step, h1, h2], ?_, ?_⟩ <;>
        [rw [oneZero_iff]; skip] <;> rw [BitVec.toNat_sub_of_le (BitVec.le_of_lt h2)] <;>
        rw [BitVec.lt_def] at h2 <;> omega
    · exact .inl (by simp [Loop.step, h1, h2])

/-- What is left to do: a comparison counts for one. -/
def left (l : Loop w) : ℕ :=
  match l.phase with
  | .compare => 2 * (l.a.toNat + l.b.toNat) + 1
  | .decA | .decB => 2 * (l.a.toNat + l.b.toNat)
  | .done => 0

/-- Without one zero, every step of an unfinished loop leaves less to do. -/
theorem left_step_lt {l : Loop w} {g : BitVec w} (hc : l.Computes g) (h : ¬ OneZero l.a l.b)
    (hd : l.phase ≠ .done) : l.step.left < l.left := by
  obtain ⟨p, a, b⟩ := l
  rw [oneZero_iff] at h
  cases p with
  | compare =>
    by_cases h1 : a < b
    · simp [Loop.step, left, h1]
    · by_cases h2 : b < a <;> simp [Loop.step, left, h1, h2]
  | decA =>
    have hlt : b < a := hc.decA rfl
    simp only [Loop.step, left, BitVec.toNat_sub_of_le (BitVec.le_of_lt hlt)]
    rw [BitVec.lt_def] at hlt
    simp only at h
    omega
  | decB =>
    have hlt : a < b := hc.decB rfl
    simp only [Loop.step, left, BitVec.toNat_sub_of_le (BitVec.le_of_lt hlt)]
    rw [BitVec.lt_def] at hlt
    simp only at h
    omega
  | done => exact absurd rfl hd

end Loop
end SubGcd
end Smc
