/-
# Conditions in time

A condition in time is a predicate on the moments `0, 1, 2, …` of a run, so
that it may speak of the state, of the inputs and of the moment itself.
`LeadsTo P Q` says that after every moment of `P`, or in it, there is one of
`Q`; `Recurs P` that there is one of `P` after every moment.

Progress is shown with an action that recurs (`LeadsTo.of_unless`), or with a
measure: `LeadsTo.of_measure` for a loop that ends, `LeadsTo.recurs` for a
round that starts again.

Key definitions: `LeadsTo`, `Recurs`.
Key theorems: `LeadsTo.of_unless`, `LeadsTo.of_measure`, `LeadsTo.recurs`.
-/
import Mathlib.Tactic

namespace Smc
namespace Temporal

/-- After every moment of `P`, or in it, there is one of `Q`. -/
def LeadsTo (P Q : ℕ → Prop) : Prop := ∀ t, P t → ∃ u, t ≤ u ∧ Q u

/-- There is a moment of `P` after every moment. -/
def Recurs (P : ℕ → Prop) : Prop := ∀ t, ∃ u, t ≤ u ∧ P u

variable {P Q R : ℕ → Prop}

theorem LeadsTo.trans (h : LeadsTo P Q) (h' : LeadsTo Q R) : LeadsTo P R := by
  intro t hP
  obtain ⟨u, htu, hQ⟩ := h t hP
  obtain ⟨v, huv, hR⟩ := h' u hQ
  exact ⟨v, htu.trans huv, hR⟩

/-- What holds one moment later. -/
theorem leadsTo_of_succ (h : ∀ t, P t → Q (t + 1)) : LeadsTo P Q := fun t hP =>
  ⟨t + 1, Nat.le_succ t, h t hP⟩

/-- From `P` there follows `Q`, or `P` again, and this cannot go on when `A` comes. -/
theorem LeadsTo.of_unless {A : ℕ → Prop} (hA : Recurs A)
    (step : ∀ t, P t → (∃ u, t ≤ u ∧ Q u) ∨ (P (t + 1) ∧ ¬ A t)) : LeadsTo P Q := by
  intro t hP
  obtain ⟨u, htu, hAu⟩ := hA t
  obtain ⟨d, rfl⟩ := Nat.exists_eq_add_of_le htu
  clear htu
  induction d generalizing t with
  | zero =>
    rcases step t hP with hQ | ⟨-, hnot⟩
    · exact hQ
    · exact absurd hAu hnot
  | succ d ih =>
    rcases step t hP with hQ | ⟨hP', -⟩
    · exact hQ
    · obtain ⟨v, hv, hQ⟩ := ih (t + 1) hP' (by rwa [Nat.add_assoc, Nat.add_comm 1 d])
      exact ⟨v, (Nat.le_succ t).trans hv, hQ⟩

/-- A condition that lasts until `A` recurs, and then leads to `Q`. -/
theorem LeadsTo.of_recurs {A : ℕ → Prop} (hA : Recurs A) (stay : ∀ t, P t → ¬ A t → P (t + 1))
    (move : ∀ t, P t → A t → ∃ u, t ≤ u ∧ Q u) : LeadsTo P Q := by
  apply LeadsTo.of_unless hA
  intro t hP
  by_cases hAt : A t
  · exact .inl (move t hP hAt)
  · exact .inr ⟨stay t hP hAt, hAt⟩

/-- A loop ends when from `P` there follows `Q`, or `P` again with a smaller
measure. -/
theorem LeadsTo.of_measure (μ : ℕ → ℕ) (h : ∀ t, P t → ∃ u, t ≤ u ∧ (Q u ∨ (P u ∧ μ u < μ t))) :
    LeadsTo P Q := by
  intro t hP
  induction hm : μ t using Nat.strong_induction_on generalizing t with
  | _ m ih =>
    obtain ⟨u, htu, hQ | ⟨hPu, hlt⟩⟩ := h t hP
    · exact ⟨u, htu, hQ⟩
    · obtain ⟨v, huv, hQ⟩ := ih (μ u) (hm ▸ hlt) u hPu rfl
      exact ⟨v, htu.trans huv, hQ⟩

/-- A round that ends strictly later, where the next one starts, recurs. -/
theorem LeadsTo.recurs (h0 : ∃ t, P t) (h : LeadsTo P Q) (hnext : ∀ t, Q t → ∃ u, t < u ∧ P u) : Recurs Q := by
  have rounds : ∀ m, ∃ t, m ≤ t ∧ Q t := by
    intro m
    induction m with
    | zero =>
      obtain ⟨t, hP⟩ := h0
      obtain ⟨u, -, hQ⟩ := h t hP
      exact ⟨u, Nat.zero_le u, hQ⟩
    | succ m ih =>
      obtain ⟨t, hmt, hQ⟩ := ih
      obtain ⟨u, htu, hP⟩ := hnext t hQ
      obtain ⟨v, huv, hQ'⟩ := h u hP
      exact ⟨v, by omega, hQ'⟩
  exact rounds

end Temporal
end Smc
