/-
# Tables filled slot by slot

A table is filled from a list of slots and values, in order, beside a table of
marks: a slot that is marked must hold the value already, else the filling
fails. `Fits d n l table marked` says what the two tables of `n` slots hold
after the pairs `l`, over the default `d`. The filling fails exactly when two
pairs give one slot different values (`Coherent`).

A filling may be a loop in a loop: `Outcome` is what a loop leaves, and
`outcome_foldlM` takes it from the body to the loop.

Key definitions: `Coherent`, `Fits`, `Outcome`.
Key theorems: `Fits.put`, `Fits.conflict_iff`, `outcome_foldlM`.
-/
import Mathlib.Tactic

namespace Smc
namespace SlotTable

variable {β : Type*}

/-- No slot is given two values. -/
def Coherent (l : List (ℕ × β)) : Prop := ∀ i v w, (i, v) ∈ l → (i, w) ∈ l → v = w

/-- What the tables hold after the pairs `l`. -/
structure Fits (d : β) (n : ℕ) (l : List (ℕ × β)) (table : ℕ → β) (marked : ℕ → Bool) : Prop where
  marked_iff : ∀ i < n, marked i = true ↔ ∃ v, (i, v) ∈ l
  value : ∀ i v, (i, v) ∈ l → table i = v
  rest : ∀ i < n, (∀ v, (i, v) ∉ l) → table i = d

section Tables

variable {d : β} {n i : ℕ} {l : List (ℕ × β)} {table : ℕ → β} {marked : ℕ → Bool} {v : β}

theorem Fits.coherent (h : Fits d n l table marked) : Coherent l := by
  intro i v w hv hw
  rw [← h.value i v hv, h.value i w hw]

theorem Coherent.of_append {l' : List (ℕ × β)} (h : Coherent (l ++ l')) : Coherent l :=
  fun i v w hv hw => h i v w (List.mem_append_left _ hv) (List.mem_append_left _ hw)

/-- A marked slot that holds another value has been given it. -/
theorem Fits.conflict_iff (h : Fits d n l table marked) (hi : i < n) :
    (marked i = true ∧ table i ≠ v) ↔ ¬ Coherent (l ++ [(i, v)]) := by
  constructor
  · rintro ⟨hm, hne⟩ hc
    obtain ⟨w, hw⟩ := (h.marked_iff i hi).mp hm
    apply hne
    rw [h.value i w hw]
    exact hc i w v (by simp [hw]) (by simp)
  · intro hc
    by_contra hok
    apply hc
    have hv : ∀ w, (i, w) ∈ l → w = v := by
      intro w hw
      rw [← h.value i w hw]
      by_contra hne
      exact hok ⟨(h.marked_iff i hi).mpr ⟨w, hw⟩, hne⟩
    intro j a b ha hb
    simp only [List.mem_append, List.mem_singleton, Prod.mk.injEq] at ha hb
    rcases ha with ha | ⟨rfl, rfl⟩ <;> rcases hb with hb | ⟨hj, rfl⟩
    · exact h.coherent j a b ha hb
    · rw [hj] at ha
      exact hv a ha
    · exact (hv b hb).symm
    · rfl

/-- A slot is given a value that does not conflict. -/
theorem Fits.put (h : Fits d n l table marked) (hok : Coherent (l ++ [(i, v)])) :
    Fits d n (l ++ [(i, v)]) (Function.update table i v) (Function.update marked i true) where
  marked_iff j hj := by
    by_cases hji : j = i
    · subst hji
      simp only [Function.update_self, true_iff]
      exact ⟨v, by simp⟩
    · simp [hji, h.marked_iff j hj]
  value j w hw := by
    by_cases hji : j = i
    · subst hji
      rw [Function.update_self]
      exact hok j v w (by simp) hw
    · rw [Function.update_of_ne hji]
      exact h.value j w (by simpa [hji] using hw)
  rest j hj hnone := by
    have hji : j ≠ i := by
      rintro rfl
      exact hnone v (by simp)
    rw [Function.update_of_ne hji]
    exact h.rest j hj fun w hw => hnone w (by simp [hw])

end Tables

/-! ### Loops that fill -/

section Loops

variable {S E X : Type*} {Holds : List (ℕ × β) → S → Prop} {Err : E → Prop}

/-- A filling that was given the pairs `l` holds them, or has failed because
they are not coherent. -/
def Outcome (Holds : List (ℕ × β) → S → Prop) (Err : E → Prop) (l : List (ℕ × β)) : Except E S → Prop
  | .ok s => Holds l s
  | .error e => Err e ∧ ¬ Coherent l

/-- A loop gives the pairs of its passes, one after the other. -/
theorem outcome_foldlM {f : S → X → Except E S} {g : X → List (ℕ × β)} :
    ∀ {xs : List X}, (∀ x ∈ xs, ∀ l s, Holds l s → Outcome Holds Err (l ++ g x) (f s x)) →
      ∀ l s, Holds l s → Outcome Holds Err (l ++ xs.flatMap g) (xs.foldlM f s)
  | [], _, l, s, hs => by
    rw [List.flatMap_nil, List.append_nil]
    exact hs
  | x :: xs, hf, l, s, hs => by
    have hx := hf x List.mem_cons_self l s hs
    rw [List.foldlM_cons, List.flatMap_cons, ← List.append_assoc]
    cases hr : f s x with
    | ok s' =>
      rw [hr] at hx
      exact outcome_foldlM (fun y hy => hf y (List.mem_cons_of_mem _ hy)) _ s' hx
    | error e =>
      rw [hr] at hx
      exact ⟨hx.1, fun hc => hx.2 hc.of_append⟩

end Loops

end SlotTable
end Smc
