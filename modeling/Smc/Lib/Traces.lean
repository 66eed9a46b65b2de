/-
# Events that take turns

A trace is a list of events, oldest first. `Separated p q` says that between
two events of `p` there is one of `q`; an event of `p` is open until the next
event of `q`. Both are known of a trace one event longer from the trace itself
(`open_concat`, `separated_concat`), so a machine's invariant can carry them
along its run.

Key definitions: `Separated`, `Open`.
-/
import Mathlib.Tactic

namespace Smc
namespace Traces

variable {E : Type*} (p q : E → Prop)

/-- Between two events of `p` there is one of `q`. -/
def Separated (l : List E) : Prop :=
  ∀ l₁ x l₂ y l₃, l = l₁ ++ x :: (l₂ ++ y :: l₃) → p x → p y → ∃ z ∈ l₂, q z

/-- There is an event of `p`, and none of `q` since. -/
def Open (l : List E) : Prop := ∃ l₁ x l₂, l = l₁ ++ x :: l₂ ∧ p x ∧ ∀ z ∈ l₂, ¬ q z

variable {p q} {l : List E} {e : E}

@[simp] theorem not_open_nil : ¬ Open p q [] := by
  rintro ⟨l₁, x, l₂, h, -⟩
  simp at h

@[simp] theorem separated_nil : Separated p q [] := by
  intro l₁ x l₂ y l₃ h
  simp at h

/-- A trace that ends in `e`, cut at one of its events: `e` is that event, or
comes after it. -/
theorem concat_eq_append_cons {l₁ l₂ : List E} {x : E} (h : l ++ [e] = l₁ ++ x :: l₂) :
    (l₂ = [] ∧ l = l₁ ∧ e = x) ∨ ∃ l₂', l₂ = l₂' ++ [e] ∧ l = l₁ ++ x :: l₂' := by
  rcases l₂.eq_nil_or_concat with rfl | ⟨l₂', y, rfl⟩
  · obtain ⟨h1, h2⟩ := List.append_inj' h rfl
    exact .inl ⟨rfl, h1, by simpa using h2⟩
  · have h' : l ++ [e] = (l₁ ++ x :: l₂') ++ [y] := by simpa using h
    obtain ⟨h1, h2⟩ := List.append_inj' h' rfl
    obtain rfl : e = y := by simpa using h2
    exact .inr ⟨l₂', by simp, h1⟩

theorem open_concat : Open p q (l ++ [e]) ↔ p e ∨ (Open p q l ∧ ¬ q e) := by
  constructor
  · rintro ⟨l₁, x, l₂, h, hx, hq⟩
    rcases concat_eq_append_cons h with ⟨-, -, rfl⟩ | ⟨l₂', rfl, hl⟩
    · exact .inl hx
    · refine .inr ⟨⟨l₁, x, l₂', hl, hx, fun z hz => hq z (by simp [hz])⟩, hq e (by simp)⟩
  · rintro (he | ⟨⟨l₁, x, l₂, rfl, hx, hq⟩, he⟩)
    · exact ⟨l, e, [], rfl, he, by simp⟩
    · refine ⟨l₁, x, l₂ ++ [e], by simp, hx, ?_⟩
      intro z hz
      rcases List.mem_append.mp hz with hz | hz
      · exact hq z hz
      · rwa [List.mem_singleton.mp hz]

theorem separated_concat : Separated p q (l ++ [e]) ↔ Separated p q l ∧ (p e → ¬ Open p q l) := by
  constructor
  · intro h
    refine ⟨fun l₁ x l₂ y l₃ hl => ?_, ?_⟩
    · exact h l₁ x l₂ y (l₃ ++ [e]) (by simp [hl])
    · rintro he ⟨l₁, x, l₂, rfl, hx, hq⟩
      obtain ⟨z, hz, hqz⟩ := h l₁ x l₂ e [] (by simp) hx he
      exact hq z hz hqz
  · rintro ⟨hs, ho⟩ l₁ x l₂ y l₃ h hx hy
    have h' : l ++ [e] = (l₁ ++ x :: l₂) ++ y :: l₃ := by simpa using h
    rcases concat_eq_append_cons h' with ⟨-, hl, rfl⟩ | ⟨l₃', -, hl⟩
    · by_contra hnone
      push Not at hnone
      exact ho hy ⟨l₁, x, l₂, hl, hx, hnone⟩
    · exact hs l₁ x l₂ y l₃' (by simpa using hl) hx hy

end Traces
end Smc
