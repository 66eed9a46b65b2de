/-
# Clocked machines

A clocked machine is a step from the registers and the inputs of a cycle to
the registers of the next one. `run` lists the registers cycle by cycle under
a stream of inputs and `log` what the machine shows on the way; `runE` is the
run of a machine whose step may fail, which stops at the first failure. Each
comes with its invariant rule.

For a machine without inputs, `LeadsTo r P Q` says that from every state of
`P` some steps of `r` reach `Q`; a loop that ends is `leadsTo_of_measure`.

Key definitions: `run`, `runE`, `log`, `allOk`, `LeadsTo`.
Key theorems: `run_inv`, `runE_inv`, `log_inv`, `allOk_of_forall`,
`leadsTo_of_measure`.
-/
import Mathlib.Tactic
import Mathlib.Logic.Relation

namespace Smc
namespace Clocked

variable {S I E O : Type*}

/-! ### Runs -/

/-- The registers at every cycle. -/
def run (step : S → I → S) (s : S) (i : ℕ → I) : ℕ → S
  | 0 => s
  | t + 1 => step (run step s i t) (i t)

/-- What the machine shows in the cycles before `t`, oldest first. -/
def log (step : S → I → S) (out : S → I → List O) (s : S) (i : ℕ → I) : ℕ → List O
  | 0 => []
  | t + 1 => log step out s i t ++ out (run step s i t) (i t)

/-- The registers at every cycle of a machine whose step may fail. -/
def runE (step : S → I → Except E S) (s : S) (i : ℕ → I) : ℕ → Except E S
  | 0 => .ok s
  | t + 1 => runE step s i t >>= fun s => step s (i t)

/-- An invariant of every step holds at every cycle. -/
theorem run_inv {step : S → I → S} {s : S} {i : ℕ → I} (P : ℕ → S → Prop) (h0 : P 0 s)
    (hs : ∀ t x, P t x → P (t + 1) (step x (i t))) : ∀ t, P t (run step s i t)
  | 0 => h0
  | t + 1 => hs t _ (run_inv P h0 hs t)

/-- An invariant that ties the registers to what was shown so far. -/
theorem log_inv {step : S → I → S} {out : S → I → List O} {s : S} {i : ℕ → I}
    (P : S → List O → Prop) (h0 : P s [])
    (hs : ∀ t x l, P x l → P (step x (i t)) (l ++ out x (i t))) :
    ∀ t, P (run step s i t) (log step out s i t)
  | 0 => h0
  | t + 1 => hs t _ _ (log_inv P h0 hs t)

theorem runE_succ {step : S → I → Except E S} {s x : S} {i : ℕ → I} {t : ℕ}
    (h : runE step s i t = .ok x) : runE step s i (t + 1) = step x (i t) := by
  simp only [runE, h]
  rfl

/-- A step that keeps the invariant and does not fail gives a run that keeps
it and does not fail. -/
theorem runE_inv {step : S → I → Except E S} {s : S} {i : ℕ → I} (P : ℕ → S → Prop) (h0 : P 0 s)
    (hs : ∀ t x, runE step s i t = .ok x → P t x → ∃ y, step x (i t) = .ok y ∧ P (t + 1) y) :
    ∀ t, ∃ x, runE step s i t = .ok x ∧ P t x
  | 0 => ⟨s, rfl, h0⟩
  | t + 1 => by
    obtain ⟨x, hx, hP⟩ := runE_inv P h0 hs t
    obtain ⟨y, hy, hP'⟩ := hs t x hx hP
    exact ⟨y, by rw [runE_succ hx, hy], hP'⟩

/-! ### A row of machines -/

/-- The next registers of a row of machines, or the first failure in it. -/
def allOk : {n : ℕ} → (Fin n → Except E S) → Except E (Fin n → S)
  | 0, _ => .ok Fin.elim0
  | _ + 1, f => do
    let a ← f 0
    let g ← allOk fun j => f j.succ
    pure (Fin.cons a g)

theorem allOk_of_forall : ∀ {n : ℕ} {f : Fin n → Except E S} {g : Fin n → S},
    (∀ j, f j = .ok (g j)) → allOk f = .ok g
  | 0, f, g, _ => by
    rw [allOk]
    congr 1
    exact Subsingleton.elim _ _
  | n + 1, f, g, h => by
    have ih : allOk (fun j => f j.succ) = .ok fun j => g j.succ := allOk_of_forall fun j => h j.succ
    rw [allOk, h 0, ih]
    exact congrArg Except.ok (Fin.cons_self_tail g)

theorem forall_of_allOk : ∀ {n : ℕ} {f : Fin n → Except E S} {g : Fin n → S},
    allOk f = .ok g → ∀ j, f j = .ok (g j)
  | 0, _, _, _, j => j.elim0
  | n + 1, f, g, h, j => by
    rw [allOk] at h
    cases ha : f 0 with
    | error e => rw [ha] at h; cases h
    | ok a =>
      cases hg : allOk fun j => f j.succ with
      | error e => rw [ha, hg] at h; cases h
      | ok g' =>
        rw [ha, hg] at h
        have hcons : Fin.cons a g' = g := Except.ok.inj h
        subst hcons
        cases j using Fin.cases with
        | zero => exact ha
        | succ j => exact forall_of_allOk hg j

/-! ### Machines without inputs -/

/-- From every state of `P`, some steps reach `Q`. -/
def LeadsTo (r : S → S → Prop) (P Q : S → Prop) : Prop :=
  ∀ s, P s → ∃ s', Relation.ReflTransGen r s s' ∧ Q s'

section LeadsTo

variable {r : S → S → Prop} {P Q R : S → Prop}

theorem leadsTo_of_step (h : ∀ s, P s → ∃ s', r s s' ∧ Q s') : LeadsTo r P Q := fun s hs =>
  let ⟨s', h1, h2⟩ := h s hs
  ⟨s', .single h1, h2⟩

theorem LeadsTo.trans (h : LeadsTo r P Q) (h' : LeadsTo r Q R) : LeadsTo r P R := by
  intro s hs
  obtain ⟨s1, r1, h1⟩ := h s hs
  obtain ⟨s2, r2, h2⟩ := h' s1 h1
  exact ⟨s2, r1.trans r2, h2⟩

/-- A loop ends when each pass from `P` reaches `Q` or `P` again with a
smaller measure. -/
theorem leadsTo_of_measure (μ : S → ℕ)
    (h : ∀ s, P s → ∃ s', Relation.ReflTransGen r s s' ∧ (Q s' ∨ (P s' ∧ μ s' < μ s))) :
    LeadsTo r P Q := by
  intro s hs
  induction hm : μ s using Nat.strong_induction_on generalizing s with
  | _ m ih =>
    obtain ⟨s1, r1, h1 | ⟨h1, hlt⟩⟩ := h s hs
    · exact ⟨s1, r1, h1⟩
    · obtain ⟨s2, r2, h2⟩ := ih (μ s1) (hm ▸ hlt) s1 h1 rfl
      exact ⟨s2, r1.trans r2, h2⟩

end LeadsTo

/-- A chain of conditions, each leading to the next. -/
theorem leadsTo_chain {r : S → S → Prop} {P : ℕ → S → Prop} :
    ∀ {k : ℕ}, (∀ j < k, LeadsTo r (P j) (P (j + 1))) → LeadsTo r (P 0) (P k)
  | 0, _ => fun s hs => ⟨s, .refl, hs⟩
  | k + 1, h => (leadsTo_chain fun j hj => h j (by omega)).trans (h k (by omega))

/-- What a machine without inputs leads to, it reaches after some cycles. -/
theorem iterate_of_reach {step : S → S} {x y : S} (h : Relation.ReflTransGen (fun a b => step a = b) x y) :
    ∃ t, step^[t] x = y := by
  induction h with
  | refl => exact ⟨0, rfl⟩
  | tail _ hab ih =>
    obtain ⟨t, ht⟩ := ih
    exact ⟨t + 1, by rw [Function.iterate_succ_apply', ht]; exact hab⟩

/-- The same for a machine whose step may fail. -/
theorem runE_of_reach {step : S → I → Except E S} {s y : S} {i : I}
    (h : Relation.ReflTransGen (fun a b => step a i = .ok b) s y) :
    ∃ t, runE step s (fun _ => i) t = .ok y := by
  induction h with
  | refl => exact ⟨0, rfl⟩
  | tail _ hab ih =>
    obtain ⟨t, ht⟩ := ih
    exact ⟨t + 1, by rw [runE_succ ht]; exact hab⟩

end Clocked
end Smc
