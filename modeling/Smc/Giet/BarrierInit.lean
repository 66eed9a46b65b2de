/-
# Cooperative initialisation of a barrier

Every task calls `_barrier_init` and goes on to `_barrier_wait`. The
store-conditional on the initial value chooses one task, which then writes the
count. A task that finds the initial value set does not wait for that second
write: it may decrement a count that is still zero, have its decrement
overwritten, and see the count it waits for before the others have come
(`returns_alone`).

When no decrement falls between the two writes (`Premature`), the barrier goes
from untouched through half initialised to its first round, and is safe
(`safe_of_not_premature`).
-/
import Smc.Giet.BarrierRounds

namespace Smc
namespace Giet
namespace Barrier

variable {n : ℕ} {k : Args}

/-! ### The property -/

/-- The barrier is as loaded: two zero words, and no task has begun. -/
structure Fresh (k : Args) (s : State n) : Prop where
  max : s.mem.val k.pinit = 0
  count : s.mem.val k.pcount = 0
  start : ∀ t, (s.task t).pc = .start
  calls : ∀ t, (s.task t).calls = 0
  rets : ∀ t, (s.task t).rets = 0

/-- The next access is a plain store to the count. -/
def Pc.storing : Pc → Bool
  | .initStore | .reset _ => true
  | _ => false

/-- A step stores the count when a task has arrived more often than the one
that stores: the store overwrites its decrement. -/
def Overwrites (s : State n) (c : Fin n × Bool) : Prop :=
  (s.task c.1).pc.storing = true ∧ ∃ u, (s.task c.1).arrivals < (s.task u).arrivals

instance (s : State n) (c : Fin n × Bool) : Decidable (Overwrites s c) := by unfold Overwrites; infer_instance

/-- No task has returned from a wait before all have called it, and the step
that follows overwrites no decrement. -/
def Safe (s : State n) (c : Fin n × Bool) : Prop :=
  (∀ t u, 1 ≤ (s.task t).rets → 1 ≤ (s.task u).calls) ∧ ¬ Overwrites s c

/-- A task's decrement succeeds between the two writes of the task that
initialises. -/
def Premature (k : Args) (s : State n) (c : Fin n × Bool) : Prop :=
  match (s.task c.1).pc with
  | .sc _ _ => s.mem.scSucceeds c.1 k.pcount c.2 = true ∧ ∃ u, (s.task u).pc = .initStore
  | _ => False

/-- The next access is the store-conditional of a decrement. -/
def Pc.decrementing : Pc → Bool
  | .sc _ _ => true
  | _ => false

theorem premature_iff {s : State n} {c : Fin n × Bool} : Premature k s c ↔ (s.task c.1).pc.decrementing = true ∧
    s.mem.scSucceeds c.1 k.pcount c.2 = true ∧ ∃ u, (s.task u).pc = .initStore := by
  unfold Premature
  cases hpc : (s.task c.1).pc <;> simp [Pc.decrementing]

instance (k : Args) (s : State n) (c : Fin n × Bool) : Decidable (Premature k s c) :=
  decidable_of_iff' _ premature_iff

/-- A decrement that fails is not premature. -/
theorem not_premature_of_fails {s : State n} (t : Fin n) : ¬ Premature k s (t, false) := by
  rw [premature_iff]
  rintro ⟨-, hok, -⟩
  cases hok

/-! ### Where it fails -/

/-- Two tasks and a barrier as loaded. -/
def twoLoaded : State 2 where
  mem := { val := fun _ => 0, link := fun _ => none }
  task _ := { pc := .start, calls := 0, rets := 0, result := 0 }

theorem fresh_twoLoaded : Fresh ⟨0, 2⟩ twoLoaded := ⟨rfl, rfl, fun _ => rfl, fun _ => rfl, fun _ => rfl⟩

/-- Task 0 sets the initial value; task 1 finds it, arrives and waits; task 0
writes the count. -/
def arrivingEarly (i : ℕ) : Fin 2 × Bool := if i < 3 ∨ i = 9 then (0, true) else (1, true)

/-- Task 0 overwrites the arrival of task 1, and then task 1 returns from its
wait although task 0 has not called it. -/
theorem returns_alone : Fresh ⟨0, 2⟩ twoLoaded ∧
    Overwrites (run ⟨0, 2⟩ twoLoaded arrivingEarly 9) (arrivingEarly 9) ∧
    ((run ⟨0, 2⟩ twoLoaded arrivingEarly 11).task 1).rets = 1 ∧
    ((run ⟨0, 2⟩ twoLoaded arrivingEarly 11).task 0).calls = 0 :=
  ⟨fresh_twoLoaded, by decide, by decide, by decide⟩

/-! ### Where it holds -/

/-- Nobody has set the initial value. -/
structure Untouched (k : Args) (s : State n) : Prop where
  max : s.mem.val k.pinit = 0
  knows : ∀ t, Knows k s.mem t (s.task t).pc
  counted : ∀ t, Counted (s.task t)
  rets : ∀ t, (s.task t).rets = 0
  pc : ∀ t, (s.task t).pc = .start ∨ (s.task t).pc = .initLl ∨ (s.task t).pc = .initSc

/-- Task `t₀` has set the initial value and not yet written the count. -/
structure Filling (k : Args) (s : State n) (t₀ : Fin n) : Prop where
  max : s.mem.val k.pinit = k.value
  knows : ∀ t, Knows k s.mem t (s.task t).pc
  counted : ∀ t, Counted (s.task t)
  rets : ∀ t, (s.task t).rets = 0
  filler : ∀ t, (s.task t).pc = .initStore ↔ t = t₀
  nobody : ∀ t, (s.task t).pc.arrived = false

/-- The three phases of a barrier. -/
inductive Phase (k : Args) (s : State n) : Prop where
  | untouched (h : Untouched k s)
  | filling (t₀ : Fin n) (h : Filling k s t₀)
  | inRound (e : ℕ) (h : Inv k s e)

theorem Fresh.phase {s : State n} (h : Fresh k s) : Phase k s := by
  refine .untouched ⟨h.max, fun t => ?_, fun t => ?_, h.rets, fun t => .inl (h.start t)⟩
  · rw [h.start t]; trivial
  · rw [Counted, h.calls t, h.rets t, h.start t]; rfl

section Step

variable {s : State n} {c : Fin n × Bool}

theorem Untouched.next (hk : k.index < maxBarrierCount) (h : Untouched k s) : Phase k (next k s c) := by
  have hkn : ∀ u, Knows k (Barrier.next k s c).mem u ((Barrier.next k s c).task u).pc := by
    intro u
    by_cases hu : u = c.1
    · subst hu
      refine knows_next_self (h.knows c.1) fun hp => ?_
      rcases h.pc c.1 with h1 | h1 | h1 <;> rw [h1] at hp <;> cases hp
    · exact knows_next_of_ne hu (h.knows u)
  have hco := counted_next (k := k) h.counted c
  have hk' : ¬ k.index ≥ maxBarrierCount := by omega
  have ht := next_task_self k s c
  have hm : (Barrier.next k s c).mem = (access k c.1 c.2 s.mem (s.task c.1)).2 := rfl
  -- the tasks still have to read the initial value, or have read zero
  have stays : (Barrier.next k s c).mem.val k.pinit = 0 → ((Barrier.next k s c).task c.1).rets = (s.task c.1).rets →
      (((Barrier.next k s c).task c.1).pc = .initLl ∨ ((Barrier.next k s c).task c.1).pc = .initSc) →
      Phase k (Barrier.next k s c) := by
    intro h1 h2 h3
    refine .untouched ⟨h1, hkn, hco, fun u => ?_, fun u => ?_⟩
    · by_cases hu : u = c.1
      · rw [hu, h2]; exact h.rets c.1
      · rw [next_task_of_ne k hu]; exact h.rets u
    · by_cases hu : u = c.1
      · rw [hu]; exact .inr h3
      · rw [next_task_of_ne k hu]; exact h.pc u
  unfold access at ht hm
  rcases h.pc c.1 with hp | hp | hp <;> simp only [hp, hk', ↓reduceIte] at ht hm
  · exact stays (by rw [hm]; exact h.max) (by rw [ht]) (.inl (by rw [ht]))
  · simp only [h.max, ne_eq, not_true_eq_false, ↓reduceIte] at ht hm
    exact stays (by rw [hm]; exact h.max) (by rw [ht]) (.inr (by rw [ht]))
  · cases hs : s.mem.scSucceeds c.1 k.pinit c.2 with
    | false =>
      simp only [hs, Bool.false_eq_true, ↓reduceIte] at ht hm
      exact stays (by rw [hm, Mem.sc_val_of_fails _ hs]; exact h.max) (by rw [ht]) (.inl (by rw [ht]))
    | true =>
      simp only [hs, ↓reduceIte] at ht hm
      rw [Mem.sc_of_succeeds _ hs] at hm
      refine .filling c.1 ⟨by rw [hm, Mem.store_val_self], hkn, hco, fun u => ?_, fun u => ?_, fun u => ?_⟩
      · by_cases hu : u = c.1
        · rw [hu, ht]; exact h.rets c.1
        · rw [next_task_of_ne k hu]; exact h.rets u
      · by_cases hu : u = c.1
        · simp [hu, ht]
        · rw [next_task_of_ne k hu]
          rcases h.pc u with h1 | h1 | h1 <;> simp [h1, hu]
      · by_cases hu : u = c.1
        · rw [hu, ht]; rfl
        · rw [next_task_of_ne k hu]
          rcases h.pc u with h1 | h1 | h1 <;> rw [h1] <;> rfl

/-- The second write begins the first round. -/
theorem Filling.of_fills (hv : k.value.toNat = n) {t₀ : Fin n} (h : Filling k s t₀)
    (hkn : ∀ u, Knows k (next k s c).mem u ((next k s c).task u).pc) (hp : (s.task c.1).pc = .initStore)
    (hp' : ((next k s c).task c.1).pc = .outside) (hrets : ((next k s c).task c.1).rets = (s.task c.1).rets)
    (hmem : (next k s c).mem = s.mem.store k.pcount k.value) : Inv k (next k s c) 0 := by
  have hc : c.1 = t₀ := (h.filler c.1).mp hp
  have hpc : ∀ u, ((next k s c).task u).pc.arrived = false ∧ ((next k s c).task u).pc ≠ .initStore := by
    intro u
    by_cases hu : u = c.1
    · rw [hu, hp']; exact ⟨rfl, nofun⟩
    · rw [next_task_of_ne k hu]
      exact ⟨h.nobody u, fun he => hu (((h.filler u).mp he).trans hc.symm)⟩
  have harr : ∀ u, ((next k s c).task u).arrivals = 0 := by
    intro u
    rw [Task.arrivals, (hpc u).1]
    by_cases hu : u = c.1
    · rw [hu, hrets, h.rets c.1]; rfl
    · rw [next_task_of_ne k hu, h.rets u]; rfl
  have hnone : arrivedIn (next k s c) (0 + 1) = ∅ := by
    ext u
    simp [mem_arrivedIn, harr u]
  have hnoreset : ∀ u m, ((next k s c).task u).pc ≠ .reset m := by
    intro u m hm
    have := (hpc u).1
    rw [hm] at this
    cases this
  refine ⟨?_, fun u => (hpc u).2, hkn, counted_next h.counted c, fun u => .inl (harr u), ?_,
    fun t m ht => absurd ht (hnoreset t m), fun t m u m' ht => absurd ht (hnoreset t m), fun hpos hall => ?_⟩
  · rw [hmem, Mem.store_val_of_ne _ k.pinit_ne_pcount]
    exact h.max
  · rw [hmem, Mem.store_val_self, hnone, hv, Finset.card_empty, Nat.add_zero]
  · have := hall ⟨0, hpos⟩
    rw [harr] at this
    omega

theorem Filling.next (hk : k.index < maxBarrierCount) (hv : k.value.toNat = n) {t₀ : Fin n} (h : Filling k s t₀)
    (hc : ¬ Premature k s c) : Phase k (next k s c) := by
  have hkn : ∀ u, Knows k (Barrier.next k s c).mem u ((Barrier.next k s c).task u).pc := by
    intro u
    by_cases hu : u = c.1
    · subst hu
      exact knows_next_self (h.knows c.1) fun _ => h.max
    · exact knows_next_of_ne hu (h.knows u)
  cases move_next hk s c with
  | goesOn pc rets val =>
    have hpc : ((Barrier.next k s c).task c.1).pc.arrived = false ∧
        (((Barrier.next k s c).task c.1).pc = .initStore ↔ (s.task c.1).pc = .initStore) := by
      rcases pc with pc | ⟨-, h2, h3, h4⟩
      · rw [pc]; exact ⟨h.nobody c.1, Iff.rfl⟩
      · exact ⟨h2, fun he => absurd he h4, fun he => absurd he h3⟩
    refine .filling t₀ ⟨by rw [val]; exact h.max, hkn, counted_next h.counted c, fun u => ?_, fun u => ?_, fun u => ?_⟩
    · by_cases hu : u = c.1
      · rw [hu, rets]; exact h.rets c.1
      · rw [next_task_of_ne k hu]; exact h.rets u
    · by_cases hu : u = c.1
      · rw [hu, hpc.2]; exact h.filler c.1
      · rw [next_task_of_ne k hu]; exact h.filler u
    · by_cases hu : u = c.1
      · rw [hu]; exact hpc.1
      · rw [next_task_of_ne k hu]; exact h.nobody u
  | arrives maxcount count pc ok pc' rets mem =>
    refine absurd ?_ hc
    rw [Premature, pc]
    exact ⟨ok, t₀, (h.filler t₀).mpr rfl⟩
  | releases maxcount pc pc' rets mem =>
    have := h.nobody c.1
    rw [pc] at this
    cases this
  | leaves maxcount pc pc' rets val mem =>
    have := h.nobody c.1
    rw [pc] at this
    cases this
  | claims pc ok pc' rets mem =>
    have hl := h.knows c.1
    rw [pc] at hl
    have hz : k.value = 0 := h.max.symm.trans (hl.val_of_succeeds ok)
    have hn : n = 0 := by rw [← hv, hz]; rfl
    exact absurd c.1.isLt (by omega)
  | fills pc pc' rets mem => exact .inRound 0 (h.of_fills hv hkn pc pc' rets mem)

theorem Phase.next (hk : k.index < maxBarrierCount) (hv : k.value.toNat = n) (h : Phase k s)
    (hc : ¬ Premature k s c) : Phase k (next k s c) := by
  cases h with
  | untouched h => exact h.next hk
  | filling t₀ h => exact h.next hk hv hc
  | inRound e h =>
    rcases inv_next hk hv h c with h | h
    · exact .inRound e h
    · exact .inRound (e + 1) h

theorem Phase.safe (h : Phase k s) (c : Fin n × Bool) : Safe s c := by
  cases h with
  | untouched h =>
    refine ⟨fun t u ht => ?_, fun hw => ?_⟩
    · rw [h.rets t] at ht; omega
    · have := hw.1
      rcases h.pc c.1 with hp | hp | hp <;> rw [hp] at this <;> cases this
  | filling t₀ h =>
    refine ⟨fun t u ht => ?_, fun hw => ?_⟩
    · rw [h.rets t] at ht; omega
    · obtain ⟨-, u, hu⟩ := hw
      rw [Task.arrivals, Task.arrivals, h.rets, h.rets, h.nobody, h.nobody] at hu
      omega
  | inRound e h =>
    refine ⟨fun t u ht => ht.trans ((h.rets_le t).trans (h.le_calls u)), fun hw => ?_⟩
    obtain ⟨hst, u, hu⟩ := hw
    cases hp : (s.task c.1).pc <;> rw [hp] at hst <;> try cases hst
    · exact h.filled c.1 hp
    · rename_i m
      have := h.last c.1 m hp
      rw [this c.1, this u] at hu
      omega

end Step

/-- **Initialisation is safe when nobody arrives between its two writes.** In
every run from a barrier as loaded in which no decrement succeeds while a task
has set the initial value and not yet written the count: no task returns from
its first wait before all have called it, and no store to the count overwrites
a decrement. -/
theorem safe_of_not_premature (hk : k.index < maxBarrierCount) (hv : k.value.toNat = n) {s : State n}
    (hs : Fresh k s) (c : ℕ → Fin n × Bool) (hc : ∀ i, ¬ Premature k (run k s c i) (c i)) (i : ℕ) :
    Safe (run k s c i) (c i) := by
  have key : Phase k (run k s c i) := by
    induction i with
    | zero => exact hs.phase
    | succ i ih => exact ih.next hk hv (hc i)
  exact key.safe (c i)

/-- Task 0 sets the initial value; task 1 finds it and calls `_barrier_wait`, but
arrives only after task 0 has written the count; then task 0 arrives, and
releases both. -/
def arrivingLater (i : ℕ) : Fin 2 × Bool :=
  if (3 ≤ i ∧ i < 7) ∨ i = 8 ∨ i = 9 ∨ i = 15 then (1, true) else if i < 16 then (0, true) else (0, false)

theorem safe_of_not_premature_arrivingLater :
    (∀ t, ((run ⟨0, 2⟩ twoLoaded arrivingLater 16).task t).rets = 1) ∧
    ∀ i, Safe (run ⟨0, 2⟩ twoLoaded arrivingLater i) (arrivingLater i) := by
  refine ⟨by decide, safe_of_not_premature (n := 2) (by decide) rfl fresh_twoLoaded _ fun i => ?_⟩
  rcases Nat.lt_or_ge i 16 with hlt | hge
  · interval_cases i <;> decide
  · -- from then on no store-conditional succeeds
    have hfails : arrivingLater i = (0, false) := by
      rw [arrivingLater, if_neg (by omega), if_neg (by omega)]
    rw [hfails]
    exact not_premature_of_fails 0

end Barrier
end Giet
end Smc
