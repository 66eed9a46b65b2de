/-
# Rounds of a barrier

An initialised barrier goes from round to round: in round `e` every task has
arrived `e` times, or once more. `Inv` ties the count to that: it is the
number of tasks less those that have arrived in the round. A task that
decrements the count to zero is alone in doing so, and its store begins the
next round.

A barrier without a sense flag has two kinds of waiting tasks: those of the
round, and those of the round before that have not yet seen the count written
back. The first cannot leave early, so the barrier is safe
(`rets_le_calls`). The second must see the count before a task decrements it
again. When a task overtakes them so, they wait for a count that never comes
back, and in the end all wait (`all_spin`); when none does, no wake-up is lost
(`not_stuck_of_not_overtakes`).
-/
import Smc.Giet.Barrier

namespace Smc
namespace Giet
namespace Barrier

variable {n : ℕ} {k : Args}

/-! ### What the tasks know -/

/-- What a task's registers say about the barrier. -/
def Knows (k : Args) (m : Mem Cell (Fin n) Word) (t : Fin n) : Pc → Prop
  | .initSc => m.Linked t k.pinit 0
  | .ll maxcount | .reset maxcount | .spin maxcount => maxcount = k.value
  | .sc maxcount count => maxcount = k.value ∧ m.Linked t k.pcount count
  | _ => True

theorem linked_access {t u : Fin n} {scOk : Bool} {m : Mem Cell (Fin n) Word} {me : Task} {a : Cell} {v : Word}
    (h : m.Linked u a v) (hu : u ≠ t) : (access k t scOk m me).2.Linked u a v := by
  unfold access
  cases me.pc <;> simp only
  case start | outside | spin => split_ifs <;> exact h
  case initLl | ll => split_ifs <;> exact h.of_ll hu
  case initSc | sc => split_ifs <;> exact h.of_sc
  case initStore | reset => exact h.of_store
  case readMax | trapped => exact h

/-- The other tasks' registers stay right. -/
theorem knows_next_of_ne {s : State n} {c : Fin n × Bool} {u : Fin n} (hu : u ≠ c.1)
    (h : Knows k s.mem u (s.task u).pc) : Knows k (next k s c).mem u ((next k s c).task u).pc := by
  rw [next_task_of_ne k hu]
  cases hp : (s.task u).pc <;> rw [hp] at h <;> simp only [Knows] at h ⊢
  case initSc => exact linked_access h hu
  case sc => exact ⟨h.1, linked_access h.2 hu⟩
  all_goals exact h

/-- The registers of the task that steps are right again. -/
theorem knows_next_self {s : State n} {c : Fin n × Bool} (h : Knows k s.mem c.1 (s.task c.1).pc)
    (hmax : (s.task c.1).pc = .readMax → s.mem.val k.pinit = k.value) :
    Knows k (next k s c).mem c.1 ((next k s c).task c.1).pc := by
  rw [next_task_self, show (next k s c).mem = (access k c.1 c.2 s.mem (s.task c.1)).2 from rfl]
  unfold access
  cases hp : (s.task c.1).pc <;> rw [hp] at h <;> simp only [Knows] at h ⊢
  case initLl =>
    split_ifs with hz
    · trivial
    · exact fun _ => not_not.mp hz
  case readMax => exact hmax hp
  case ll maxcount =>
    split_ifs with hv
    · trivial
    · exact ⟨h, fun _ => rfl⟩
  case sc maxcount count =>
    split_ifs <;> exact h.1
  case spin maxcount =>
    split_ifs
    · simp only [hp, h]
    · trivial
  case trapped => simp only [hp]
  all_goals (try split_ifs) <;> trivial

/-- A task has called as often as it has returned, and once more inside. -/
def Counted (me : Task) : Prop := me.calls = me.rets + me.pc.inside.toNat

theorem counted_next {s : State n} (h : ∀ t, Counted (s.task t)) (c : Fin n × Bool) (u : Fin n) :
    Counted ((next k s c).task u) := by
  by_cases hu : u = c.1
  · subst hu
    rw [next_task_self]
    have ht := h c.1
    unfold Counted at ht ⊢
    unfold access
    cases hp : (s.task c.1).pc <;> rw [hp] at ht <;> simp only [Pc.inside, Bool.toNat_true, Bool.toNat_false] at ht ⊢
    all_goals (try split_ifs) <;> simp_all [Task.ret]
  · rw [next_task_of_ne k hu]
    exact h u

theorem Counted.arrivals_le {me : Task} (h : Counted me) : me.arrivals ≤ me.calls := by
  unfold Counted at h
  unfold Task.arrivals
  rw [h]
  cases me.pc <;> simp [Pc.arrived, Pc.inside]

/-! ### The round -/

/-- The tasks that have arrived `r` times. -/
def arrivedIn (s : State n) (r : ℕ) : Finset (Fin n) := Finset.univ.filter fun t => (s.task t).arrivals = r

theorem mem_arrivedIn {s : State n} {r : ℕ} {t : Fin n} : t ∈ arrivedIn s r ↔ (s.task t).arrivals = r := by
  simp [arrivedIn]

theorem card_arrivedIn_le (s : State n) (r : ℕ) : (arrivedIn s r).card ≤ n := by
  simpa using Finset.card_le_univ (arrivedIn s r)

theorem card_arrivedIn_eq_iff {s : State n} {r : ℕ} : (arrivedIn s r).card = n ↔ ∀ t, (s.task t).arrivals = r := by
  have huniv : (arrivedIn s r).card = n ↔ arrivedIn s r = Finset.univ := by
    rw [← Finset.card_eq_iff_eq_univ, Fintype.card_fin]
  rw [huniv, Finset.eq_univ_iff_forall]
  simp only [mem_arrivedIn]

/-- A task that arrives joins those of its round. -/
theorem card_arrivedIn_next {s : State n} {c : Fin n × Bool} {r : ℕ} (hbefore : (s.task c.1).arrivals ≠ r)
    (hafter : ((next k s c).task c.1).arrivals = r) :
    (arrivedIn (next k s c) r).card = (arrivedIn s r).card + 1 := by
  have hout : c.1 ∉ arrivedIn s r := by rwa [mem_arrivedIn]
  have hins : arrivedIn (next k s c) r = insert c.1 (arrivedIn s r) := by
    ext u
    rw [mem_arrivedIn, Finset.mem_insert, mem_arrivedIn]
    by_cases hu : u = c.1
    · simp [hu, hafter]
    · simp [hu, next_task_of_ne k hu]
  rw [hins, Finset.card_insert_of_notMem hout]

/-- The barrier in round `e`. -/
structure Inv (k : Args) (s : State n) (e : ℕ) : Prop where
  max : s.mem.val k.pinit = k.value
  filled : ∀ t, (s.task t).pc ≠ .initStore
  knows : ∀ t, Knows k s.mem t (s.task t).pc
  counted : ∀ t, Counted (s.task t)
  round : ∀ t, (s.task t).arrivals = e ∨ ((s.task t).arrivals = e + 1 ∧ (s.task t).pc.arrived = true)
  count : (s.mem.val k.pcount).toNat + (arrivedIn s (e + 1)).card = n
  last : ∀ t m, (s.task t).pc = .reset m → ∀ u, (s.task u).arrivals = e + 1
  alone : ∀ t m u m', (s.task t).pc = .reset m → (s.task u).pc = .reset m' → t = u
  closing : 0 < n → (∀ t, (s.task t).arrivals = e + 1) → ∃ t m, (s.task t).pc = .reset m

section Facts

variable {s : State n} {e : ℕ} (h : Inv k s e)
include h

theorem Inv.arrivals_of_not_arrived {t : Fin n} (ht : (s.task t).pc.arrived = false) : (s.task t).arrivals = e := by
  rcases h.round t with hr | ⟨-, ha⟩
  · exact hr
  · rw [ht] at ha; cases ha

/-- When the count is the number of tasks, nobody has arrived in the round. -/
theorem Inv.arrivals_of_full (hv : k.value.toNat = n) (hc : s.mem.val k.pcount = k.value) (t : Fin n) :
    (s.task t).arrivals = e := by
  have hcard := h.count
  rw [hc, hv] at hcard
  have hempty : arrivedIn s (e + 1) = ∅ := Finset.card_eq_zero.mp (by omega)
  rcases h.round t with hr | ⟨hr, -⟩
  · exact hr
  · rw [← mem_arrivedIn, hempty] at hr
    simp at hr

theorem Inv.reset_eq {t : Fin n} {m : Word} (hp : (s.task t).pc = .reset m) : m = k.value := by
  have hkn := h.knows t
  rwa [hp] at hkn

theorem Inv.spin_eq {t : Fin n} {m : Word} (hp : (s.task t).pc = .spin m) : m = k.value := by
  have hkn := h.knows t
  rwa [hp] at hkn

/-- An initialised barrier is not initialised again: a task that has read
zero is not linked any more. -/
theorem Inv.not_claims (hv : k.value.toNat = n) {t : Fin n} {scOk : Bool} (hp : (s.task t).pc = .initSc)
    (hok : s.mem.scSucceeds t k.pinit scOk = true) : False := by
  have hkn := h.knows t
  rw [hp] at hkn
  have hz : k.value = 0 := h.max.symm.trans (hkn.val_of_succeeds hok)
  have hn : n = 0 := by rw [← hv, hz]; rfl
  have := t.isLt
  omega

theorem Inv.rets_le (t : Fin n) : (s.task t).rets ≤ e := by
  rcases h.round t with hr | ⟨hr, ha⟩
  · rw [← hr]
    exact Nat.le_add_right _ _
  · rw [Task.arrivals, ha] at hr
    exact (Nat.succ_injective hr).le

theorem Inv.le_calls (t : Fin n) : e ≤ (s.task t).calls := by
  have := (h.counted t).arrivals_le
  rcases h.round t with hr | ⟨hr, -⟩ <;> omega

end Facts

/-! ### A step keeps the round, or begins the next -/

section Step

variable {s : State n} {e : ℕ} {c : Fin n × Bool}

/-- What every step keeps. -/
theorem Inv.knows_next (h : Inv k s e) (u : Fin n) : Knows k (next k s c).mem u ((next k s c).task u).pc := by
  by_cases hu : u = c.1
  · subst hu
    exact knows_next_self (h.knows c.1) fun _ => h.max
  · exact knows_next_of_ne hu (h.knows u)

/-- A step that changes nobody's arrivals and not the count keeps the round,
if a task that is no longer waiting had not arrived in it. -/
theorem Inv.of_same_arrivals (h : Inv k s e) (hn : (s.task c.1).arrivals = ((next k s c).task c.1).arrivals)
    (hval : (next k s c).mem.val = s.mem.val) (hpc : ((next k s c).task c.1).pc ≠ .initStore)
    (ha : (s.task c.1).arrivals = e ∨ ((next k s c).task c.1).pc = (s.task c.1).pc)
    (hr : ∀ m, ((next k s c).task c.1).pc = .reset m → ((next k s c).task c.1).pc = (s.task c.1).pc)
    (hr' : ∀ m, (s.task c.1).pc = .reset m → ((next k s c).task c.1).pc = (s.task c.1).pc) :
    Inv k (next k s c) e := by
  have same : ∀ u, ((next k s c).task u).arrivals = (s.task u).arrivals := by
    intro u
    by_cases hu : u = c.1
    · rw [hu, hn]
    · rw [next_task_of_ne k hu]
  have hreset : ∀ u m, ((next k s c).task u).pc = .reset m ↔ (s.task u).pc = .reset m := by
    intro u m
    by_cases hu : u = c.1
    · subst hu
      exact ⟨fun hm => by rw [← hr m hm, hm], fun hm => by rw [hr' m hm, hm]⟩
    · rw [next_task_of_ne k hu]
  refine ⟨by rw [hval]; exact h.max, fun u => ?_, fun u => h.knows_next u, counted_next h.counted c,
    fun u => ?_, ?_, fun t m ht u => ?_, fun t m u m' ht hu => ?_, fun hpos hall => ?_⟩
  · by_cases hu : u = c.1
    · rw [hu]; exact hpc
    · rw [next_task_of_ne k hu]; exact h.filled u
  · rw [same u]
    by_cases hu : u = c.1
    · subst hu
      rcases ha with ha | ha
      · exact .inl ha
      · rw [ha]; exact h.round c.1
    · rw [next_task_of_ne k hu]; exact h.round u
  · have : arrivedIn (next k s c) (e + 1) = arrivedIn s (e + 1) := by
      ext u
      rw [mem_arrivedIn, mem_arrivedIn, same u]
    rw [hval, this]
    exact h.count
  · rw [same u]
    exact h.last t m ((hreset t m).mp ht) u
  · exact h.alone t m u m' ((hreset t m).mp ht) ((hreset u m').mp hu)
  · obtain ⟨t, m, ht⟩ := h.closing hpos fun t => (same t).symm.trans (hall t)
    exact ⟨t, m, (hreset t m).mpr ht⟩

theorem Inv.of_arrives (h : Inv k s e) {maxcount count : Word} (hp : (s.task c.1).pc = .sc maxcount count)
    (hok : s.mem.scSucceeds c.1 k.pcount c.2 = true)
    (hp' : ((next k s c).task c.1).pc = if count = 1 then .reset maxcount else .spin maxcount)
    (hrets : ((next k s c).task c.1).rets = (s.task c.1).rets)
    (hmem : (next k s c).mem = s.mem.store k.pcount (count - 1)) : Inv k (next k s c) e := by
  have hkn := h.knows c.1
  rw [hp] at hkn
  have hcount : s.mem.val k.pcount = count := hkn.2.val_of_succeeds hok
  have hbefore : (s.task c.1).arrivals = e := h.arrivals_of_not_arrived (by rw [hp]; rfl)
  have harr : ((next k s c).task c.1).pc.arrived = true := by rw [hp']; split_ifs <;> rfl
  have hafter : ((next k s c).task c.1).arrivals = e + 1 := by
    rw [Task.arrivals, hp] at hbefore
    rw [Task.arrivals, hrets, harr]
    simpa [Pc.arrived] using hbefore
  have hcard := card_arrivedIn_next (r := e + 1) (by omega) hafter
  -- the task itself was still to arrive, so the count was not zero
  have hle := card_arrivedIn_le (next k s c) (e + 1)
  have hsum := h.count
  rw [hcount] at hsum
  have h1 : (1 : Word).toNat = 1 := rfl
  have hsub : (count - 1).toNat = count.toNat - 1 := by
    rw [BitVec.toNat_sub_of_le (by rw [BitVec.le_def, h1]; omega), h1]
  have hall : (∀ u, ((next k s c).task u).arrivals = e + 1) ↔ count = 1 := by
    rw [← card_arrivedIn_eq_iff, BitVec.toNat_eq, h1]
    omega
  have hnoreset : ∀ u m, u ≠ c.1 → ((next k s c).task u).pc ≠ .reset m := by
    intro u m hu hm
    rw [next_task_of_ne k hu] at hm
    have := h.last u m hm c.1
    omega
  refine ⟨?_, fun u => ?_, fun u => h.knows_next u, counted_next h.counted c, fun u => ?_, ?_,
    fun t m ht => ?_, fun t m u m' ht hu => ?_, fun _ hu => ?_⟩
  · rw [hmem, Mem.store_val_of_ne _ k.pinit_ne_pcount]
    exact h.max
  · by_cases hu : u = c.1
    · rw [hu, hp']; split_ifs <;> simp
    · rw [next_task_of_ne k hu]; exact h.filled u
  · by_cases hu : u = c.1
    · subst hu; exact .inr ⟨hafter, harr⟩
    · rw [next_task_of_ne k hu]; exact h.round u
  · rw [hmem, Mem.store_val_self, hsub, hcard]
    omega
  · by_cases hu : t = c.1
    · subst hu
      rw [hp'] at ht
      split_ifs at ht with h1
      exact hall.mpr h1
    · exact absurd ht (hnoreset t m hu)
  · have h1 : t = c.1 := by by_contra hne; exact hnoreset t m hne ht
    have h2 : u = c.1 := by by_contra hne; exact hnoreset u m' hne hu
    rw [h1, h2]
  · exact ⟨c.1, maxcount, by rw [hp', if_pos (hall.mp hu)]⟩

/-- The store of the last task begins the next round. -/
theorem Inv.of_releases (h : Inv k s e) (hv : k.value.toNat = n) {maxcount : Word}
    (hp : (s.task c.1).pc = .reset maxcount) (hp' : ((next k s c).task c.1).pc = .outside)
    (hrets : ((next k s c).task c.1).rets = (s.task c.1).rets + 1)
    (hmem : (next k s c).mem = s.mem.store k.pcount maxcount) : Inv k (next k s c) (e + 1) := by
  have same : ∀ u, ((next k s c).task u).arrivals = e + 1 := by
    intro u
    have hu' := h.last c.1 maxcount hp u
    by_cases hu : u = c.1
    · subst hu
      rw [Task.arrivals, hp] at hu'
      rw [Task.arrivals, hrets, hp']
      simpa [Pc.arrived] using hu'
    · rw [next_task_of_ne k hu, hu']
  have hnone : arrivedIn (next k s c) (e + 1 + 1) = ∅ := by
    ext u
    simp [mem_arrivedIn, same u]
  have hnoreset : ∀ u m, ((next k s c).task u).pc ≠ .reset m := by
    intro u m hm
    by_cases hu : u = c.1
    · rw [hu, hp'] at hm; cases hm
    · rw [next_task_of_ne k hu] at hm
      exact hu (h.alone u m c.1 maxcount hm hp)
  refine ⟨?_, fun u => ?_, fun u => h.knows_next u, counted_next h.counted c, fun u => .inl (same u), ?_,
    fun t m ht => absurd ht (hnoreset t m), fun t m u m' ht => absurd ht (hnoreset t m), fun hpos hu => ?_⟩
  · rw [hmem, Mem.store_val_of_ne _ k.pinit_ne_pcount]
    exact h.max
  · by_cases hu : u = c.1
    · simp [hu, hp']
    · rw [next_task_of_ne k hu]; exact h.filled u
  · rw [hmem, Mem.store_val_self, hnone, h.reset_eq hp, hv, Finset.card_empty, Nat.add_zero]
  · have := hu ⟨0, hpos⟩
    rw [same] at this
    omega

/-- **One step.** The barrier stays in its round, or goes to the next. -/
theorem inv_next (hk : k.index < maxBarrierCount) (hv : k.value.toNat = n) (h : Inv k s e) (c : Fin n × Bool) :
    Inv k (next k s c) e ∨ Inv k (next k s c) (e + 1) := by
  cases move_next hk s c with
  | goesOn pc rets val =>
    left
    rcases pc with pc | ⟨h1, h2, -, h3⟩
    · have hn : (s.task c.1).arrivals = ((next k s c).task c.1).arrivals := by
        rw [Task.arrivals, Task.arrivals, pc, rets]
      exact h.of_same_arrivals hn val (by rw [pc]; exact h.filled c.1) (.inr pc) (fun _ _ => pc) (fun _ _ => pc)
    · have hn : (s.task c.1).arrivals = ((next k s c).task c.1).arrivals := by
        rw [Task.arrivals, Task.arrivals, h1, h2, rets]
      refine h.of_same_arrivals hn val h3 (.inl (h.arrivals_of_not_arrived h1)) (fun m hm => ?_) (fun m hm => ?_)
      · rw [hm] at h2; cases h2
      · rw [hm] at h1; cases h1
  | arrives maxcount count pc ok pc' rets mem => exact .inl (h.of_arrives pc ok pc' rets mem)
  | releases maxcount pc pc' rets mem => exact .inr (h.of_releases hv pc pc' rets mem)
  | leaves maxcount pc pc' rets val mem =>
    left
    have hn : (s.task c.1).arrivals = ((next k s c).task c.1).arrivals := by
      rw [Task.arrivals, Task.arrivals, pc, pc', rets]
      rfl
    refine h.of_same_arrivals hn (by rw [mem]) (by rw [pc']; nofun)
      (.inl (h.arrivals_of_full hv (by rw [val, h.spin_eq pc]) c.1)) (fun m hm => ?_) (fun m hm => ?_)
    · rw [pc'] at hm; cases hm
    · rw [pc] at hm; cases hm
  | claims pc ok pc' rets mem => exact (h.not_claims hv pc ok).elim
  | fills pc pc' rets mem => exact absurd pc (h.filled c.1)

end Step

/-! ### Safety -/

/-- The run of the tasks under a schedule. -/
def run (k : Args) (s : State n) (c : ℕ → Fin n × Bool) : ℕ → State n := Clocked.run (next k) s c

/-- The barrier is initialised and no task has called `_barrier_wait` yet. -/
structure Ready (k : Args) (s : State n) : Prop where
  max : s.mem.val k.pinit = k.value
  count : s.mem.val k.pcount = k.value
  outside : ∀ t, (s.task t).pc = .outside
  calls : ∀ t, (s.task t).calls = 0
  rets : ∀ t, (s.task t).rets = 0

theorem Ready.inv {s : State n} (h : Ready k s) (hv : k.value.toNat = n) : Inv k s 0 := by
  have harr : ∀ t, (s.task t).arrivals = 0 := fun t => by rw [Task.arrivals, h.rets t, h.outside t]; rfl
  have hnone : arrivedIn s (0 + 1) = ∅ := by
    ext t
    simp [mem_arrivedIn, harr t]
  refine ⟨h.max, fun t => ?_, fun t => ?_, fun t => ?_, fun t => .inl (harr t), ?_, fun t m ht => ?_,
    fun t m u m' ht => ?_, fun hpos hall => ?_⟩
  · rw [h.outside t]; nofun
  · rw [h.outside t]; trivial
  · rw [Counted, h.calls t, h.rets t, h.outside t]; rfl
  · rw [h.count, hnone, hv, Finset.card_empty, Nat.add_zero]
  · rw [h.outside t] at ht; cases ht
  · rw [h.outside t] at ht; cases ht
  · have := hall ⟨0, hpos⟩
    rw [harr] at this
    omega

theorem inv_run (hk : k.index < maxBarrierCount) (hv : k.value.toNat = n) {s : State n} (hs : Ready k s)
    (c : ℕ → Fin n × Bool) (i : ℕ) : ∃ e, Inv k (run k s c i) e := by
  refine Clocked.run_inv (fun _ s => ∃ e, Inv k s e) ⟨0, hs.inv hv⟩ (fun i x hx => ?_) i
  obtain ⟨e, he⟩ := hx
  rcases inv_next hk hv he (c i) with h | h
  · exact ⟨e, h⟩
  · exact ⟨e + 1, h⟩

/-- **The barrier is safe over any number of rounds.** In every state of every
run from an initialised barrier, no task has returned more often than any
other has called: no task returns from its `k`-th wait before all have begun
theirs. -/
theorem rets_le_calls (hk : k.index < maxBarrierCount) (hv : k.value.toNat = n) {s : State n} (hs : Ready k s)
    (c : ℕ → Fin n × Bool) (i : ℕ) (t u : Fin n) :
    ((run k s c i).task t).rets ≤ ((run k s c i).task u).calls := by
  obtain ⟨e, he⟩ := inv_run hk hv hs c i
  exact (he.rets_le t).trans (he.le_calls u)

/-- Two tasks outside an initialised barrier. -/
def twoTasks : State 2 where
  mem := { val := fun _ => 2, link := fun _ => none }
  task _ := { pc := .outside, calls := 0, rets := 0, result := 0 }

theorem ready_twoTasks : Ready ⟨0, 2⟩ twoTasks := ⟨rfl, rfl, fun _ => rfl, fun _ => rfl, fun _ => rfl⟩

/-- Task 0 arrives and waits; task 1 arrives, writes the count back, returns
and arrives again. -/
def overtaking (i : ℕ) : Fin 2 × Bool := if i < 4 then (0, true) else (1, true)

/-- After nine steps task 1 has returned, and task 0 has called. -/
theorem rets_le_calls_overtaking : ((run ⟨0, 2⟩ twoTasks overtaking 9).task 1).rets = 1 ∧
    1 ≤ ((run ⟨0, 2⟩ twoTasks overtaking 9).task 0).calls := by
  have h1 : ((run ⟨0, 2⟩ twoTasks overtaking 9).task 1).rets = 1 := by decide
  refine ⟨h1, ?_⟩
  have := rets_le_calls (n := 2) (by decide) rfl ready_twoTasks overtaking 9 1 0
  rwa [h1] at this

/-! ### Lost wake-ups -/

/-- A task that waits for another count changes nothing. -/
theorem next_of_waiting {s : State n} {c : Fin n × Bool} {m : Word} (hp : (s.task c.1).pc = .spin m)
    (hm : s.mem.val k.pcount ≠ m) : next k s c = s := by
  have ha : access k c.1 c.2 s.mem (s.task c.1) = (s.task c.1, s.mem) := by
    simp only [access, hp, if_pos hm]
  rw [next, ha, Function.update_eq_self]

/-- The task reads the count until it is written back. -/
def Pc.spinning : Pc → Bool
  | .spin _ => true
  | _ => false

theorem Pc.arrived_of_spinning {pc : Pc} (h : pc.spinning = true) : pc.arrived = true := by
  cases pc <;> first | rfl | cases h

/-- All tasks wait, and the count is not the one they wait for. -/
def Stuck (k : Args) (s : State n) : Prop :=
  ∀ t, match (s.task t).pc with
    | .spin maxcount => s.mem.val k.pcount ≠ maxcount
    | _ => False

instance (k : Args) (s : State n) : Decidable (Stuck k s) := by
  unfold Stuck
  have : ∀ t, Decidable (match (s.task t).pc with
    | .spin maxcount => s.mem.val k.pcount ≠ maxcount
    | _ => False) := fun t => by split <;> infer_instance
  infer_instance

/-- A task's decrement succeeds on a count that was just written back, while
another task has not seen that yet. -/
def Overtakes (k : Args) (s : State n) (c : Fin n × Bool) : Prop :=
  match (s.task c.1).pc with
  | .sc maxcount _ => s.mem.scSucceeds c.1 k.pcount c.2 = true ∧ s.mem.val k.pcount = maxcount ∧
      ∃ u, (s.task u).pc.spinning = true
  | _ => False

instance (k : Args) (s : State n) (c : Fin n × Bool) : Decidable (Overtakes k s c) := by
  unfold Overtakes
  split <;> infer_instance

/-- A decrement that fails overtakes nobody. -/
theorem not_overtakes_of_fails {s : State n} (t : Fin n) : ¬ Overtakes k s (t, false) := by
  unfold Overtakes
  split
  · rintro ⟨hok, -⟩
    cases hok
  · exact not_false

/-- A stuck state is never left. -/
theorem Stuck.run_eq {s : State n} (h : Stuck k s) (c : ℕ → Fin n × Bool) (i : ℕ) : run k s c i = s := by
  induction i with
  | zero => rfl
  | succ i ih =>
    change next k (run k s c i) (c i) = s
    rw [ih]
    have ht := h (c i).1
    split at ht
    · rename_i m hp
      exact next_of_waiting hp ht
    · cases ht

/-- Task 1 overtakes task 0, and both wait for ever. -/
theorem all_spin : Ready ⟨0, 2⟩ twoTasks ∧ Stuck ⟨0, 2⟩ (run ⟨0, 2⟩ twoTasks overtaking 13) ∧
    ∀ c i, Stuck ⟨0, 2⟩ (run ⟨0, 2⟩ (run ⟨0, 2⟩ twoTasks overtaking 13) c i) := by
  have h : Stuck ⟨0, 2⟩ (run ⟨0, 2⟩ twoTasks overtaking 13) := by decide
  exact ⟨ready_twoTasks, h, fun c i => by rw [h.run_eq c i]; exact h⟩

/-- While the count is lower than the number of tasks, no task waits from an
earlier round than another. -/
def NoneLate (k : Args) (s : State n) : Prop :=
  s.mem.val k.pcount ≠ k.value → ∀ t u, (s.task t).pc.spinning = true → (s.task u).arrivals ≤ (s.task t).arrivals

/-- A count lower than the number of tasks shows that one has arrived. -/
theorem Inv.exists_arrived {s : State n} {e : ℕ} (h : Inv k s e) (hv : k.value.toNat = n)
    (hc : s.mem.val k.pcount ≠ k.value) : ∃ u, (s.task u).arrivals = e + 1 := by
  have hne : (arrivedIn s (e + 1)).Nonempty := by
    rw [← Finset.card_pos]
    by_contra hz
    have hsum := h.count
    apply hc
    rw [BitVec.toNat_eq, hv]
    omega
  obtain ⟨u, hu⟩ := hne
  exact ⟨u, mem_arrivedIn.mp hu⟩

theorem Inv.arrivals_le {s : State n} {e : ℕ} (h : Inv k s e) (u : Fin n) : (s.task u).arrivals ≤ e + 1 := by
  rcases h.round u with hr | ⟨hr, -⟩ <;> omega

theorem noneLate_next (hk : k.index < maxBarrierCount) (hv : k.value.toNat = n) {s : State n} {e : ℕ}
    (h : Inv k s e) (hl : NoneLate k s) {c : Fin n × Bool} (ho : ¬ Overtakes k s c) :
    NoneLate k (next k s c) := by
  intro hc t u ht
  cases move_next hk s c with
  | goesOn pc rets val =>
    have same : ∀ u, ((next k s c).task u).arrivals = (s.task u).arrivals := by
      intro u
      by_cases hu : u = c.1
      · rw [hu, Task.arrivals, Task.arrivals, rets]
        rcases pc with pc | ⟨h1, h2, -⟩
        · rw [pc]
        · rw [h1, h2]
      · rw [next_task_of_ne k hu]
    have hspin : (s.task t).pc.spinning = true := by
      by_cases hu : t = c.1
      · subst hu
        rcases pc with pc | ⟨-, h2, -⟩
        · rwa [pc] at ht
        · rw [Pc.arrived_of_spinning ht] at h2; cases h2
      · rwa [next_task_of_ne k hu] at ht
    rw [same t, same u]
    exact hl (by rw [← val]; exact hc) t u hspin
  | arrives maxcount count pc ok pc' rets mem =>
    have h' := h.of_arrives pc ok pc' rets mem
    have hmax : maxcount = k.value := by
      have hkn := h.knows c.1
      rw [pc] at hkn
      exact hkn.1
    suffices hte : ((next k s c).task t).arrivals = e + 1 by
      rw [hte]
      exact h'.arrivals_le u
    by_cases hu : t = c.1
    · subst hu
      have hb : (s.task c.1).arrivals = e := h.arrivals_of_not_arrived (by rw [pc]; rfl)
      rw [Task.arrivals, pc] at hb
      rw [Task.arrivals, rets, pc']
      split_ifs <;> simpa [Pc.arrived] using hb
    · rw [next_task_of_ne k hu] at ht ⊢
      -- with a task waiting, the count was not the number of tasks
      have hlow : s.mem.val k.pcount ≠ k.value := by
        intro hfull
        apply ho
        rw [Overtakes, pc]
        exact ⟨ok, by rw [hfull, hmax], t, ht⟩
      obtain ⟨w, hw⟩ := h.exists_arrived hv hlow
      have h1 := hl hlow t w ht
      have h2 := h.arrivals_le t
      omega
  | releases maxcount pc pc' rets mem =>
    rw [mem, Mem.store_val_self] at hc
    exact absurd (h.reset_eq pc) hc
  | leaves maxcount pc pc' rets val mem =>
    rw [mem, val] at hc
    exact absurd (h.spin_eq pc) hc
  | claims pc ok pc' rets mem => exact (h.not_claims hv pc ok).elim
  | fills pc pc' rets mem => exact absurd pc (h.filled c.1)

theorem not_stuck {s : State n} {e : ℕ} (hv : k.value.toNat = n) (hpos : 0 < n) (h : Inv k s e)
    (hl : NoneLate k s) : ¬ Stuck k s := by
  intro hs
  have hspin : ∀ t, ∃ m, (s.task t).pc = .spin m ∧ s.mem.val k.pcount ≠ m := by
    intro t
    have ht := hs t
    cases hp : (s.task t).pc <;> rw [hp] at ht <;> first | exact ⟨_, rfl, ht⟩ | cases ht
  have hlow : s.mem.val k.pcount ≠ k.value := by
    obtain ⟨m, hp, hm⟩ := hspin ⟨0, hpos⟩
    exact h.spin_eq hp ▸ hm
  obtain ⟨w, hw⟩ := h.exists_arrived hv hlow
  have hall : ∀ t, (s.task t).arrivals = e + 1 := by
    intro t
    obtain ⟨m, hp, -⟩ := hspin t
    have h1 := hl hlow t w (by rw [hp]; rfl)
    have h2 := h.arrivals_le t
    omega
  obtain ⟨t, m, ht⟩ := h.closing hpos hall
  obtain ⟨m', hp, -⟩ := hspin t
  rw [hp] at ht
  cases ht

/-- **No wake-up is lost when nobody is overtaken.** In every run from an
initialised barrier in which no task decrements the count just written back
while another has still to see it, no state is reached in which all tasks wait
for a count that does not come. -/
theorem not_stuck_of_not_overtakes (hk : k.index < maxBarrierCount) (hv : k.value.toNat = n) {s : State n}
    (hs : Ready k s) (c : ℕ → Fin n × Bool) (hc : ∀ i, ¬ Overtakes k (run k s c i) (c i)) (i : ℕ) :
    ¬ Stuck k (run k s c i) := by
  have key : NoneLate k (run k s c i) := by
    induction i with
    | zero =>
      intro hlow
      exact absurd hs.count hlow
    | succ i ih =>
      obtain ⟨e, he⟩ := inv_run hk hv hs c i
      exact noneLate_next hk hv he ih (hc i)
  obtain ⟨e, he⟩ := inv_run hk hv hs c i
  have := (c 0).1.isLt
  exact not_stuck hv (by omega) he key

/-- Two rounds: task 0 is the last to arrive in the first, task 1 in the second,
and the other one sees the count written back before the next round. -/
def takingTurns (i : ℕ) : Fin 2 × Bool :=
  if i < 4 ∨ i = 9 ∨ (14 ≤ i ∧ i < 19) then (1, true) else if i < 20 then (0, true) else (0, false)

/-- Both tasks are released twice, and at no time do both wait in vain. -/
theorem not_stuck_of_not_overtakes_takingTurns :
    (∀ t, ((run ⟨0, 2⟩ twoTasks takingTurns 20).task t).rets = 2) ∧
    ∀ i, ¬ Stuck ⟨0, 2⟩ (run ⟨0, 2⟩ twoTasks takingTurns i) := by
  refine ⟨by decide, not_stuck_of_not_overtakes (n := 2) (by decide) rfl ready_twoTasks _ fun i => ?_⟩
  rcases Nat.lt_or_ge i 20 with hlt | hge
  · interval_cases i <;> decide
  · -- from then on no store-conditional succeeds
    have hfails : takingTurns i = (0, false) := by
      rw [takingTurns, if_neg (by omega), if_neg (by omega)]
    rw [hfails]
    exact not_overtakes_of_fails 0

end Barrier
end Giet
end Smc
