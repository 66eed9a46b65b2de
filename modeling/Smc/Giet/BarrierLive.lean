/-
# When the barrier lives

Under a fair schedule, with a store-conditional that fails only when the word
was written since, a barrier goes from round to round, or all its tasks end up
waiting for a count that does not come (`round_or_stuck`): every access of a
task that does not wait in vain brings the round nearer to its end, as
`remaining` counts it.

Which of the two is decided by overtaking. If no task ever decrements the
count just written back while another has still to see it, every round is
completed; at the first such decrement the task overtaken is held for ever,
and with it the round (`Held`). So a fair run is live if and only if nobody is
overtaken (`live_iff_not_overtakes`), and else it stops for good
(`stops_iff_overtakes`).

Key definitions: `Idle`, `remaining`, `Held`.
Key theorems: `round_or_stuck`, `live_iff_not_overtakes`,
`stops_iff_overtakes`.
-/
import Smc.Giet.BarrierRounds
import Smc.Lib.Temporal

namespace Smc
namespace Giet
namespace Barrier

variable {n : ℕ} {k : Args} {s : State n} {e : ℕ} {c : Fin n × Bool}

/-! ### The way to an arrival -/

/-- The task waits for a count that is not there: its access changes nothing. -/
def Idle (k : Args) (s : State n) (t : Fin n) : Prop :=
  match (s.task t).pc with
  | .spin maxcount => s.mem.val k.pcount ≠ maxcount
  | _ => False

/-- The task is in `_barrier_wait`, or between two calls of it. -/
def Pc.waits : Pc → Bool
  | .outside | .readMax | .ll _ | .sc _ _ | .reset _ | .spin _ => true
  | .start | .initLl | .initSc | .initStore | .trapped => false

/-- How many accesses a task is from its next decrement, if nobody comes
before it. One that is not linked any more has to read the count again. -/
def Pc.reach (linked : Bool) : Pc → ℕ
  | .spin _ => 5
  | .outside => 4
  | .readMax => 3
  | .ll _ => 2
  | .sc _ _ => if linked then 1 else 3
  | .start | .initLl | .initSc | .initStore | .reset _ | .trapped => 0

theorem Pc.reach_le (b b' : Bool) (pc : Pc) : pc.reach b ≤ pc.reach b' + 2 := by
  cases pc <;> simp only [reach]
  case sc => split_ifs <;> omega
  all_goals omega

def reach (k : Args) (s : State n) (t : Fin n) : ℕ :=
  (s.task t).pc.reach (decide (s.mem.link t = some k.pcount))

/-- The same for the decrement of round `e`. -/
def weight (k : Args) (e : ℕ) (s : State n) (t : Fin n) : ℕ :=
  if (s.task t).arrivals = e + 1 then 0 else reach k s t

/-- What is left of round `e`. A decrement sets the other tasks back, by two
accesses each. -/
def remaining (k : Args) (e : ℕ) (s : State n) : ℕ :=
  (2 * n + 1) * (s.mem.val k.pcount).toNat + ∑ t, weight k e s t

theorem weight_le_reach (t : Fin n) : weight k e s t ≤ reach k s t := by
  rw [weight]
  split_ifs
  · exact Nat.zero_le _
  · exact le_rfl

theorem weight_of_arrivals {t : Fin n} (h : (s.task t).arrivals = e) : weight k e s t = reach k s t := by
  rw [weight, if_neg (by omega)]

theorem weight_congr {s' : State n} {t : Fin n} (ht : s'.task t = s.task t) (hl : s'.mem.link t = s.mem.link t) :
    weight k e s' t = weight k e s t := by
  rw [weight, weight, reach, reach, ht, hl]

/-- A lost link costs two accesses. -/
theorem weight_le_add_two {s' : State n} {t : Fin n} (ht : s'.task t = s.task t) :
    weight k e s' t ≤ weight k e s t + 2 := by
  rw [weight, weight, reach, reach, ht]
  split
  · exact Nat.zero_le _
  · exact Pc.reach_le _ _ _

/-- An access that leaves the count and the other tasks' links, and brings
its task nearer. -/
theorem remaining_lt_of_own (hcount : (next k s c).mem.val k.pcount = s.mem.val k.pcount)
    (hlink : ∀ u, u ≠ c.1 → (next k s c).mem.link u = s.mem.link u)
    (hlt : weight k e (next k s c) c.1 < weight k e s c.1) : remaining k e (next k s c) < remaining k e s := by
  rw [remaining, remaining, hcount]
  apply Nat.add_lt_add_left
  refine Finset.sum_lt_sum (fun u _ => ?_) ⟨c.1, Finset.mem_univ _, hlt⟩
  by_cases hu : u = c.1
  · rw [hu]
    exact hlt.le
  · exact (weight_congr (next_task_of_ne k hu) (hlink u hu)).le

/-- An arrival. -/
theorem remaining_lt_of_arrives (hcount : ((next k s c).mem.val k.pcount).toNat + 1 = (s.mem.val k.pcount).toNat)
    (harr : ((next k s c).task c.1).arrivals = e + 1) : remaining k e (next k s c) < remaining k e s := by
  have hsum : ∑ t, weight k e (next k s c) t ≤ ∑ t, weight k e s t + 2 * n := by
    calc ∑ t, weight k e (next k s c) t ≤ ∑ t : Fin n, (weight k e s t + 2) := by
          refine Finset.sum_le_sum fun u _ => ?_
          by_cases hu : u = c.1
          · rw [hu, weight, if_pos harr]
            exact Nat.zero_le _
          · exact weight_le_add_two (next_task_of_ne k hu)
      _ = ∑ t, weight k e s t + 2 * n := by
          rw [Finset.sum_add_distrib, Finset.sum_const, Finset.card_univ, Fintype.card_fin, smul_eq_mul, Nat.mul_comm]
  have hmul : (2 * n + 1) * (s.mem.val k.pcount).toNat =
      (2 * n + 1) * ((next k s c).mem.val k.pcount).toNat + (2 * n + 1) := by
    rw [← hcount, Nat.mul_add, Nat.mul_one]
  rw [remaining, remaining, hmul]
  omega

/-! ### Every access that is not idle is progress -/

/-- A task whose decrement succeeds arrives. -/
theorem arrivals_of_succeeds {m count : Word} (hp : (s.task c.1).pc = .sc m count)
    (hs : s.mem.scSucceeds c.1 k.pcount c.2 = true) :
    ((next k s c).task c.1).arrivals = (s.task c.1).arrivals + 1 := by
  have ht : (next k s c).task c.1 = { s.task c.1 with pc := if count = 1 then .reset m else .spin m } := by
    rw [next_task_self]
    simp only [access, hp, hs, ↓reduceIte]
  rw [Task.arrivals, Task.arrivals, ht, hp]
  dsimp only
  split_ifs <;> rfl

/-- An access of a task that has not arrived, and brings it nearer. -/
theorem remaining_lt_of_link (ha : (s.task c.1).arrivals = e) (hcount : (next k s c).mem.val = s.mem.val)
    (hlink : ∀ u, u ≠ c.1 → (next k s c).mem.link u = s.mem.link u) {r : ℕ} (hr : reach k s c.1 = r + 1)
    (hr' : reach k (next k s c) c.1 ≤ r) : remaining k e (next k s c) < remaining k e s := by
  apply remaining_lt_of_own (congrFun hcount _) hlink
  rw [weight_of_arrivals ha, hr]
  exact Nat.lt_succ_of_le ((weight_le_reach _).trans hr')

/-- A call, and the read of the number of tasks. -/
theorem remaining_lt_of_access {r : ℕ} (ha : (s.task c.1).arrivals = e) (hr : reach k s c.1 = r + 1)
    (hm : (access k c.1 c.2 s.mem (s.task c.1)).2 = s.mem)
    (hr' : ∀ b, (access k c.1 c.2 s.mem (s.task c.1)).1.pc.reach b ≤ r) :
    remaining k e (next k s c) < remaining k e s := by
  have hmem : (next k s c).mem = s.mem := hm
  refine remaining_lt_of_link ha (by rw [hmem]) (fun u _ => by rw [hmem]) hr ?_
  rw [reach, next_task_self]
  exact hr' _

section Progress

variable (h : Inv k s e)

include h

/-- The count is one of tasks, so `addi` does not trap. -/
theorem Inv.ne_intMin (hn : n < 2 ^ 31) : s.mem.val k.pcount ≠ BitVec.intMin 32 := by
  intro hmin
  have hcount := h.count
  rw [hmin, show (BitVec.intMin 32).toNat = 2 ^ 31 from rfl] at hcount
  omega

/-- The task reads the count and is linked to it. -/
theorem Inv.remaining_lt_ll (hn : n < 2 ^ 31) {m : Word} (hp : (s.task c.1).pc = .ll m) :
    remaining k e (next k s c) < remaining k e s := by
  have ha := h.arrivals_of_not_arrived (t := c.1) (by rw [hp]; rfl)
  have hacc : access k c.1 c.2 s.mem (s.task c.1) =
      ({ s.task c.1 with pc := .sc m (s.mem.val k.pcount) }, s.mem.ll c.1 k.pcount) := by
    simp only [access, hp]
    rw [if_neg (h.ne_intMin hn)]
  have ht : (next k s c).task c.1 = { s.task c.1 with pc := .sc m (s.mem.val k.pcount) } := by
    rw [next_task_self, hacc]
  have hm : (next k s c).mem = s.mem.ll c.1 k.pcount := congrArg Prod.snd hacc
  refine remaining_lt_of_link ha (by rw [hm]; rfl) (fun u hu => ?_) (r := 1) (by rw [reach, hp]; rfl) ?_
  · rw [hm]
    exact Function.update_of_ne hu _ _
  · rw [reach, ht, hm]
    simp [Mem.ll, Pc.reach]

/-- The decrement, if no other came before it. -/
theorem Inv.remaining_lt_sc (h' : Inv k (next k s c) e) (hc : c.2 = true) {m count : Word}
    (hp : (s.task c.1).pc = .sc m count) : remaining k e (next k s c) < remaining k e s := by
  have ha := h.arrivals_of_not_arrived (t := c.1) (by rw [hp]; rfl)
  by_cases hl : s.mem.link c.1 = some k.pcount
  · have hs : s.mem.scSucceeds c.1 k.pcount c.2 = true := by
      rw [Mem.scSucceeds, hc, hl]
      simp
    have harr : ((next k s c).task c.1).arrivals = e + 1 := by rw [arrivals_of_succeeds hp hs, ha]
    have hcard := card_arrivedIn_next (r := e + 1) (by omega) harr
    have hsum := h.count
    have hsum' := h'.count
    exact remaining_lt_of_arrives (by omega) harr
  · have hs : s.mem.scSucceeds c.1 k.pcount c.2 = false := by
      rw [Mem.scSucceeds, decide_eq_false hl, Bool.and_false]
    have hacc : access k c.1 c.2 s.mem (s.task c.1) =
        ({ s.task c.1 with pc := .ll m }, s.mem.sc c.1 k.pcount (count - 1) c.2) := by
      simp only [access, hp, hs, Bool.false_eq_true, ↓reduceIte]
    have ht : (next k s c).task c.1 = { s.task c.1 with pc := .ll m } := by rw [next_task_self, hacc]
    have hm : (next k s c).mem = s.mem.sc c.1 k.pcount (count - 1) c.2 := congrArg Prod.snd hacc
    refine remaining_lt_of_link ha (by rw [hm, Mem.sc_val_of_fails _ hs]) (fun u hu => ?_) (r := 2) ?_ ?_
    · rw [hm, Mem.sc, hs]
      exact Function.update_of_ne hu _ _
    · rw [reach, hp, decide_eq_false hl]
      rfl
    · rw [reach, ht]
      exact le_rfl

/-- **An access is idle, ends the round, or brings its end nearer.** -/
theorem Inv.progress (hk : k.index < maxBarrierCount) (hv : k.value.toNat = n) (hn : n < 2 ^ 31)
    (hw : (s.task c.1).pc.waits = true) (hc : c.2 = true) (hi : ¬ Idle k s c.1) :
    Inv k (next k s c) (e + 1) ∨ (Inv k (next k s c) e ∧ remaining k e (next k s c) < remaining k e s) := by
  have hk' : ¬ k.index ≥ maxBarrierCount := by omega
  rcases inv_next hk hv h c with h' | h'
  · refine .inr ⟨h', ?_⟩
    cases hp : (s.task c.1).pc with
    | outside =>
      have ha := h.arrivals_of_not_arrived (t := c.1) (by rw [hp]; rfl)
      apply remaining_lt_of_access ha (r := 3) (by rw [reach, hp]; rfl) <;> simp only [access, hp, if_neg hk']
      exact fun _ => le_rfl
    | readMax =>
      have ha := h.arrivals_of_not_arrived (t := c.1) (by rw [hp]; rfl)
      apply remaining_lt_of_access ha (r := 2) (by rw [reach, hp]; rfl) <;> simp only [access, hp]
      exact fun _ => le_rfl
    | ll m => exact h.remaining_lt_ll hn hp
    | sc m count => exact h.remaining_lt_sc h' hc hp
    | reset m =>
      -- the release begins the next round
      have hlast := h.last c.1 m hp c.1
      have ht : (next k s c).task c.1 = (s.task c.1).ret 0 := by
        rw [next_task_self]
        simp only [access, hp]
      have hsame := h'.arrivals_of_not_arrived (t := c.1) (by rw [ht]; rfl)
      rw [Task.arrivals, hp] at hlast
      rw [ht] at hsame
      replace hsame : (s.task c.1).rets + 1 = e := hsame
      replace hlast : (s.task c.1).rets + 1 = e + 1 := hlast
      omega
    | spin m =>
      have hfull : s.mem.val k.pcount = m := by
        by_contra hne
        rw [Idle, hp] at hi
        exact hi hne
      have ha := h.arrivals_of_full hv (hfull.trans (h.spin_eq hp)) c.1
      apply remaining_lt_of_access ha (r := 4) (by rw [reach, hp]; rfl) <;>
        simp only [access, hp, hfull, ne_eq, not_true_eq_false, ↓reduceIte]
      exact fun _ => le_rfl
    | start | initLl | initSc | initStore | trapped =>
      rw [hp] at hw
      cases hw
  · exact .inl h'

end Progress

/-! ### Runs -/

/-- Every task has its turn again and again, and a store-conditional fails
only if the word was written since. -/
structure Fair (c : ℕ → Fin n × Bool) : Prop where
  turns : ∀ t i, ∃ j, i ≤ j ∧ (c j).1 = t
  sc : ∀ i, (c i).2 = true

theorem next_of_idle (hi : Idle k s c.1) : next k s c = s := by
  unfold Idle at hi
  split at hi
  · next m hp => exact next_of_waiting hp hi
  · exact hi.elim

/-- Tasks that wait or are between two calls stay so. -/
theorem waits_next (hk : k.index < maxBarrierCount) (h : Inv k s e) (hn : n < 2 ^ 31)
    (hw : ∀ t, (s.task t).pc.waits = true) (c : Fin n × Bool) (u : Fin n) : ((next k s c).task u).pc.waits = true := by
  have hk' : ¬ k.index ≥ maxBarrierCount := by omega
  by_cases hu : u = c.1
  · subst hu
    rw [next_task_self]
    unfold access
    have ht := hw c.1
    cases hp : (s.task c.1).pc <;> rw [hp] at ht <;> simp only [if_neg hk', if_neg (h.ne_intMin hn)]
    case sc m count => split_ifs <;> rfl
    case spin m =>
      split_ifs
      · rw [hp]
        rfl
      · rfl
    all_goals first | rfl | cases ht
  · rw [next_task_of_ne k hu]
    exact hw u

/-! ### A round ends, or all wait -/

section Runs

variable {c : ℕ → Fin n × Bool}

theorem run_of_idle {i : ℕ} : ∀ {d : ℕ}, (∀ d' < d, Idle k (run k s c i) (c (i + d')).1) →
    run k s c (i + d) = run k s c i
  | 0, _ => rfl
  | d + 1, h => by
    have ih : run k s c (i + d) = run k s c i := run_of_idle fun d' hd => h d' (Nat.lt_succ_of_lt hd)
    show next k (run k s c (i + d)) (c (i + d)) = run k s c i
    rw [ih]
    exact next_of_idle (h d (Nat.lt_succ_self d))

/-- If not all wait in vain, one that does not has its turn before anything changes. -/
theorem exists_move (hc : Fair c) {i : ℕ} (h : ¬ Stuck k (run k s c i)) :
    ∃ j, i ≤ j ∧ run k s c j = run k s c i ∧ ¬ Idle k (run k s c i) (c j).1 := by
  classical
  obtain ⟨t, ht⟩ : ∃ t, ¬ Idle k (run k s c i) t := not_forall.mp h
  have hex : ∃ d, ¬ Idle k (run k s c i) (c (i + d)).1 := by
    obtain ⟨j, hij, hj⟩ := hc.turns t i
    obtain ⟨d, rfl⟩ := Nat.exists_eq_add_of_le hij
    exact ⟨d, hj ▸ ht⟩
  refine ⟨i + Nat.find hex, Nat.le_add_right _ _, run_of_idle fun d hd => ?_, Nat.find_spec hex⟩
  exact not_not.mp (Nat.find_min hex hd)

theorem Stuck.run_add {i : ℕ} (h : Stuck k (run k s c i)) (d : ℕ) : run k s c (i + d) = run k s c i :=
  run_of_idle fun d' _ => h (c (i + d')).1

variable (hk : k.index < maxBarrierCount) (hv : k.value.toNat = n) (hs : Ready k s)

include hk hv hs

theorem noneLate_run (hc : ∀ i, ¬ Overtakes k (run k s c i) (c i)) (i : ℕ) : NoneLate k (run k s c i) := by
  induction i with
  | zero => exact fun hlow => absurd hs.count hlow
  | succ i ih =>
    obtain ⟨e, he⟩ := inv_run hk hv hs c i
    exact noneLate_next hk hv he ih (hc i)

variable (hn : n < 2 ^ 31)

include hn

theorem waits_run (i : ℕ) (t : Fin n) : ((run k s c i).task t).pc.waits = true := by
  induction i generalizing t with
  | zero =>
    show (s.task t).pc.waits = true
    rw [hs.outside t]
    rfl
  | succ i ih =>
    obtain ⟨e, he⟩ := inv_run hk hv hs c i
    exact waits_next hk he hn ih (c i) t

/-- A round ends, or all tasks wait for a count that does not come. -/
theorem round_or_stuck (hc : Fair c) (e : ℕ) : Temporal.LeadsTo (fun i => Inv k (run k s c i) e)
    (fun i => Inv k (run k s c i) (e + 1) ∨ Stuck k (run k s c i)) := by
  apply Temporal.LeadsTo.of_measure fun i => remaining k e (run k s c i)
  intro i hi
  by_cases hst : Stuck k (run k s c i)
  · exact ⟨i, le_rfl, .inl (.inr hst)⟩
  · obtain ⟨j, hij, hj, hidle⟩ := exists_move hc hst
    rw [← hj] at hi hidle
    refine ⟨j + 1, by omega, ?_⟩
    rw [← hj]
    rcases hi.progress hk hv hn (waits_run hk hv hs hn j (c j).1) (hc.sc j) hidle with h | h
    · exact .inl (.inl h)
    · exact .inr h

/-- Without overtaking, round after round ends. -/
theorem exists_round (hc : Fair c) (ho : ∀ i, ¬ Overtakes k (run k s c i) (c i)) {i e : ℕ}
    (h : Inv k (run k s c i) e) (d : ℕ) : ∃ j, i ≤ j ∧ Inv k (run k s c j) (e + d) := by
  induction d with
  | zero => exact ⟨i, le_rfl, h⟩
  | succ d ih =>
    obtain ⟨j, hij, hj⟩ := ih
    obtain ⟨l, hjl, hl | hl⟩ := round_or_stuck hk hv hs hn hc (e + d) j hj
    · exact ⟨l, hij.trans hjl, hl⟩
    · have hpos : 0 < n := lt_of_le_of_lt (Nat.zero_le _) (c 0).1.isLt
      obtain ⟨e', he'⟩ := inv_run hk hv hs c l
      exact absurd hl (not_stuck hv hpos he' (noneLate_run hk hv hs ho l))

end Runs

/-! ### A task that is overtaken -/

/-- Task `u` of the round before waits for the count to be written back, and
the others have begun to decrement it. -/
structure Held (k : Args) (e : ℕ) (u : Fin n) (s : State n) : Prop where
  inv : Inv k s e
  spins : (s.task u).pc.spinning = true
  late : (s.task u).arrivals = e
  low : s.mem.val k.pcount ≠ k.value

theorem Held.idle {u : Fin n} (h : Held k e u s) : Idle k s u := by
  have hspins := h.spins
  cases hp : (s.task u).pc <;> rw [hp] at hspins <;> try cases hspins
  rw [Idle, hp, h.inv.spin_eq hp]
  exact h.low

/-- A round in which a task has arrived has a low count. -/
theorem Inv.low_of_arrived (hv : k.value.toNat = n) (h : Inv k s e) {w : Fin n} (hw : (s.task w).arrivals = e + 1) :
    s.mem.val k.pcount ≠ k.value := fun hfull => by
  have := h.arrivals_of_full hv hfull w
  omega

theorem arrivals_le_next (hk : k.index < maxBarrierCount) (c : Fin n × Bool) (w : Fin n) :
    (s.task w).arrivals ≤ ((next k s c).task w).arrivals := by
  by_cases hw : w = c.1
  · subst hw
    rw [Task.arrivals, Task.arrivals]
    cases move_next hk s c with
    | goesOn pc rets val =>
      rcases pc with pc | ⟨h1, h2, -⟩
      · rw [pc, rets]
      · rw [h1, h2, rets]
    | arrives m count pc ok pc' rets mem =>
      rw [pc, rets]
      exact Nat.le_add_right _ _
    | releases m pc pc' rets mem => rw [pc, pc', rets]; rfl
    | leaves m pc pc' rets val mem => rw [pc, pc', rets]; rfl
    | claims pc ok pc' rets mem => rw [pc, pc', rets]; rfl
    | fills pc pc' rets mem => rw [pc, pc', rets]; rfl
  · rw [next_task_of_ne k hw]

/-- **An overtaken task is held, and with it the round.** -/
theorem held_next (hk : k.index < maxBarrierCount) (hv : k.value.toNat = n) {u : Fin n} (h : Held k e u s)
    (c : Fin n × Bool) : Held k e u (next k s c) := by
  by_cases hu : u = c.1
  · rw [next_of_idle (hu ▸ h.idle)]
    exact h
  · have ht : (next k s c).task u = s.task u := next_task_of_ne k hu
    obtain ⟨w, hw⟩ := h.inv.exists_arrived hv h.low
    rcases inv_next hk hv h.inv c with h' | h'
    · refine ⟨h', by rw [ht]; exact h.spins, by rw [ht]; exact h.late, h'.low_of_arrived hv (w := w) ?_⟩
      have hle := arrivals_le_next (s := s) hk c w
      have hle' := h'.arrivals_le w
      omega
    · have hround := h'.round u
      rw [ht, h.late] at hround
      omega

theorem Overtakes.held (hk : k.index < maxBarrierCount) (hv : k.value.toNat = n) (h : Inv k s e)
    (ho : Overtakes k s c) : ∃ u, Held k e u (next k s c) := by
  unfold Overtakes at ho
  split at ho
  · next m count hp =>
    obtain ⟨hs, hfull, u, hu⟩ := ho
    have hkn := h.knows c.1
    rw [hp] at hkn
    have hall := h.arrivals_of_full hv (hfull.trans hkn.1)
    have hne : u ≠ c.1 := by
      rintro rfl
      rw [hp] at hu
      cases hu
    have ht : (next k s c).task u = s.task u := next_task_of_ne k hne
    have harr : ((next k s c).task c.1).arrivals = e + 1 := by rw [arrivals_of_succeeds hp hs, hall]
    rcases inv_next hk hv h c with h' | h'
    · exact ⟨u, h', by rw [ht]; exact hu, by rw [ht]; exact hall u, h'.low_of_arrived hv harr⟩
    · have hround := h'.round u
      rw [ht, hall u] at hround
      omega
  · exact ho.elim

theorem held_run (hk : k.index < maxBarrierCount) (hv : k.value.toNat = n) {u : Fin n} {c : ℕ → Fin n × Bool} {i : ℕ}
    (h : Held k e u (run k s c i)) (d : ℕ) : Held k e u (run k s c (i + d)) := by
  induction d with
  | zero => exact h
  | succ d ih => exact held_next hk hv ih (c (i + d))

/-- **A fair run is live if and only if nobody is overtaken.** For any number
of tasks on an initialised barrier: every task returns from its waits again
and again if and only if no task ever decrements the count just written back
while another has still to see it. -/
theorem live_iff_not_overtakes (hk : k.index < maxBarrierCount) (hv : k.value.toNat = n) (hn : n < 2 ^ 31)
    (hs : Ready k s) {c : ℕ → Fin n × Bool} (hc : Fair c) :
    (∀ r i, ∃ j, i ≤ j ∧ ∀ t, r ≤ ((run k s c j).task t).rets) ↔ ∀ i, ¬ Overtakes k (run k s c i) (c i) := by
  constructor
  · intro hlive i ho
    obtain ⟨e, he⟩ := inv_run hk hv hs c i
    obtain ⟨u, hu⟩ := Overtakes.held hk hv he ho
    obtain ⟨j, hij, hj⟩ := hlive (e + 1) (i + 1)
    obtain ⟨d, rfl⟩ := Nat.exists_eq_add_of_le hij
    have hheld : Held k e u (run k s c (i + 1 + d)) := held_run hk hv hu d
    have hle := hheld.inv.rets_le u
    have hge := hj u
    omega
  · intro ho r i
    obtain ⟨e, he⟩ := inv_run hk hv hs c i
    obtain ⟨j, hij, hj⟩ := exists_round hk hv hs hn hc ho he (r + 1)
    refine ⟨j, hij, fun t => ?_⟩
    have hround := hj.round t
    have hle : ((run k s c j).task t).arrivals ≤ ((run k s c j).task t).rets + 1 :=
      Nat.add_le_add_left (Bool.toNat_le _) _
    omega

/-- **Overtaking stops the barrier for good.** A fair run ends with all tasks
waiting for ever if and only if at some time one is overtaken. -/
theorem stops_iff_overtakes (hk : k.index < maxBarrierCount) (hv : k.value.toNat = n) (hn : n < 2 ^ 31)
    (hs : Ready k s) {c : ℕ → Fin n × Bool} (hc : Fair c) :
    (∃ i, ∀ j, i ≤ j → Stuck k (run k s c j)) ↔ ∃ i, Overtakes k (run k s c i) (c i) := by
  constructor
  · rintro ⟨i, hi⟩
    by_contra hno
    obtain ⟨e, he⟩ := inv_run hk hv hs c i
    have hpos : 0 < n := lt_of_le_of_lt (Nat.zero_le _) (c 0).1.isLt
    exact not_stuck hv hpos he (noneLate_run hk hv hs (not_exists.mp hno) i) (hi i le_rfl)
  · rintro ⟨i, ho⟩
    obtain ⟨e, he⟩ := inv_run hk hv hs c i
    obtain ⟨u, hu⟩ := Overtakes.held hk hv he ho
    replace hu : Held k e u (run k s c (i + 1)) := hu
    obtain ⟨j, hij, hj | hj⟩ := round_or_stuck hk hv hs hn hc e (i + 1) hu.inv
    · obtain ⟨d, rfl⟩ := Nat.exists_eq_add_of_le hij
      have hlate := (held_run hk hv hu d).late
      have hround := hj.round u
      omega
    · refine ⟨j, fun l hjl => ?_⟩
      obtain ⟨d, rfl⟩ := Nat.exists_eq_add_of_le hjl
      rw [hj.run_add d]
      exact hj

/-- The schedule `overtaking`, and then the tasks in turn. -/
def overtakingFair (i : ℕ) : Fin 2 × Bool :=
  (if i < 4 then ⟨0, Nat.zero_lt_two⟩ else if i < 13 then ⟨1, Nat.one_lt_two⟩ else ⟨i % 2, Nat.mod_lt i Nat.zero_lt_two⟩, true)

theorem fair_overtakingFair : Fair overtakingFair where
  turns t i := by
    refine ⟨2 * (i + 13) + t, by omega, Fin.ext ?_⟩
    have ht := t.isLt
    simp only [overtakingFair]
    rw [if_neg (by omega), if_neg (by omega)]
    show (2 * (i + 13) + t.val) % 2 = t.val
    omega
  sc _ := rfl

/-- Task 1 decrements the count it has written back. -/
theorem overtakes_overtakingFair : Overtakes ⟨0, 2⟩ (run ⟨0, 2⟩ twoTasks overtakingFair 12) (overtakingFair 12) := by
  decide

/-- The tasks do not return again and again. -/
theorem not_live_overtakingFair :
    ¬ ∀ r i, ∃ j, i ≤ j ∧ ∀ t, r ≤ ((run ⟨0, 2⟩ twoTasks overtakingFair j).task t).rets := fun hlive =>
  (live_iff_not_overtakes (n := 2) (by decide) rfl (by decide) ready_twoTasks fair_overtakingFair).mp hlive 12
    overtakes_overtakingFair

/-- They wait for ever. -/
theorem stops_overtakingFair : ∃ i, ∀ j, i ≤ j → Stuck ⟨0, 2⟩ (run ⟨0, 2⟩ twoTasks overtakingFair j) :=
  (stops_iff_overtakes (by decide) rfl (by decide) ready_twoTasks fair_overtakingFair).mpr
    ⟨12, overtakes_overtakingFair⟩

end Barrier
end Giet
end Smc
