/-
# The transaction counters of the bus

`r_vci_counter[i][j]` is meant to count the transactions from initiator `i` to
target `j`: it is incremented where the bus is allocated. That is done in two
places, the loop of `IDLE` and the loop of `RSP`; but what the loop of `RSP`
allocates is dropped, as the automaton goes to `IDLE` and allocates again. A
request that is there when a response ends is counted by the loop of `RSP`, and
whoever gets the bus in `IDLE` is counted once more (`counted_twice`).

The counters are exact as long as no response ends while an initiator asks,
and wrong in the cycle after the first that does (`exact_iff_quietEnds`).

Key definitions: `entered`, `completed`, `Exact`, `QuietEnds`.
Key theorems: `entered_eq_completed`, `counter_succ`, `exact_iff_quietEnds`.
-/
import Smc.Tp2.VgsbArbitration

namespace Smc
namespace Tp2
namespace VciVgsb

variable (k : VciVgsb)

/-! ### Counting transactions -/

/-- The command phase of a transaction from `i` to `j` begins between two
cycles. -/
def Enters (s s' : Regs) (i j : ℕ) : Prop :=
  s.rFsm ≠ .cmd ∧ s'.rFsm = .cmd ∧ s'.rInitiatorIndex = i ∧ s'.rTargetIndex = j

/-- A transaction from `i` to `j` is complete in this cycle. -/
def Completes (s : Regs) (p : Ports) (i j : ℕ) : Prop :=
  s.rFsm = .rsp ∧ rspEnds s p = true ∧ s.rInitiatorIndex = i ∧ s.rTargetIndex = j

/-- The bus is in a transaction from `i` to `j`. -/
def UnderWay (s : Regs) (i j : ℕ) : Prop := s.rFsm ≠ .idle ∧ s.rInitiatorIndex = i ∧ s.rTargetIndex = j

/-- The loop of `RSP` allocates the bus to `i` and `j`, which the assignment
after it undoes. -/
def Dropped (s : Regs) (p : Ports) (i j : ℕ) : Prop :=
  s.rFsm = .rsp ∧ rspEnds s p = true ∧ k.arbitrate s.rInitiatorIndex p = some i ∧
    k.route (p.initiator i).cmdFlit.address = j

instance (s s' : Regs) (i j : ℕ) : Decidable (Enters s s' i j) := by unfold Enters; infer_instance

instance (s : Regs) (p : Ports) (i j : ℕ) : Decidable (Completes s p i j) := by unfold Completes; infer_instance

instance (s : Regs) (i j : ℕ) : Decidable (UnderWay s i j) := by unfold UnderWay; infer_instance

instance (s : Regs) (p : Ports) (i j : ℕ) : Decidable (k.Dropped s p i j) := by unfold Dropped; infer_instance

/-- The transactions from `i` to `j` begun in the cycles before `t`. -/
def entered (b : Bus) (p : ℕ → Ports) (i j t : ℕ) : ℕ :=
  ∑ x ∈ Finset.range t, if Enters (k.run b p x).regs (k.run b p (x + 1)).regs i j then 1 else 0

/-- The transactions from `i` to `j` complete in the cycles before `t`. -/
def completed (b : Bus) (p : ℕ → Ports) (i j t : ℕ) : ℕ :=
  ∑ x ∈ Finset.range t, if Completes (k.run b p x).regs (p x) i j then 1 else 0

/-- The counters at cycle `t`: the transactions complete, and the one under
way. -/
def Exact (b : Bus) (p : ℕ → Ports) (t : ℕ) : Prop :=
  ∀ i < k.mNbInitiator, ∀ j < k.mNbTarget, ((k.run b p t).regs.rVciCounter i j).toNat =
    k.completed b p i j t + if UnderWay (k.run b p t).regs i j then 1 else 0

/-- In the cycles before `n`, no response ends while an initiator asks. -/
def QuietEnds (b : Bus) (p : ℕ → Ports) (n : ℕ) : Prop :=
  ∀ t < n, (k.run b p t).regs.rFsm = .rsp → rspEnds (k.run b p t).regs (p t) = true →
    ∀ i < k.mNbInitiator, ((p t).initiator i).cmdval = false

/-! ### Where they fail -/

/-- Both initiators ask all the time: when the first response ends, the counter
of initiator 0 is one, although only initiator 1 has had the bus. -/
theorem counted_twice : (∀ t, twoOnOne.Hold (twoOnOne.run anyBus (fun _ => allAsk) t) allAsk allAsk) ∧
    twoOnOne.entered anyBus (fun _ => allAsk) 0 0 3 = 0 ∧
    ((twoOnOne.run anyBus (fun _ => allAsk) 3).regs.rVciCounter 0 0) = 1 ∧
    ¬ twoOnOne.Exact anyBus (fun _ => allAsk) 3 := by
  refine ⟨fun _ _ _ _ _ => ⟨rfl, rfl⟩, by decide, by decide, fun h => ?_⟩
  have h0 := h 0 (by decide) 0 (by decide)
  revert h0
  decide

/-! ### One cycle -/

section Step

variable {k} {s : Regs} {p : Ports}

theorem not_enters_of_idle {s' : Regs} (h : s'.rFsm = .idle) (i j : ℕ) : ¬ Enters s s' i j := by
  rintro ⟨-, h', -⟩
  rw [h] at h'
  cases h'

/-- What an edge does to a counter. -/
theorem counter_transition (i j : ℕ) : (k.transition true s p).rVciCounter i j =
    s.rVciCounter i j + (if Enters s (k.transition true s p) i j then 1 else 0) +
      (if k.Dropped s p i j then 1 else 0) := by
  cases hf : s.rFsm with
  | idle =>
    have hd : ¬ k.Dropped s p i j := fun h => by rw [Dropped, hf] at h; cases h.1
    rw [if_neg hd]
    rcases k.transition_idle (p := p) hf with ⟨m, -, ht⟩ | ⟨-, ht⟩
    · have he : Enters s (k.transition true s p) i j ↔
          i = m ∧ j = k.route (p.initiator m).cmdFlit.address := by
        rw [ht]
        simp [Enters, grant, hf, eq_comm]
      by_cases hij : i = m ∧ j = k.route (p.initiator m).cmdFlit.address
      · rw [if_pos (he.mpr hij), ht]
        simp [grant, hij]
      · rw [if_neg (fun h => hij (he.mp h)), ht]
        simp [grant, hij]
    · rw [ht, if_neg (not_enters_of_idle hf i j)]
      simp
  | cmd =>
    have hd : ¬ k.Dropped s p i j := fun h => by rw [Dropped, hf] at h; cases h.1
    have he : ¬ Enters s (k.transition true s p) i j := fun h => h.1 hf
    rw [if_neg he, if_neg hd, k.transition_cmd hf]
    split_ifs <;> simp
  | rsp =>
    rcases k.transition_rsp (p := p) hf with ⟨hend, ht⟩ | ⟨hend, ht⟩
    · have he : ¬ Enters s (k.transition true s p) i j := not_enters_of_idle (by rw [ht]) i j
      rw [if_neg he, ht]
      cases ha : k.arbitrate s.rInitiatorIndex p with
      | none => simp [Dropped, ha]
      | some m =>
        have hd : k.Dropped s p i j ↔ i = m ∧ j = k.route (p.initiator m).cmdFlit.address := by
          simp only [Dropped, hf, hend, ha, true_and, Option.some.injEq]
          constructor
          · rintro ⟨rfl, rfl⟩
            exact ⟨rfl, rfl⟩
          · rintro ⟨rfl, rfl⟩
            exact ⟨rfl, rfl⟩
        by_cases hij : i = m ∧ j = k.route (p.initiator m).cmdFlit.address
        · rw [if_pos (hd.mpr hij)]
          simp [grant, hij]
        · rw [if_neg (fun h => hij (hd.mp h))]
          simp [grant, hij]
    · have he : ¬ Enters s (k.transition true s p) i j := by
        rintro ⟨-, h, -⟩
        rw [ht, hf] at h
        cases h
      have hd : ¬ k.Dropped s p i j := fun h => by rw [Dropped, hend] at h; cases h.2.1
      rw [if_neg he, if_neg hd, ht]
      simp

/-- A transaction is under way from its beginning to its completion. -/
theorem underWay_transition (i j : ℕ) :
    (if UnderWay s i j then 1 else 0) + (if Enters s (k.transition true s p) i j then 1 else 0) =
      (if Completes s p i j then 1 else 0) + (if UnderWay (k.transition true s p) i j then 1 else 0) := by
  cases hf : s.rFsm with
  | idle =>
    rcases k.transition_idle (p := p) hf with ⟨m, -, ht⟩ | ⟨-, ht⟩ <;> rw [ht] <;>
      simp [UnderWay, Enters, Completes, hf, grant]
  | cmd =>
    rw [k.transition_cmd hf]
    split_ifs <;> simp_all [UnderWay, Enters, Completes]
  | rsp =>
    rcases k.transition_rsp (p := p) hf with ⟨hend, ht⟩ | ⟨hend, ht⟩ <;> rw [ht] <;>
      simp [UnderWay, Enters, Completes, hf, hend]

end Step

/-! ### Runs -/

section Runs

variable {k} {b : Bus} {p : ℕ → Ports}

/-- What was begun is complete, or under way. -/
theorem entered_eq_completed (i j t : ℕ) :
    k.entered b p i j t = k.completed b p i j t + if UnderWay (k.run b p t).regs i j then 1 else 0 := by
  induction t with
  | zero =>
    have h0 : ¬ UnderWay (k.run b p 0).regs i j := fun h => h.1 rfl
    rw [if_neg h0]
    rfl
  | succ t ih =>
    have hstep := underWay_transition (k := k) (s := (k.run b p t).regs) (p := p t) i j
    have hnext : k.transition true (k.run b p t).regs (p t) = (k.run b p (t + 1)).regs := rfl
    rw [hnext] at hstep
    rw [entered, completed, Finset.sum_range_succ, Finset.sum_range_succ, ← entered, ← completed, ih]
    omega

theorem counter_succ (i j t : ℕ) : (k.run b p (t + 1)).regs.rVciCounter i j =
    (k.run b p t).regs.rVciCounter i j +
      (if Enters (k.run b p t).regs (k.run b p (t + 1)).regs i j then 1 else 0) +
      (if k.Dropped (k.run b p t).regs (p t) i j then 1 else 0) :=
  counter_transition i j

theorem not_dropped_of_quiet {t : ℕ} (hq : (k.run b p t).regs.rFsm = .rsp →
    rspEnds (k.run b p t).regs (p t) = true → ∀ i < k.mNbInitiator, ((p t).initiator i).cmdval = false)
    (i j : ℕ) : ¬ k.Dropped (k.run b p t).regs (p t) i j := by
  rintro ⟨hf, hend, ha, -⟩
  obtain ⟨hlt, hval⟩ := k.arbitrate_lt ha
  rw [hq hf hend i hlt] at hval
  cases hval

/-- In a run with quiet ends a counter is the number of transactions begun. -/
theorem counter_of_quietEnds {n : ℕ} (hq : k.QuietEnds b p n) {i j : ℕ} (hi : i < k.mNbInitiator)
    (hj : j < k.mNbTarget) : ∀ t ≤ n,
      (k.run b p t).regs.rVciCounter i j = BitVec.ofNat 32 (k.entered b p i j t) := by
  intro t
  induction t with
  | zero =>
    intro _
    show (if i < k.mNbInitiator ∧ j < k.mNbTarget then (0 : BitVec 32) else _) = 0
    rw [if_pos ⟨hi, hj⟩]
  | succ t ih =>
    intro hn
    have hd := not_dropped_of_quiet (hq t (by omega)) i j
    rw [counter_succ, ih (by omega), if_neg hd, entered, entered, Finset.sum_range_succ]
    split_ifs <;> simp [BitVec.ofNat_add]

theorem exact_iff_entered {t : ℕ} : k.Exact b p t ↔ ∀ i < k.mNbInitiator, ∀ j < k.mNbTarget,
    ((k.run b p t).regs.rVciCounter i j).toNat = k.entered b p i j t := by
  simp only [Exact, entered_eq_completed]

/-- A dropped allocation is in a counter that was exact: it no longer is. -/
theorem not_exact_succ {t i j : ℕ} (hi : i < k.mNbInitiator) (hj : j < k.mNbTarget)
    (hd : k.Dropped (k.run b p t).regs (p t) i j) (h : k.Exact b p t) : ¬ k.Exact b p (t + 1) := by
  intro h'
  have he : ¬ Enters (k.run b p t).regs (k.run b p (t + 1)).regs i j := by
    rcases k.transition_rsp (p := p t) hd.1 with ⟨-, ht⟩ | ⟨hend, -⟩
    · have hidle : (k.run b p (t + 1)).regs.rFsm = .idle := congrArg Regs.rFsm ht
      exact not_enters_of_idle hidle i j
    · rw [hd.2.1] at hend
      cases hend
  have hnew := exact_iff_entered.mp h' i hi j hj
  have hold := exact_iff_entered.mp h i hi j hj
  rw [counter_succ, if_neg he, if_pos hd, entered, Finset.sum_range_succ, if_neg he, ← entered, ← hold] at hnew
  simp only [Nat.add_zero] at hnew
  have := BitVec.eq_of_toNat_eq hnew
  simp at this

/-- **The counters are exact until a response ends while an initiator asks.**
For every run from reset, of fewer than `2 ^ 32` transactions for each pair in
its first `n` cycles, they are exact in all these cycles if and only if every
response in them ends while nobody asks. -/
theorem exact_iff_quietEnds {n : ℕ}
    (hn : ∀ i < k.mNbInitiator, ∀ j < k.mNbTarget, k.entered b p i j n < 2 ^ 32) :
    (∀ t ≤ n, k.Exact b p t) ↔ k.QuietEnds b p n := by
  constructor
  · intro h t ht hf hend i hi
    by_contra hval
    rw [Bool.not_eq_false] at hval
    have hr : (k.run b p t).regs.rInitiatorIndex < k.mNbInitiator := index_lt (by omega) t
    obtain ⟨m, hm⟩ := k.arbitrate_isSome hr hi hval
    exact not_exact_succ (k.arbitrate_lt hm).1 (k.route_lt _) ⟨hf, hend, hm, rfl⟩ (h t (by omega))
      (h (t + 1) (by omega))
  · intro hq t ht
    rw [exact_iff_entered]
    intro i hi j hj
    have hle : k.entered b p i j t ≤ k.entered b p i j n :=
      Finset.sum_le_sum_of_subset (Finset.range_subset_range.mpr ht)
    rw [counter_of_quietEnds hq hi hj t ht, BitVec.toNat_ofNat]
    exact Nat.mod_eq_of_lt (lt_of_le_of_lt hle (hn i hi j hj))

end Runs

/-- Initiator 0 asks until its command is taken, and nobody afterwards. -/
def asksOnce (t : ℕ) : Ports where
  initiator i := { allAsk.initiator i with cmdval := i = 0 ∧ t ≤ 1 }
  target := allAsk.target

/-- After its only transaction the counter of initiator 0 is one. -/
theorem exact_asksOnce : twoOnOne.QuietEnds anyBus asksOnce 3 ∧ twoOnOne.Exact anyBus asksOnce 3 ∧
    ((twoOnOne.run anyBus asksOnce 3).regs.rVciCounter 0 0) = 1 := by
  have hn : ∀ i < 2, ∀ j < 1, twoOnOne.entered anyBus asksOnce i j 3 < 2 ^ 32 := by decide
  have hq : twoOnOne.QuietEnds anyBus asksOnce 3 := by
    unfold QuietEnds
    decide
  exact ⟨hq, (exact_iff_quietEnds hn).mpr hq 3 le_rfl, by decide⟩

end VciVgsb
end Tp2
end Smc
