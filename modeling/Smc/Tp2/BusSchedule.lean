/-
# The order of the transactions on the parallel platform

The arbitration of the bus moves its priority twice for a transaction, once in
`RSP` and once in `IDLE`. With three masters or more this fixes the order of
all transactions, whatever the masters draw and however long the coprocessors
subtract: a master asks again before its turn could come (`Crowded`), so both
loops find the next initiator at their first look, and the bus serves every
second initiator, `1, 3, 5, …` modulo their number, three cycles each
(`served_in_turn`).

With an odd number of masters every master is served once in as many
transactions as there are masters; with an even number the masters of even
index are never served, and wait with their first command for ever
(`even_starves`).

Key definitions: `Crowded`, `Serves`, `turn`.
Key theorems: `crowded_idle`, `served_in_turn`, `even_starves`.
-/
import Smc.Lib.RoundRobin
import Smc.Tp2.ParallelPlatform

namespace Smc
namespace Tp2

namespace VciVgsb

/-- An initiator that asks is found at the first look, if it is the next. -/
theorem arbitrate_next (k : VciVgsb) {r : ℕ} {p : Ports} (h0 : 0 < k.mNbInitiator)
    (h : (p.initiator ((r + 1) % k.mNbInitiator)).cmdval = true) :
    k.arbitrate r p = some ((r + 1) % k.mNbInitiator) := by
  rw [Nat.add_comm r 1] at h ⊢
  have hfind : ((List.range k.mNbInitiator).find? fun x =>
      (p.initiator ((x + 1 + r) % k.mNbInitiator)).cmdval) = some 0 := by
    rw [List.find?_range_eq_some]
    refine ⟨?_, List.mem_range.mpr h0, fun j hj => absurd hj (Nat.not_lt_zero j)⟩
    rwa [Nat.zero_add]
  rw [arbitrate, hfind, Option.map_some, Nat.zero_add]

end VciVgsb

namespace ParallelPlatform

open VciGcdCoprocessor (Refines Fault)
open VciGcdMaster (offered awaited)
open VciVgsb (Bus Ports driveTarget driveInitiator)

variable {n : ℕ} (k : ParallelPlatform n)

/-- The initiator that has the priority, `r_initiator_index`. -/
abbrev index (s : State n) : ℕ := s.bus.regs.rInitiatorIndex

/-- A master that does not ask: the one that is served, or that was served
last and displays or draws. -/
def Away (s : State n) (i : Fin n) : Prop :=
  match s.bus.regs.rFsm with
  | .idle => (i.val + 1) % n = index s ∧ (s.master i).rFsm = .display
  | .cmd => (i.val + 2) % n = index s ∧ (s.master i).rFsm = .random
  | .rsp => i.val = index s

/-- Every master asks, but for the one that is away. -/
def Crowded (s : State n) : Prop := ∀ i, (offered (s.master i)).isSome = true ∨ Away s i

/-! ### A master's cycle -/

section Master

variable {k} {s s' : State n} {rnd : Fin n → Data × Data}

theorem drives_cmdval (s : State n) (i : Fin n) :
    ((k.ports s).initiator i).cmdval = (offered (s.master i)).isSome := by
  rw [k.ports_initiator, drives, VciGcdMaster.genMoore_cmdval]

/-- A command is taken only from the initiator that is served. -/
theorem cmdack_eq_false (h : Inv s) {i : Fin n} (hne : ¬ (s.bus.regs.rFsm = .cmd ∧ i.val = index s)) :
    (driveInitiator s.bus (k.ports s) i).cmdack = false := by
  rw [(k.link h i).cmdack, decide_eq_false hne, Bool.false_and]

theorem Edge.offered_eq (h : Inv s) (he : k.Edge s s' rnd) {i : Fin n}
    (hne : ¬ (s.bus.regs.rFsm = .cmd ∧ i.val = index s)) (ho : (offered (s.master i)).isSome = true) :
    offered (s'.master i) = offered (s.master i) := by
  rw [he.master i]
  exact VciGcdMaster.offered_transition ho (cmdack_eq_false h hne)

theorem Edge.display (he : k.Edge s s' rnd) {i : Fin n} (hf : (s.master i).rFsm = .display) :
    (s'.master i).rFsm = .random := by
  rw [he.master i]
  simp [VciGcdMaster.transition, hf]

theorem Edge.random (he : k.Edge s s' rnd) {i : Fin n} (hf : (s.master i).rFsm = .random) :
    (s'.master i).rFsm = .cmdOpa ∧ (s'.master i).rOpa = (rnd i).1 ∧ (s'.master i).rOpb = (rnd i).2 := by
  rw [he.master i]
  simp [VciGcdMaster.transition, hf]

theorem offered_cmdOpa {m : VciGcdMaster.Regs} (hf : m.rFsm = .cmdOpa) : (offered m).isSome = true := by
  simp [VciGcdMaster.offered, hf]

/-- A master whose response is taken asks again, or displays. -/
theorem offered_or_display {m : VciGcdMaster.Regs} (hw : (awaited m).isSome = true) {o : TargetSignals}
    (hv : o.rspval = true) (r : Data × Data) : (offered (VciGcdMaster.transition true r m o)).isSome = true ∨
      (VciGcdMaster.transition true r m o).rFsm = .display := by
  unfold awaited at hw
  unfold offered VciGcdMaster.transition
  cases hf : m.rFsm <;> simp_all
  split_ifs <;> simp

end Master

/-! ### One cycle, by what the bus does -/

section Cycle

variable {k} {s s' : State n} {rnd : Fin n → Data × Data}

/-- A command is one flit, taken in its first cycle. -/
theorem cmdEnds_of_cmd (h : Inv s) (hf : s.bus.regs.rFsm = .cmd) :
    VciVgsb.cmdEnds s.bus.regs (k.ports s) = true := by
  obtain ⟨i, hi, ht, hof⟩ := h.cmd hf
  obtain ⟨σ, hr, hp⟩ := h.pair i
  have hnone : (awaited (s.master i)).isNone = true := by
    rw [Option.isNone_iff_eq_none, ← Option.not_isSome_iff_eq_none]
    intro haw
    have hrsp := (h.awaits i haw).1
    rw [hf] at hrsp
    cases hrsp
  rw [VciVgsb.cmdEnds, hi, ht, k.ports_initiator, k.ports_target, drives, VciGcdMaster.genMoore_eop,
    VciGcdMaster.genMoore_cmdval, hof, cmdack_eq_awaited_isNone hr hp, hnone]
  rfl

/-- A response is one flit, taken in its first cycle. -/
theorem rspEnds_of_rsp (h : Inv s) (hf : s.bus.regs.rFsm = .rsp) :
    VciVgsb.rspEnds s.bus.regs (k.ports s) = true := by
  obtain ⟨i, hi, ht, hwt⟩ := h.rsp hf
  obtain ⟨op, ho⟩ := Option.isSome_iff_exists.mp hwt
  obtain ⟨σ, hr, hp⟩ := h.pair i
  rw [VciVgsb.rspEnds, hi, ht, k.ports_initiator, k.ports_target, drives, VciGcdMaster.genMoore_rspack,
    VciGcdMaster.offered_isNone_of_awaited ho, rspval_eq_awaited_isSome hr hp, hwt,
    VciGcdCoprocessor.genMoore_reop]
  rfl

/-- The response reaches the master that awaits it. -/
theorem rspval_of_rsp (h : Inv s) (hf : s.bus.regs.rFsm = .rsp) {i : Fin n} (hi : i.val = index s) :
    (awaited (s.master i)).isSome = true ∧ (driveInitiator s.bus (k.ports s) i).rspval = true := by
  obtain ⟨j, hj, -, hwt⟩ := h.rsp hf
  obtain rfl : i = j := Fin.ext (hi.trans hj)
  obtain ⟨σ, hr, hp⟩ := h.pair i
  refine ⟨hwt, ?_⟩
  rw [(k.link h i).rspval, decide_eq_true ⟨hf, hi⟩, rspval_eq_awaited_isSome hr hp, hwt]
  rfl

theorem index_lt (h : Inv s) (hf : s.bus.regs.rFsm ≠ .idle) : index s < n := by
  cases hr : s.bus.regs.rFsm with
  | idle => exact absurd hr hf
  | cmd =>
    obtain ⟨i, hi, -⟩ := h.cmd hr
    exact lt_of_eq_of_lt hi i.isLt
  | rsp =>
    obtain ⟨i, hi, -⟩ := h.rsp hr
    exact lt_of_eq_of_lt hi i.isLt

/-- The first look of the arbitration, at the initiator after the index. -/
theorem arbitrate_succ (hn : 0 < n) (s : State n)
    (ho : (offered (s.master ⟨(index s + 1) % n, Nat.mod_lt _ hn⟩)).isSome = true) :
    k.bus.arbitrate (index s) (k.ports s) = some ((index s + 1) % n) := by
  have h := k.bus.arbitrate_next (r := index s) (p := k.ports s) (by rw [k.nbInitiator]; exact hn)
  rw [k.nbInitiator] at h
  apply h
  exact (drives_cmdval s ⟨(index s + 1) % n, Nat.mod_lt _ hn⟩).trans ho

/-- What the bus does in a cycle, by its state. -/
theorem bus_idle (he : k.Edge s s' rnd) (hf : s.bus.regs.rFsm = .idle) {j : ℕ}
    (harb : k.bus.arbitrate (index s) (k.ports s) = some j) : s'.bus.regs.rFsm = .cmd ∧ index s' = j := by
  have hbus : s'.bus.regs = k.bus.grant s.bus.regs (k.ports s) j := by
    rw [he.bus]
    rcases k.bus.transition_idle (p := k.ports s) hf with ⟨j', hj, ht⟩ | ⟨hj, -⟩
    · rw [harb, Option.some.injEq] at hj
      rw [ht, hj]
    · rw [harb] at hj
      cases hj
  exact ⟨by rw [hbus]; rfl, by rw [index, hbus]; rfl⟩

theorem bus_cmd (h : Inv s) (he : k.Edge s s' rnd) (hf : s.bus.regs.rFsm = .cmd) :
    s'.bus.regs.rFsm = .rsp ∧ index s' = index s := by
  have hbus : s'.bus.regs = { s.bus.regs with rFsm := .rsp } := by
    rw [he.bus, k.bus.transition_cmd hf, if_pos (cmdEnds_of_cmd h hf)]
  exact ⟨by rw [hbus], by rw [index, hbus]⟩

theorem bus_rsp (h : Inv s) (he : k.Edge s s' rnd) (hf : s.bus.regs.rFsm = .rsp) {j : ℕ}
    (harb : k.bus.arbitrate (index s) (k.ports s) = some j) : s'.bus.regs.rFsm = .idle ∧ index s' = j := by
  have hbus : s'.bus.regs = { k.bus.grant s.bus.regs (k.ports s) j with rFsm := .idle } := by
    rw [he.bus]
    rcases k.bus.transition_rsp (p := k.ports s) hf with ⟨-, ht⟩ | ⟨hr, -⟩
    · rw [ht, harb]
    · rw [rspEnds_of_rsp h hf] at hr
      cases hr
  exact ⟨by rw [hbus], by rw [index, hbus]; rfl⟩

/-- `IDLE` finds the next initiator: with three or more it is not the one that
was served last. -/
theorem crowded_idle (h3 : 3 ≤ n) (h : Inv s) (hc : Crowded s) (he : k.Edge s s' rnd)
    (hf : s.bus.regs.rFsm = .idle) :
    s'.bus.regs.rFsm = .cmd ∧ index s' = (index s + 1) % n ∧ Crowded s' := by
  have hnext : (offered (s.master ⟨(index s + 1) % n, Nat.mod_lt _ (by omega)⟩)).isSome = true := by
    rcases hc ⟨(index s + 1) % n, Nat.mod_lt _ (by omega)⟩ with ho | ha
    · exact ho
    · -- it would be two places after itself
      exfalso
      simp only [Away, hf] at ha
      have h1 := ha.1
      rw [Nat.mod_add_mod, Nat.add_assoc] at h1
      have hlt : index s < n := h1 ▸ Nat.mod_lt _ (by omega)
      exact RoundRobin.add_mod_ne hlt (by omega) (by omega) h1
  obtain ⟨hcmd, hidx⟩ := bus_idle he hf (arbitrate_succ (by omega) s hnext)
  refine ⟨hcmd, hidx, fun i => ?_⟩
  have hno : ¬ (s.bus.regs.rFsm = .cmd ∧ i.val = index s) := fun hh => by rw [hf] at hh; cases hh.1
  rcases hc i with ho | ha
  · left
    rw [he.offered_eq h hno ho]
    exact ho
  · right
    simp only [Away, hf] at ha
    simp only [Away, hcmd]
    refine ⟨?_, he.display ha.2⟩
    rw [hidx, ← ha.1, Nat.mod_add_mod]

/-- `CMD` ends at once. -/
theorem crowded_cmd (h : Inv s) (hc : Crowded s) (he : k.Edge s s' rnd) (hf : s.bus.regs.rFsm = .cmd) :
    s'.bus.regs.rFsm = .rsp ∧ index s' = index s ∧ Crowded s' := by
  obtain ⟨hrsp, hidx⟩ := bus_cmd h he hf
  refine ⟨hrsp, hidx, fun j => ?_⟩
  by_cases hj : j.val = index s
  · right
    simp only [Away, hrsp]
    rw [hidx, hj]
  · left
    rcases hc j with ho | ha
    · rw [he.offered_eq h (fun hh => hj hh.2) ho]
      exact ho
    · simp only [Away, hf] at ha
      exact offered_cmdOpa (he.random ha.2).1

/-- `RSP` ends at once, and moves the priority. -/
theorem crowded_rsp (h2 : 2 ≤ n) (h : Inv s) (hc : Crowded s) (he : k.Edge s s' rnd)
    (hf : s.bus.regs.rFsm = .rsp) :
    s'.bus.regs.rFsm = .idle ∧ index s' = (index s + 1) % n ∧ Crowded s' := by
  have hlt : index s < n := index_lt h (by rw [hf]; nofun)
  have hne : (index s + 1) % n ≠ index s := RoundRobin.add_mod_ne hlt (by omega) (by omega)
  have hnext : (offered (s.master ⟨(index s + 1) % n, Nat.mod_lt _ (by omega)⟩)).isSome = true := by
    rcases hc ⟨(index s + 1) % n, Nat.mod_lt _ (by omega)⟩ with ho | ha
    · exact ho
    · simp only [Away, hf] at ha
      exact absurd ha hne
  obtain ⟨hidle, hidx⟩ := bus_rsp h he hf (arbitrate_succ (by omega) s hnext)
  refine ⟨hidle, hidx, fun i => ?_⟩
  have hno : ¬ (s.bus.regs.rFsm = .cmd ∧ i.val = index s) := fun hh => by rw [hf] at hh; cases hh.1
  rcases hc i with ho | ha
  · left
    rw [he.offered_eq h hno ho]
    exact ho
  · -- the response of the master that is served
    simp only [Away, hf] at ha
    obtain ⟨hw, hv⟩ := rspval_of_rsp (k := k) h hf ha
    rw [he.master i]
    rcases offered_or_display hw hv (rnd i) with ho | hd
    · exact .inl ho
    · right
      rw [← he.master i] at hd
      simp only [Away, hidle]
      exact ⟨by rw [hidx, ha], hd⟩

end Cycle

/-! ### Runs from reset -/

/-- The states of a run from reset, each cycle an edge. -/
structure Trace (d : ℕ → Fin n → Data × Data) (st : ℕ → State n) : Prop where
  inv : ∀ t, Inv (st t)
  edge : ∀ t, k.Edge (st t) (st (t + 1)) (d t)
  idle : (st 0).bus.regs.rFsm = .idle
  index_zero : index (st 0) = 0
  random : ∀ i, ((st 0).master i).rFsm = .random

theorem exists_trace (s : State n) (rnd : Fin n → Data × Data) (o : Fin n → TargetSignals) (p : Ports)
    (d : ℕ → Fin n → Data × Data) :
    ∃ st : ℕ → State n, (∀ t, k.run s rnd o p d t = .ok (st t)) ∧ k.Trace d st := by
  have hrun : ∀ t, ∃ x, k.run s rnd o p d t = .ok x ∧ Inv x :=
    Clocked.runE_inv (fun _ => Inv) (k.inv_reset s rnd o p) fun t x _ hx => inv_cycle hx (d t)
  choose st hst hinv using hrun
  have h0 : k.reset s rnd o p = st 0 := Except.ok.inj (hst 0)
  refine ⟨st, hst, hinv, fun t => ?_, ?_, ?_, fun i => ?_⟩
  · obtain ⟨s', he⟩ := exists_edge (k := k) (hinv t) (d t)
    have hnext : k.run s rnd o p d (t + 1) = .ok s' := (Clocked.runE_succ (hst t)).trans he.ok
    obtain rfl : st (t + 1) = s' := Except.ok.inj ((hst (t + 1)).symm.trans hnext)
    exact he
  · rw [← h0]; rfl
  · rw [← h0]; rfl
  · rw [← h0]; rfl

/-- The initiator of transaction `q`. -/
def turn (n q : ℕ) : ℕ := (2 * q + 1) % n

/-- The three cycles of transaction `q`, which is that of initiator `j`. -/
structure Serves (st : ℕ → State n) (q j : ℕ) : Prop where
  idle : (st (3 * q + 1)).bus.regs.rFsm = .idle
  cmd : (st (3 * q + 2)).bus.regs.rFsm = .cmd ∧ index (st (3 * q + 2)) = j
  rsp : (st (3 * q + 3)).bus.regs.rFsm = .rsp ∧ index (st (3 * q + 3)) = j

/-- No command of another initiator is taken in the transaction of `j`. -/
theorem Serves.not_cmd_of_ne {st : ℕ → State n} {q i j r : ℕ} (h : Serves st q j) (hr : r < 3) (hne : i ≠ j) :
    ¬ ((st (3 * q + 1 + r)).bus.regs.rFsm = .cmd ∧ i = index (st (3 * q + 1 + r))) := by
  rintro ⟨hf, hidx⟩
  rcases (by omega : r = 0 ∨ r = 1 ∨ r = 2) with rfl | rfl | rfl
  · rw [Nat.add_zero, h.idle] at hf
    cases hf
  · exact hne (hidx.trans h.cmd.2)
  · rw [h.rsp.1] at hf
    cases hf

section Trace

variable {k} {d : ℕ → Fin n → Data × Data} {st : ℕ → State n}

/-- In the first cycle every master draws, and the bus finds nobody. -/
theorem Trace.first (tr : k.Trace d st) : (st 1).bus.regs.rFsm = .idle ∧ index (st 1) = 0 ∧ Crowded (st 1) := by
  have he := tr.edge 0
  have hquiet : k.bus.arbitrate (index (st 0)) (k.ports (st 0)) = none := by
    cases harb : k.bus.arbitrate (index (st 0)) (k.ports (st 0)) with
    | none => rfl
    | some j =>
      obtain ⟨hj, hval⟩ := k.bus.arbitrate_lt harb
      rw [k.nbInitiator] at hj
      have hask := (drives_cmdval (k := k) (st 0) ⟨j, hj⟩).symm.trans hval
      simp [VciGcdMaster.offered, tr.random] at hask
  have hbus : (st 1).bus.regs = (st 0).bus.regs := by
    rw [he.bus]
    rcases k.bus.transition_idle (p := k.ports (st 0)) tr.idle with ⟨j, hj, -⟩ | ⟨-, ht⟩
    · rw [hquiet] at hj
      cases hj
    · exact ht
  refine ⟨by rw [hbus]; exact tr.idle, by rw [index, hbus]; exact tr.index_zero, fun i => .inl ?_⟩
  exact offered_cmdOpa (he.random (tr.random i)).1

/-- One transaction, from one `IDLE` to the next. -/
theorem Trace.transaction (h3 : 3 ≤ n) (tr : k.Trace d st) {t : ℕ} (hf : (st t).bus.regs.rFsm = .idle)
    (hc : Crowded (st t)) :
    ((st (t + 1)).bus.regs.rFsm = .cmd ∧ index (st (t + 1)) = (index (st t) + 1) % n) ∧
      ((st (t + 2)).bus.regs.rFsm = .rsp ∧ index (st (t + 2)) = (index (st t) + 1) % n) ∧
      ((st (t + 3)).bus.regs.rFsm = .idle ∧ index (st (t + 3)) = (index (st t) + 2) % n ∧ Crowded (st (t + 3))) := by
  obtain ⟨f1, i1, c1⟩ := crowded_idle h3 (tr.inv t) hc (tr.edge t) hf
  obtain ⟨f2, i2, c2⟩ := crowded_cmd (tr.inv (t + 1)) c1 (tr.edge (t + 1)) f1
  obtain ⟨f3, i3, c3⟩ := crowded_rsp (by omega) (tr.inv (t + 2)) c2 (tr.edge (t + 2)) f2
  refine ⟨⟨f1, i1⟩, ⟨f2, i2.trans i1⟩, f3, ?_, c3⟩
  calc index (st (t + 3)) = (index (st (t + 2)) + 1) % n := i3
    _ = ((index (st t) + 1) % n + 1) % n := by rw [i2, i1]
    _ = (index (st t) + 2) % n := by rw [Nat.mod_add_mod]

theorem Trace.idle_at (h3 : 3 ≤ n) (tr : k.Trace d st) (q : ℕ) : (st (3 * q + 1)).bus.regs.rFsm = .idle ∧
    index (st (3 * q + 1)) = 2 * q % n ∧ Crowded (st (3 * q + 1)) := by
  induction q with
  | zero =>
    obtain ⟨hf, hi, hc⟩ := tr.first
    exact ⟨hf, by rw [Nat.mul_zero, Nat.zero_mod]; exact hi, hc⟩
  | succ q ih =>
    obtain ⟨hf, hi, hc⟩ := ih
    obtain ⟨-, -, hf', hi', hc'⟩ := tr.transaction h3 hf hc
    refine ⟨hf', ?_, hc'⟩
    calc index (st (3 * q + 1 + 3)) = (2 * q % n + 2) % n := by rw [hi', hi]
      _ = 2 * (q + 1) % n := by rw [Nat.mod_add_mod, Nat.mul_succ]

theorem Trace.inTurn (h3 : 3 ≤ n) (tr : k.Trace d st) (q : ℕ) : Serves st q (turn n q) := by
  obtain ⟨hf, hi, hc⟩ := tr.idle_at h3 q
  obtain ⟨hcmd, hrsp, -⟩ := tr.transaction h3 hf hc
  rw [hi, Nat.mod_add_mod] at hcmd hrsp
  exact ⟨hf, hcmd, hrsp⟩

/-- With an even number of masters, one of even index is never served. -/
theorem Trace.not_served (h3 : 3 ≤ n) (heven : n % 2 = 0) (tr : k.Trace d st) {i : Fin n} (hi : i.val % 2 = 0)
    (t : ℕ) : ¬ ((st t).bus.regs.rFsm = .cmd ∧ i.val = index (st t)) := by
  rintro ⟨hf, hidx⟩
  rcases Nat.eq_zero_or_pos t with rfl | ht
  · rw [tr.idle] at hf
    cases hf
  · obtain ⟨q, r, hr, rfl⟩ : ∃ q r, r < 3 ∧ t = 3 * q + 1 + r := ⟨(t - 1) / 3, (t - 1) % 3, by omega, by omega⟩
    exact (tr.inTurn h3 q).not_cmd_of_ne hr (RoundRobin.odd_mod_ne heven hi q).symm ⟨hf, hidx⟩

/-- A master that is never served keeps its first command. -/
theorem Trace.waits {i : Fin n} (tr : k.Trace d st)
    (hno : ∀ t, ¬ ((st t).bus.regs.rFsm = .cmd ∧ i.val = index (st t))) (t : ℕ) :
    ((st t).master i).rFsm = .random ∨ ((st t).master i).rFsm = .cmdOpa := by
  induction t with
  | zero => exact .inl (tr.random i)
  | succ t ih =>
    right
    rcases ih with hf | hf
    · exact ((tr.edge t).random hf).1
    · have hack := cmdack_eq_false (k := k) (tr.inv t) (hno t)
      rw [(tr.edge t).master i]
      simp [VciGcdMaster.transition, hf, hack]

end Trace

/-- **The bus serves every second master.** In every run from reset of a
platform with three masters or more, from arbitrary registers and for
arbitrary draws, transaction `q` takes the cycles `3 q + 1` to `3 q + 3` and is
that of master `2 q + 1` modulo the number of masters. -/
theorem served_in_turn (h3 : 3 ≤ n) (s : State n) (rnd : Fin n → Data × Data) (o : Fin n → TargetSignals) (p : Ports)
    (d : ℕ → Fin n → Data × Data) :
    ∃ st : ℕ → State n, (∀ t, k.run s rnd o p d t = .ok (st t)) ∧ ∀ q, Serves st q (turn n q) := by
  obtain ⟨st, hst, tr⟩ := k.exists_trace s rnd o p d
  exact ⟨st, hst, tr.inTurn h3⟩

/-- Registers and signals that are all zero. -/
def unpowered (n : ℕ) : State n where
  master _ := ⟨.random, 0, 0, 0, 0, 0⟩
  coproc _ := ⟨.getCmd, .idle, 0, 0, 0, 0, 0⟩
  bus := ⟨⟨.idle, 0, 0, fun _ _ => 0⟩, fun _ => noInitiator, fun _ => noTarget⟩
  signals _ := noInitiator

/-- On the platform of three the order is 1, 0, 2. -/
theorem three_in_turn : ∃ st : ℕ → State 3,
    (∀ t, parallelTop.run (unpowered 3) (fun _ => (0, 0)) (fun _ => noTarget) ⟨fun _ => noInitiator, fun _ => noTarget⟩
      (fun _ _ => (6, 4)) t = .ok (st t)) ∧ ∀ q, Serves st q (turn 3 q) :=
  parallelTop.served_in_turn (by decide) _ _ _ _ _

/-- **With an even number of masters half of them starve.** From four masters
on, one of even index never gets further than its first command, in no run. -/
theorem even_starves (h3 : 3 ≤ n) (heven : n % 2 = 0) (s : State n) (rnd : Fin n → Data × Data)
    (o : Fin n → TargetSignals) (p : Ports) (d : ℕ → Fin n → Data × Data) {i : Fin n} (hi : i.val % 2 = 0) (t : ℕ) :
    ∃ s', k.run s rnd o p d t = .ok s' ∧ ((s'.master i).rFsm = .random ∨ (s'.master i).rFsm = .cmdOpa) := by
  obtain ⟨st, hst, tr⟩ := k.exists_trace s rnd o p d
  exact ⟨st t, hst t, tr.waits (tr.not_served h3 heven hi) t⟩

/-- The routing table of the platform of three with a fourth target, at
`0x30000000`. -/
def fourTable : AddressDecodingTable (BitVec 32) := parallelTop.bus.mRoutingTable.set 0x30000000 3

theorem routes_fourTable : ∀ e < 2 ^ fourTable.mUseBits,
    0 ≤ (fourTable.mTable e).toInt ∧ (fourTable.mTable e).toInt < (4 : ℕ) := by
  intro e _
  simp only [fourTable, AddressDecodingTable.set, parallelTop, Function.update_apply]
  split_ifs <;> exact ⟨by decide, by decide⟩

def fourBus : VciVgsb where
  mNbInitiator := 4
  mNbTarget := 4
  mRoutingTable := fourTable
  routes := routes_fourTable

def fourMasters (i : Fin 4) : VciGcdMaster.Const where
  mSrcid := BitVec.ofNat 12 i
  mBase := BitVec.ofNat 32 (0x10000000 * i)

theorem range_fourMasters : ∀ i, (fourMasters i).mBase.toNat + 16 ≤ 2 ^ 32 := by decide

theorem routed_fourMasters : ∀ i, ∀ x < 16, fourBus.route ((fourMasters i).mBase + BitVec.ofNat 32 x) = i := by
  decide

/-- A platform of four pairs. -/
def fourTop : ParallelPlatform 4 where
  bus := fourBus
  master := fourMasters
  nbInitiator := rfl
  nbTarget := rfl
  range := range_fourMasters
  routed := routed_fourMasters

/-- On the platform of four, master 2 has not got further than its first
command in cycle 1000. -/
theorem four_starves : ∃ s',
    fourTop.run (unpowered 4) (fun _ => (0, 0)) (fun _ => noTarget) ⟨fun _ => noInitiator, fun _ => noTarget⟩
      (fun _ _ => (6, 4)) 1000 = .ok s' ∧ ((s'.master 2).rFsm = .random ∨ (s'.master 2).rFsm = .cmdOpa) :=
  fourTop.even_starves (by decide) (by decide) _ _ _ _ _ (by decide) 1000

end ParallelPlatform
end Tp2
end Smc
