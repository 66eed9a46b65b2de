/-
# Progress of the parallel platform

A master that is served again and again displays again and again, if it draws
no pair with exactly one zero: a service takes it one command further, and
while it polls the subtraction of its coprocessor goes on whether or not the
bus serves it, so some `STATUS` is zero (`Trace.polls_ends`). On a bus
with an odd number of masters, three or more, every master is served again and
again (`Smc.Tp2.BusSchedule`), so what the other masters draw does not matter
(`displays_forever`).

Key definitions: `Carries`, `Offers`.
Key theorems: `carries_cycle`, `Trace.serve`, `displays_forever`.
-/
import Smc.Lib.Temporal
import Smc.Tp2.BusSchedule
import Smc.Tp2.SimplePlatform

namespace Smc
namespace Tp2

open SubGcd (Loop)
open SubGcd.Loop (OneZero)

namespace VciGcdCoprocessor

/-- A cycle in which no operand is written is a step of `EXE` only. -/
theorem toLoop_of_read {seg : Extent} {c c' : Regs} {sig : InitiatorSignals}
    (ht : transition seg true c sig = .ok c')
    (hread : sig.cmdval = true → ∃ op, opOf seg sig.cmdFlit = some op ∧ op.isRead = true) :
    toLoop c' = toLoop (exe c) := by
  by_cases hs : c.rVciFsm = .getCmd
  · cases hv : sig.cmdval with
    | false =>
      rw [transition_idle hs hv, Except.ok.injEq] at ht
      rw [← ht]
    | true =>
      obtain ⟨op, hop, hr⟩ := hread hv
      rw [transition_command hs hv hop, Except.ok.injEq] at ht
      rw [← ht]
      cases op with
      | writeOpa v | writeOpb v | start => cases hr
      | readStatus | readResult => rfl
  · rw [transition_response hs, Except.ok.injEq] at ht
    rw [← ht]
    split_ifs <;> rfl

/-- A step of `EXE` leaves less to do, unless it is idle and stays so. -/
theorem left_exe {c : Regs} {σ : Atomic} (hr : Refines c σ) (hp : σ.pending = true) (hv : c.rVciFsm ≠ .rspStart)
    (hz : ¬ OneZero c.rOpa c.rOpb) :
    (toLoop (exe c)).left ≤ (toLoop c).left ∧
      (c.rExeFsm ≠ .idle → (toLoop (exe c)).left < (toLoop c).left) := by
  by_cases hi : c.rExeFsm = .idle
  · rw [exe_of_idle hi hv]
    exact ⟨le_rfl, fun hne => absurd hi hne⟩
  · have hlt : (toLoop (exe c)).left < (toLoop c).left := by
      obtain ⟨-, ⟨hi', -⟩ | hc⟩ := hr.busy hp
      · exact absurd hi' hi
      · rw [toLoop_exe hi]
        exact Loop.left_step_lt hc hz fun hd => hi (toLoop_done.mp hd)
    exact ⟨hlt.le, fun _ => hlt⟩

end VciGcdCoprocessor

/-- What a master displays is the divisor of its operands. -/
theorem InProtocol.shows {m : VciGcdMaster.Regs} {σ : Atomic} (h : InProtocol m σ) (hf : m.rFsm = .display) :
    m.rRes.toNat = Nat.gcd m.rOpa.toNat m.rOpb.toNat := by
  have hfo := h.follows
  simp only [Follows, hf] at hfo
  rw [hfo.2, SubGcd.toNat_gcd]

namespace ParallelPlatform

open VciGcdCoprocessor (Refines Fault toLoop exe)
open VciGcdMaster (offered awaited)
open VciVgsb (Bus Ports driveTarget driveInitiator)
open SimplePlatform (Polls next)

variable {n : ℕ} {k : ParallelPlatform n}

/-! ### A pair in one cycle -/

section Pair

variable {s s' : State n} {rnd : Fin n → Data × Data} {i : Fin n}

theorem Edge.coproc (he : k.Edge s s' rnd) (i : Fin n) :
    VciGcdCoprocessor.transition (gcdSegment (k.master i).mBase) true (s.coproc i)
      (driveTarget s.bus (k.ports s) i) = .ok (s'.coproc i) := by
  have hok := he.ok
  rw [cycle] at hok
  cases ha : Clocked.allOk fun i => VciGcdCoprocessor.transition (gcdSegment (k.master i).mBase) true (s.coproc i)
      (driveTarget s.bus (k.ports s) i) with
  | error e => rw [ha] at hok; cases hok
  | ok g =>
    rw [ha] at hok
    have hs' := Except.ok.inj hok
    rw [← hs']
    exact Clocked.forall_of_allOk ha i

theorem opOf_driveTarget (h : Inv s) (hv : (driveTarget s.bus (k.ports s) i).cmdval = true) :
    ∃ op, offered (s.master i) = some op ∧
      opOf (gcdSegment (k.master i).mBase) (driveTarget s.bus (k.ports s) i).cmdFlit = some op := by
  have hl := k.link h i
  rw [hl.cmdval, Bool.and_eq_true, drives, VciGcdMaster.genMoore_cmdval] at hv
  obtain ⟨op, hop⟩ := Option.isSome_iff_exists.mp hv.2
  refine ⟨op, hop, ?_⟩
  rw [hl.cmdFlit hv.1]
  exact opOf_genMoore (k.range i) hop

theorem Edge.toLoop_eq (h : Inv s) (he : k.Edge s s' rnd) (hf : Polls (s.master i)) :
    toLoop (s'.coproc i) = toLoop (exe (s.coproc i)) := by
  apply VciGcdCoprocessor.toLoop_of_read (he.coproc i)
  intro hv
  obtain ⟨op, ho, hop⟩ := opOf_driveTarget h hv
  exact ⟨op, hop, hf.isRead ho⟩

theorem next_of_served (h : Inv s) (he : k.Edge s s' rnd) (hi : i.val = index s) (hf : s.bus.regs.rFsm ≠ .idle) :
    (s'.master i).rFsm = SimplePlatform.next (s.coproc i).rExeFsm (s.master i).rFsm := by
  obtain ⟨σ, hr, hp⟩ := h.pair i
  have hl := k.link h i
  rw [he.master i, VciGcdMaster.transition]
  cases hb : s.bus.regs.rFsm with
  | idle => exact absurd hb hf
  | cmd =>
    obtain ⟨j, hj, -, hof⟩ := h.cmd hb
    obtain rfl : i = j := Fin.ext (hi.trans hj)
    have hnone : (awaited (s.master i)).isNone = true := by
      rw [Option.isNone_iff_eq_none, ← Option.not_isSome_iff_eq_none]
      intro haw
      have hrsp := (h.awaits i haw).1
      rw [hb] at hrsp
      cases hrsp
    have hack : (driveInitiator s.bus (k.ports s) i).cmdack = true := by
      rw [hl.cmdack, decide_eq_true ⟨hb, hi⟩, cmdack_eq_awaited_isNone hr hp, hnone]
      rfl
    unfold offered at hof
    cases hm : (s.master i).rFsm <;> simp only [hm, Option.isSome_none, Bool.false_eq_true] at hof <;>
      simp [hack, SimplePlatform.next]
  | rsp =>
    obtain ⟨hw, hv⟩ := rspval_of_rsp (k := k) h hb hi
    have hflit := hl.rspFlit (decide_eq_true ⟨hb, hi⟩)
    have hst : (s.master i).rFsm = .rspStatus →
        ((VciGcdCoprocessor.genMoore (s.coproc i)).rspFlit.rdata = 0#32 ↔ (s.coproc i).rExeFsm = .idle) := fun hf =>
      VciGcdCoprocessor.rdata_readStatus hr (by rw [hp.serving, awaited, hf])
    unfold awaited at hw
    cases hm : (s.master i).rFsm <;> simp only [hm, Option.isSome_none, Bool.false_eq_true] at hw hst
    case rspStatus =>
      by_cases hx : (s.coproc i).rExeFsm = .idle <;> simp [hv, hflit, hx, SimplePlatform.next, hst]
    all_goals simp [hv, SimplePlatform.next]

theorem stays_of_not_served (h : Inv s) (he : k.Edge s s' rnd) (hne : ¬ (s.bus.regs.rFsm = .cmd ∧ i.val = index s))
    (ho : (offered (s.master i)).isSome = true) : (s'.master i).rFsm = (s.master i).rFsm := by
  have hack := cmdack_eq_false (k := k) h hne
  rw [he.master i, VciGcdMaster.transition]
  unfold offered at ho
  cases hm : (s.master i).rFsm <;> simp only [hm, Option.isSome_none, Bool.false_eq_true] at ho <;> simp [hack, hm]

theorem Edge.operands (he : k.Edge s s' rnd) (hf : (s.master i).rFsm ≠ .random) :
    (s'.master i).rOpa = (s.master i).rOpa ∧ (s'.master i).rOpb = (s.master i).rOpb := by
  rw [he.master i, VciGcdMaster.transition]
  cases hm : (s.master i).rFsm with
  | random => exact absurd hm hf
  | display => simp
  | _ => simp only [Bool.not_true, Bool.false_eq_true, ↓reduceIte]; split_ifs <;> exact ⟨rfl, rfl⟩

theorem start_of_served (h : Inv s) (he : k.Edge s s' rnd) (hi : i.val = index s) (hb : s.bus.regs.rFsm = .cmd)
    (hf : (s.master i).rFsm = .cmdStart) :
    (s'.coproc i).rOpa = (s.master i).rOpa ∧ (s'.coproc i).rOpb = (s.master i).rOpb := by
  obtain ⟨σ, hr, hp⟩ := h.pair i
  have hfo := hp.follows
  simp only [Follows, hf] at hfo
  obtain ⟨hpe, ha, hb'⟩ := hfo
  obtain ⟨hx, hv, ra, rb⟩ := hr.clear hpe
  have hof : offered (s.master i) = some .start := by simp [offered, hf]
  have hs : (s.coproc i).rVciFsm = .getCmd := by rw [hr.serving, hp.serving, awaited, hf]
  have hval : (driveTarget s.bus (k.ports s) i).cmdval = true := by
    rw [(k.link h i).cmdval, decide_eq_true ⟨hb, hi⟩, drives, VciGcdMaster.genMoore_cmdval, hof]
    rfl
  obtain ⟨op, hop, hflit⟩ := opOf_driveTarget (k := k) h hval
  rw [hof, Option.some.injEq] at hop
  subst hop
  have hc := he.coproc i
  rw [VciGcdCoprocessor.transition_command hs hval hflit, Except.ok.injEq] at hc
  have hexe : exe (s.coproc i) = s.coproc i := VciGcdCoprocessor.exe_of_idle hx hv
  rw [← hc]
  simp [VciGcdCoprocessor.accept, hexe, ra, rb, ha, hb']

/-- Whether the pair in hand hangs is `z`: it shows in the operands that the
master has drawn and, while it polls, in those of its coprocessor. -/
structure Carries (z : Prop) (s : State n) (i : Fin n) : Prop where
  operands : (s.master i).rFsm ≠ .random → (OneZero (s.master i).rOpa (s.master i).rOpb ↔ z)
  polling : Polls (s.master i) → (OneZero (s.coproc i).rOpa (s.coproc i).rOpb ↔ z)

theorem polls_cases (h : Inv s) (he : k.Edge s s' rnd) (hf : Polls (s'.master i)) : Polls (s.master i) ∨
    ((s.master i).rFsm = .cmdStart ∧ s.bus.regs.rFsm = .cmd ∧ i.val = index s) := by
  by_cases hserved : s.bus.regs.rFsm = .cmd ∧ i.val = index s
  · have hnext := next_of_served h he hserved.2 (by rw [hserved.1]; nofun)
    unfold Polls at hf ⊢
    rw [hnext] at hf
    cases hm : (s.master i).rFsm <;> rw [hm] at hf <;> simp_all [SimplePlatform.next]
  · left
    have hack := cmdack_eq_false (k := k) h hserved
    unfold Polls at hf ⊢
    rw [he.master i, VciGcdMaster.transition] at hf
    cases hm : (s.master i).rFsm <;> simp only [hm] at hf <;> simp_all
    all_goals split_ifs at hf <;> simp_all

/-- **One cycle** keeps it, unless the master draws a pair that differs. -/
theorem carries_cycle {z : Prop} (h : Inv s) (he : k.Edge s s' rnd) (hz : Carries z s i)
    (hd : (s.master i).rFsm = .random → (OneZero (rnd i).1 (rnd i).2 ↔ z)) : Carries z s' i := by
  constructor
  · intro _
    by_cases hr : (s.master i).rFsm = .random
    · obtain ⟨-, ha, hb⟩ := he.random hr
      rw [ha, hb]
      exact hd hr
    · obtain ⟨ha, hb⟩ := he.operands hr
      rw [ha, hb]
      exact hz.operands hr
  · intro hpoll
    rcases polls_cases h he hpoll with hp | ⟨hf, hcmd, hi⟩
    · obtain ⟨σ, hr, hpr⟩ := h.pair i
      have hone := SimplePlatform.oneZero_exe hr (hp.pending hpr)
      rw [← he.toLoop_eq h hp] at hone
      exact hone.trans (hz.polling hp)
    · obtain ⟨ha, hb⟩ := start_of_served h he hi hcmd hf
      rw [ha, hb]
      exact hz.operands (by rw [hf]; nofun)

/-- How much the coprocessor of a pair has left to subtract. -/
def work (s : State n) (i : Fin n) : ℕ := (toLoop (s.coproc i)).left

theorem work_cycle (h : Inv s) (he : k.Edge s s' rnd) (hz : Carries False s i) (hp : Polls (s.master i))
    (hns : (s.master i).rFsm ≠ .rspStart) : work s' i ≤ work s i ∧
      ((s.coproc i).rExeFsm ≠ .idle → work s' i < work s i) := by
  obtain ⟨σ, hr, hpr⟩ := h.pair i
  have hv : (s.coproc i).rVciFsm ≠ .rspStart := by
    rw [hr.serving, hpr.serving, awaited]
    rcases hp with hm | hm | hm
    · exact absurd hm hns
    · simp [hm]
    · simp [hm, VciGcdCoprocessor.rspOf]
  rw [work, work, he.toLoop_eq h hp]
  exact VciGcdCoprocessor.left_exe hr (hp.pending hpr) hv (hz.polling hp).mp

end Pair

/-! ### A pair from one transaction to the next -/

section Trace

variable {d : ℕ → Fin n → Data × Data} {st : ℕ → State n} {i : Fin n}

/-- Master `i` at the start of transaction `q`. -/
def At (st : ℕ → State n) (i : Fin n) (f : VciGcdMaster.Fsm) (q : ℕ) : Prop :=
  ((st (3 * q + 1)).master i).rFsm = f

def Offers (f : VciGcdMaster.Fsm) : Prop :=
  f = .cmdOpa ∨ f = .cmdOpb ∨ f = .cmdStart ∨ f = .cmdStatus ∨ f = .cmdResult

theorem Offers.offered {m : VciGcdMaster.Regs} (h : Offers m.rFsm) : (offered m).isSome = true := by
  unfold VciGcdMaster.offered
  rcases h with h | h | h | h | h <;> rw [h] <;> rfl

/-- A transaction of another master leaves a master where it is, at every one
of the three cycles. -/
theorem Trace.passed_over (tr : k.Trace d st) {q j : ℕ} (ht : Serves st q j) (hq : j ≠ i)
    {f : VciGcdMaster.Fsm} (ho : Offers f) (hf : At st i f q) :
    ((st (3 * q + 2)).master i).rFsm = f ∧ ((st (3 * q + 3)).master i).rFsm = f ∧ At st i f (q + 1) := by
  have f1 : ((st (3 * q + 2)).master i).rFsm = f :=
    (stays_of_not_served (tr.inv _) (tr.edge (3 * q + 1)) (fun hh => by rw [ht.idle] at hh; cases hh.1)
      (Offers.offered (hf.symm ▸ ho))).trans hf
  have f2 : ((st (3 * q + 3)).master i).rFsm = f :=
    (stays_of_not_served (tr.inv _) (tr.edge (3 * q + 2)) (fun hh => hq (ht.cmd.2.symm.trans hh.2.symm))
      (Offers.offered (f1.symm ▸ ho))).trans f1
  have f3 : ((st (3 * q + 4)).master i).rFsm = f :=
    (stays_of_not_served (tr.inv _) (tr.edge (3 * q + 3)) (fun hh => by rw [ht.rsp.1] at hh; cases hh.1)
      (Offers.offered (f2.symm ▸ ho))).trans f2
  exact ⟨f1, f2, f3⟩

/-- **A transaction** takes the master it is of two states further. -/
theorem Trace.serve (tr : k.Trace d st) {q : ℕ} (ht : Serves st q i) {f : VciGcdMaster.Fsm}
    (ho : Offers f) (hf : At st i f q) :
    ((st (3 * q + 2)).master i).rFsm = f ∧ ((st (3 * q + 3)).master i).rFsm = next .idle f ∧
      At st i (next ((st (3 * q + 3)).coproc i).rExeFsm (next .idle f)) (q + 1) := by
  have f1 : ((st (3 * q + 2)).master i).rFsm = f :=
    (stays_of_not_served (tr.inv _) (tr.edge (3 * q + 1)) (fun hh => by rw [ht.idle] at hh; cases hh.1)
      (Offers.offered (hf.symm ▸ ho))).trans hf
  have f2 : ((st (3 * q + 3)).master i).rFsm = next .idle f := by
    rw [next_of_served (tr.inv _) (tr.edge (3 * q + 2)) ht.cmd.2.symm (by rw [ht.cmd.1]; nofun), f1]
    rcases ho with h | h | h | h | h <;> rw [h] <;> rfl
  refine ⟨f1, f2, ?_⟩
  have hnext := next_of_served (tr.inv _) (tr.edge (3 * q + 3)) ht.rsp.2.symm (by rw [ht.rsp.1]; nofun)
  rw [f2] at hnext
  exact hnext

theorem Trace.draws_again (tr : k.Trace d st) {q j : ℕ} (ht : Serves st q j) (hf : At st i .display q) :
    At st i .cmdOpa (q + 1) := by
  have f1 : ((st (3 * q + 2)).master i).rFsm = .random := (tr.edge (3 * q + 1)).display hf
  have f2 : ((st (3 * q + 3)).master i).rFsm = .cmdOpa := ((tr.edge (3 * q + 2)).random f1).1
  exact (stays_of_not_served (tr.inv _) (tr.edge (3 * q + 3)) (fun hh => by rw [ht.rsp.1] at hh; cases hh.1)
    (offered_cmdOpa f2)).trans f2

theorem Trace.carries (tr : k.Trace d st) (hd : ∀ t, ¬ OneZero (d t i).1 (d t i).2) (t : ℕ) :
    Carries False (st t) i := by
  induction t with
  | zero =>
    refine ⟨fun hne => absurd (tr.random i) hne, fun hp => ?_⟩
    rcases hp with h | h | h <;> rw [tr.random i] at h <;> cases h
  | succ t ih => exact carries_cycle (tr.inv t) (tr.edge t) ih fun _ => iff_false_intro (hd t)

theorem Trace.work_polls (tr : k.Trace d st) (hd : ∀ t, ¬ OneZero (d t i).1 (d t i).2) {t : ℕ}
    (hf : ((st t).master i).rFsm = .cmdStatus ∨ ((st t).master i).rFsm = .rspStatus) :
    work (st (t + 1)) i ≤ work (st t) i ∧
      (((st t).coproc i).rExeFsm ≠ .idle → work (st (t + 1)) i < work (st t) i) := by
  have hne : ((st t).master i).rFsm ≠ .rspStart := by rcases hf with hf | hf <;> rw [hf] <;> nofun
  exact work_cycle (tr.inv t) (tr.edge t) (tr.carries hd t) (.inr hf) hne

theorem Trace.work_serve (tr : k.Trace d st) {q : ℕ} (ht : Serves st q i)
    (hd : ∀ t, ¬ OneZero (d t i).1 (d t i).2) (hf : At st i .cmdStatus q)
    (hx : ((st (3 * q + 3)).coproc i).rExeFsm ≠ .idle) : work (st (3 * q + 4)) i < work (st (3 * q + 1)) i := by
  obtain ⟨f1, f2, -⟩ := tr.serve ht (.inr (.inr (.inr (.inl rfl)))) hf
  calc work (st (3 * q + 4)) i < work (st (3 * q + 3)) i := (tr.work_polls hd (.inr f2)).2 hx
    _ ≤ work (st (3 * q + 2)) i := (tr.work_polls hd (.inl f1)).1
    _ ≤ work (st (3 * q + 1)) i := (tr.work_polls hd (.inl hf)).1

/-! ### Rounds -/

section Rounds

variable {w : ℕ → ℕ} (tr : k.Trace d st) (ht : ∀ q, Serves st q (w q)) (hserved : Temporal.Recurs fun q => w q = i)

include tr ht hserved

theorem Trace.leadsTo_served {f : VciGcdMaster.Fsm} (ho : Offers f) (hne : f ≠ .cmdStatus) :
    Temporal.LeadsTo (At st i f) (At st i (next .idle (next .idle f))) := by
  apply Temporal.LeadsTo.of_recurs hserved
  · intro q hf hq
    exact (tr.passed_over (ht q) hq ho hf).2.2
  · intro q hf hq
    refine ⟨q + 1, Nat.le_succ q, ?_⟩
    have hnext := (tr.serve (hq ▸ ht q) ho hf).2.2
    rcases ho with h | h | h | h | h <;> subst h
    case inr.inr.inr.inl => exact absurd rfl hne
    all_goals exact hnext

theorem Trace.leadsTo_poll (hd : ∀ t, ¬ OneZero (d t i).1 (d t i).2) (m : ℕ) :
    Temporal.LeadsTo (fun q => At st i .cmdStatus q ∧ work (st (3 * q + 1)) i ≤ m) fun q =>
      At st i .cmdResult q ∨ (At st i .cmdStatus q ∧ work (st (3 * q + 1)) i < m) := by
  have hoff : Offers .cmdStatus := .inr (.inr (.inr (.inl rfl)))
  apply Temporal.LeadsTo.of_recurs hserved
  · rintro q ⟨hf, hm⟩ hq
    obtain ⟨f1, f2, f3⟩ := tr.passed_over (ht q) hq hoff hf
    refine ⟨f3, ?_⟩
    calc work (st (3 * q + 4)) i ≤ work (st (3 * q + 3)) i := (tr.work_polls hd (.inl f2)).1
      _ ≤ work (st (3 * q + 2)) i := (tr.work_polls hd (.inl f1)).1
      _ ≤ work (st (3 * q + 1)) i := (tr.work_polls hd (.inl hf)).1
      _ ≤ m := hm
  · rintro q ⟨hf, hm⟩ hq
    have f3 := (tr.serve (hq ▸ ht q) hoff hf).2.2
    refine ⟨q + 1, Nat.le_succ q, ?_⟩
    by_cases hx : ((st (3 * q + 3)).coproc i).rExeFsm = .idle
    · left
      rw [hx] at f3
      exact f3
    · right
      have f3' : At st i .cmdStatus (q + 1) := by
        rw [show next .idle .cmdStatus = .rspStatus from rfl, next, if_neg hx] at f3
        exact f3
      exact ⟨f3', lt_of_lt_of_le (tr.work_serve (hq ▸ ht q) hd hf hx) hm⟩

/-- **Polling ends** on a pair that does not hang. -/
theorem Trace.polls_ends (hd : ∀ t, ¬ OneZero (d t i).1 (d t i).2) :
    Temporal.LeadsTo (At st i .cmdStatus) (At st i .cmdResult) :=
  Temporal.LeadsTo.of_measure (fun q => work (st (3 * q + 1)) i) fun q hf =>
    tr.leadsTo_poll ht hserved hd _ q ⟨hf, le_rfl⟩

/-- A master that is served again and again displays again and again. -/
theorem Trace.recurs_display (hd : ∀ t, ¬ OneZero (d t i).1 (d t i).2)
    (h0 : ∃ q, At st i .cmdOpa q) : Temporal.Recurs (At st i .display) := by
  have operands : Temporal.LeadsTo (At st i .cmdOpa) (At st i .cmdStart) :=
    (tr.leadsTo_served ht hserved (.inl rfl) nofun).trans (tr.leadsTo_served ht hserved (.inr (.inl rfl)) nofun)
  have polling : Temporal.LeadsTo (At st i .cmdStart) (At st i .cmdResult) :=
    (tr.leadsTo_served ht hserved (.inr (.inr (.inl rfl))) nofun).trans (tr.polls_ends ht hserved hd)
  have result : Temporal.LeadsTo (At st i .cmdResult) (At st i .display) :=
    tr.leadsTo_served ht hserved (.inr (.inr (.inr (.inr rfl)))) nofun
  exact ((operands.trans polling).trans result).recurs h0 fun q hq =>
    ⟨q + 1, Nat.lt_succ_self q, tr.draws_again (ht q) hq⟩

end Rounds

end Trace

/-- **With an odd number of masters everyone displays.** In every run from
reset of a platform with an odd number of masters, three or more, a master
that never draws a pair with exactly one zero displays the divisor of its
operands again and again, whatever the other masters draw. -/
theorem displays_forever (k : ParallelPlatform n) (h3 : 3 ≤ n) (hodd : n % 2 = 1) (s : State n)
    (rnd : Fin n → Data × Data) (o : Fin n → TargetSignals) (p : Ports) (d : ℕ → Fin n → Data × Data) (i : Fin n)
    (hd : ∀ t, ¬ OneZero (d t i).1 (d t i).2) (t : ℕ) :
    ∃ u, t ≤ u ∧ ∃ s', k.run s rnd o p d u = .ok s' ∧ (s'.master i).rFsm = .display ∧
      (s'.master i).rRes.toNat = Nat.gcd (s'.master i).rOpa.toNat (s'.master i).rOpb.toNat := by
  obtain ⟨st, hst, tr⟩ := k.exists_trace s rnd o p d
  have ht := tr.inTurn h3
  have hserved : Temporal.Recurs fun q => turn n q = i := RoundRobin.exists_odd_mod_eq hodd i.isLt
  have h0 : At st i .cmdOpa 0 := ((tr.edge 0).random (tr.random i)).1
  obtain ⟨q, htq, hf⟩ := tr.recurs_display ht hserved hd ⟨0, h0⟩ t
  refine ⟨3 * q + 1, by omega, st (3 * q + 1), hst _, hf, ?_⟩
  obtain ⟨σ, -, hp⟩ := (tr.inv (3 * q + 1)).pair i
  exact hp.shows hf

/-- On the platform of three, a master that draws 6 and 4 displays their divisor
after the hundredth cycle, while the two others hang. -/
theorem displays_beside_hanging : ∃ u, 100 ≤ u ∧ ∃ s',
    parallelTop.run (unpowered 3) (fun _ => (0, 0)) (fun _ => noTarget) ⟨fun _ => noInitiator, fun _ => noTarget⟩
      (fun _ i => if i = 1 then (6, 4) else (0, 1)) u = .ok s' ∧ (s'.master 1).rFsm = .display ∧
      (s'.master 1).rRes.toNat = Nat.gcd (s'.master 1).rOpa.toNat (s'.master 1).rOpb.toNat :=
  parallelTop.displays_forever (by decide) (by decide) _ _ _ _ _ 1 (fun _ => by decide) 100

end ParallelPlatform
end Tp2
end Smc
