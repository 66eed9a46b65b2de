/-
# The parallel platform with two masters

With two masters each arbitration of `RSP` gives the priority to the other,
and the one of `IDLE` that follows gives it back: the master that holds the
bus keeps it for its whole computation, polling included, until it displays
(`Turn`). Only then does the other get it, for its own. So both display again
and again, if no pair hangs (`two_display`).

Key definition: `Turn`.
Key theorems: `Trace.turn_offers`, `Trace.turn_display`, `two_display`.
-/
import Smc.Tp2.ParallelProgress
import Smc.Tp2.VgsbArbitration

namespace Smc
namespace Tp2
namespace ParallelPlatform

open SubGcd.Loop (OneZero)
open VciGcdMaster (offered)
open SimplePlatform (next)

variable {k : ParallelPlatform 2} {d : ℕ → Fin 2 → Data × Data} {st : ℕ → State 2} {x : Fin 2}

/-- Between two transactions: the bus is `x`'s, and the other waits with its
first command. -/
structure Turn (s : State 2) (x : Fin 2) : Prop where
  idle : s.bus.regs.rFsm = .idle
  index : index s = x.rev
  holder : Offers (s.master x).rFsm ∨ (s.master x).rFsm = .display
  other : (s.master x.rev).rFsm = .cmdOpa

def master0 : Fin 2 := ⟨0, Nat.zero_lt_two⟩

def master1 : Fin 2 := ⟨1, Nat.one_lt_two⟩

theorem succ_val (x : Fin 2) : (x.val + 1) % 2 = x.rev := by
  fin_cases x <;> rfl

theorem rev_ne (x : Fin 2) : x.rev.val ≠ x := by
  fin_cases x <;> decide

theorem eq_or_eq_rev (x y : Fin 2) : y = x ∨ y = x.rev := by
  fin_cases x <;> fin_cases y <;> decide

/-- The first look of the arbitration is at the other. -/
theorem arbitrate_rev (s : State 2) (hi : index s = x) (ho : (offered (s.master x.rev)).isSome = true) :
    k.bus.arbitrate (index s) (k.ports s) = some x.rev.val := by
  have hnext : (⟨(index s + 1) % 2, Nat.mod_lt _ (by decide)⟩ : Fin 2) = x.rev :=
    Fin.ext ((congrArg (fun j => (j + 1) % 2) hi).trans (succ_val x))
  rw [← hnext] at ho
  rw [arbitrate_succ (by decide) s ho]
  exact congrArg some (congrArg Fin.val hnext)

/-- Only the other asks. -/
theorem arbitrate_other (s : State 2) (hi : index s < 2) (hx : (offered (s.master x)).isSome = false)
    (ho : (offered (s.master x.rev)).isSome = true) : k.bus.arbitrate (index s) (k.ports s) = some x.rev.val := by
  have hn := k.nbInitiator
  have hask : ((k.ports s).initiator x.rev).cmdval = true := (drives_cmdval s x.rev).trans ho
  obtain ⟨j, hj⟩ := k.bus.arbitrate_isSome (r := index s) (i := x.rev) (p := k.ports s) (by rw [hn]; exact hi)
    (by rw [hn]; exact x.rev.isLt) hask
  obtain ⟨hlt, hval⟩ := k.bus.arbitrate_lt hj
  rw [hn] at hlt
  rw [hj]
  rcases eq_or_eq_rev x ⟨j, hlt⟩ with h | h
  · have hnot := (drives_cmdval (k := k) s ⟨j, hlt⟩).symm.trans hval
    rw [h, hx] at hnot
    cases hnot
  · exact congrArg some (congrArg Fin.val h)

/-- A master that is not in `DISPLAY` or `RANDOM` asks again after its response. -/
theorem offers_or_display (e : VciGcdCoprocessor.ExeFsm) {f : VciGcdMaster.Fsm} (ho : Offers f) :
    Offers (next e (next .idle f)) ∨ next e (next .idle f) = .display := by
  rcases ho with h | h | h | h | h <;> rw [h] <;> simp only [next, Offers]
  case inr.inr.inr.inl => split_ifs <;> simp
  all_goals simp

/-- The holder's transaction: it keeps the bus. -/
theorem Trace.turn_offers (tr : k.Trace d st) {q : ℕ} (h : Turn (st (3 * q + 1)) x)
    (ho : Offers ((st (3 * q + 1)).master x).rFsm) : Serves st q x ∧ Turn (st (3 * (q + 1) + 1)) x := by
  have hrr : x.rev.rev = x := Fin.rev_rev x
  have hoff : (offered ((st (3 * q + 1)).master x.rev.rev)).isSome = true := by rw [hrr]; exact ho.offered
  obtain ⟨f1, i1⟩ := bus_idle (tr.edge _) h.idle (arbitrate_rev (x := x.rev) _ h.index hoff)
  rw [hrr] at i1
  have o1 : ((st (3 * q + 2)).master x.rev).rFsm = .cmdOpa :=
    (stays_of_not_served (tr.inv _) (tr.edge (3 * q + 1)) (fun hh => by rw [h.idle] at hh; cases hh.1)
      (offered_cmdOpa h.other)).trans h.other
  obtain ⟨f2, i2⟩ := bus_cmd (tr.inv _) (tr.edge (3 * q + 2)) f1
  have o2 : ((st (3 * q + 3)).master x.rev).rFsm = .cmdOpa :=
    (stays_of_not_served (tr.inv _) (tr.edge (3 * q + 2)) (fun hh => rev_ne x (hh.2.trans i1))
      (offered_cmdOpa o1)).trans o1
  obtain ⟨f3, i3⟩ := bus_rsp (tr.inv _) (tr.edge (3 * q + 3)) f2
    (arbitrate_rev (x := x) _ (i2.trans i1) (offered_cmdOpa o2))
  have o3 : ((st (3 * q + 4)).master x.rev).rFsm = .cmdOpa :=
    (stays_of_not_served (tr.inv _) (tr.edge (3 * q + 3)) (fun hh => by rw [f2] at hh; cases hh.1)
      (offered_cmdOpa o2)).trans o2
  have hserves : Serves st q x := ⟨h.idle, ⟨f1, i1⟩, f2, i2.trans i1⟩
  refine ⟨hserves, f3, i3, ?_, o3⟩
  have hnext : ((st (3 * (q + 1) + 1)).master x).rFsm = _ := (tr.serve hserves ho rfl).2.2
  rw [hnext]
  exact offers_or_display _ ho

/-- The holder displays, and the other has the bus. -/
theorem Trace.turn_display (tr : k.Trace d st) {q : ℕ} (h : Turn (st (3 * q + 1)) x) (hd : At st x .display q) :
    Serves st q x.rev ∧ Turn (st (3 * (q + 1) + 1)) x.rev ∧ At st x.rev .cmdOpb (q + 1) := by
  have hrr : x.rev.rev = x := Fin.rev_rev x
  have hquiet : (offered ((st (3 * q + 1)).master x)).isSome = false := by
    rw [VciGcdMaster.offered, hd]
    rfl
  have hlt : index (st (3 * q + 1)) < 2 := lt_of_eq_of_lt h.index x.rev.isLt
  obtain ⟨f1, i1⟩ := bus_idle (tr.edge _) h.idle (arbitrate_other _ hlt hquiet (offered_cmdOpa h.other))
  have x1 : ((st (3 * q + 2)).master x).rFsm = .random := (tr.edge (3 * q + 1)).display hd
  obtain ⟨f2, i2⟩ := bus_cmd (tr.inv _) (tr.edge (3 * q + 2)) f1
  have x2 : ((st (3 * q + 3)).master x).rFsm = .cmdOpa := ((tr.edge (3 * q + 2)).random x1).1
  obtain ⟨f3, i3⟩ := bus_rsp (tr.inv _) (tr.edge (3 * q + 3)) f2
    (arbitrate_rev (x := x.rev) _ (i2.trans i1) (by rw [hrr]; exact offered_cmdOpa x2))
  have hserves : Serves st q x.rev := ⟨h.idle, ⟨f1, i1⟩, f2, i2.trans i1⟩
  have hnext : At st x.rev .cmdOpb (q + 1) := (tr.serve hserves (.inl rfl) h.other).2.2
  have x3 : At st x .cmdOpa (q + 1) := tr.draws_again hserves hd
  exact ⟨hserves, ⟨f3, i3, .inl (.inr (.inl hnext)), by rw [hrr]; exact x3⟩, hnext⟩

/-- In the first cycle both draw; the arbiter then looks at master 1 first. -/
theorem Trace.turn_first (tr : k.Trace d st) : Turn (st 1) master1 ∧ At st master1 .cmdOpa 0 := by
  obtain ⟨hf, hi, -⟩ := tr.first
  have hx : ∀ i, ((st 1).master i).rFsm = .cmdOpa := fun i => ((tr.edge 0).random (tr.random i)).1
  exact ⟨⟨hf, hi, .inl (.inl (hx 1)), hx _⟩, hx 1⟩

/-! ### Rounds -/

/-- Master `x` has the bus and is in state `f`. -/
def Has (st : ℕ → State 2) (x : Fin 2) (f : VciGcdMaster.Fsm) (q : ℕ) : Prop :=
  Turn (st (3 * q + 1)) x ∧ At st x f q

/-- The holder's transaction takes it two states further. -/
theorem Trace.has_serve (tr : k.Trace d st) {q : ℕ} {f : VciGcdMaster.Fsm} (ho : Offers f) (h : Has st x f q) :
    Has st x (next ((st (3 * q + 3)).coproc x).rExeFsm (next .idle f)) (q + 1) := by
  obtain ⟨hs, ht⟩ := tr.turn_offers h.1 (h.2.symm ▸ ho)
  exact ⟨ht, (tr.serve hs ho h.2).2.2⟩

section Live

variable (tr : k.Trace d st) (hd : ∀ t i, ¬ OneZero (d t i).1 (d t i).2)

include tr

theorem Trace.leadsTo_has {f : VciGcdMaster.Fsm} (ho : Offers f) (hne : f ≠ .cmdStatus) :
    Temporal.LeadsTo (Has st x f) (Has st x (next .idle (next .idle f))) := by
  refine Temporal.leadsTo_of_succ fun q h => ?_
  have hnext := tr.has_serve ho h
  rcases ho with h | h | h | h | h <;> subst h
  case inr.inr.inr.inl => exact absurd rfl hne
  all_goals exact hnext

/-- After a display the other has the bus. -/
theorem Trace.has_other : ∀ q, Has st x .display q → Has st x.rev .cmdOpb (q + 1) := fun _ h =>
  (tr.turn_display h.1 h.2).2

include hd

theorem Trace.has_polls : Temporal.LeadsTo (Has st x .cmdStatus) (Has st x .cmdResult) := by
  apply Temporal.LeadsTo.of_measure fun q => work (st (3 * q + 1)) x
  intro q h
  have hoff : Offers .cmdStatus := .inr (.inr (.inr (.inl rfl)))
  have hnext := tr.has_serve hoff h
  refine ⟨q + 1, Nat.le_succ q, ?_⟩
  by_cases hx : ((st (3 * q + 3)).coproc x).rExeFsm = .idle
  · left
    rw [hx] at hnext
    exact hnext
  · right
    rw [show next .idle .cmdStatus = .rspStatus from rfl, next, if_neg hx] at hnext
    exact ⟨hnext, tr.work_serve (tr.turn_offers h.1 (h.2.symm ▸ hoff)).1 (fun t => hd t x) h.2 hx⟩

/-- The holder displays in the end. -/
theorem Trace.has_display : Temporal.LeadsTo (Has st x .cmdOpb) (Has st x .display) :=
  (((tr.leadsTo_has (.inr (.inl rfl)) nofun).trans (tr.leadsTo_has (.inr (.inr (.inl rfl))) nofun)).trans
    (tr.has_polls hd)).trans (tr.leadsTo_has (.inr (.inr (.inr (.inr rfl)))) nofun)

theorem Trace.two_recurs (x : Fin 2) : Temporal.Recurs (Has st x .display) := by
  have h1 : Has st master1 .cmdOpb 1 := tr.has_serve (.inl rfl) tr.turn_first
  have h0 : ∃ q, Has st x .cmdOpb q := by
    rcases eq_or_eq_rev master1 x with rfl | rfl
    · exact ⟨1, h1⟩
    · obtain ⟨q, -, hq⟩ := tr.has_display hd 1 h1
      exact ⟨q + 1, tr.has_other q hq⟩
  refine (tr.has_display hd).recurs h0 fun q hq => ?_
  obtain ⟨r, hr, hr'⟩ := tr.has_display hd (q + 1) (tr.has_other q hq)
  refine ⟨r + 1, by omega, ?_⟩
  have hback := tr.has_other r hr'
  rwa [Fin.rev_rev] at hback

end Live

/-- **Without a pair that hangs both masters display**, again and again, and
what they display is the divisor of their operands. -/
theorem two_display (k : ParallelPlatform 2) (s : State 2) (rnd : Fin 2 → Data × Data) (o : Fin 2 → TargetSignals)
    (p : VciVgsb.Ports) (d : ℕ → Fin 2 → Data × Data) (hd : ∀ t i, ¬ OneZero (d t i).1 (d t i).2) (i : Fin 2) (t : ℕ) :
    ∃ u, t ≤ u ∧ ∃ s', k.run s rnd o p d u = .ok s' ∧ (s'.master i).rFsm = .display ∧
      (s'.master i).rRes.toNat = Nat.gcd (s'.master i).rOpa.toNat (s'.master i).rOpb.toNat := by
  obtain ⟨st, hst, tr⟩ := k.exists_trace s rnd o p d
  obtain ⟨q, htq, -, hf⟩ := tr.two_recurs hd i t
  obtain ⟨σ, -, hp⟩ := (tr.inv (3 * q + 1)).pair i
  exact ⟨3 * q + 1, by omega, st (3 * q + 1), hst _, hf, hp.shows hf⟩

/-- A bus of two pairs: the routing table of the platform of three, with the
third target's addresses given to the first. -/
def twoTable : AddressDecodingTable (BitVec 32) := parallelTop.bus.mRoutingTable.set 0x20000000 0

theorem routes_twoTable : ∀ e < 2 ^ twoTable.mUseBits,
    0 ≤ (twoTable.mTable e).toInt ∧ (twoTable.mTable e).toInt < (2 : ℕ) := by
  intro e _
  simp only [twoTable, AddressDecodingTable.set, parallelTop, Function.update_apply]
  split_ifs with h1 h2 h3
  · exact ⟨by decide, by decide⟩
  · exact ⟨by decide, by decide⟩
  · exact absurd h3 h1
  · exact ⟨by decide, by decide⟩

def twoBus : VciVgsb where
  mNbInitiator := 2
  mNbTarget := 2
  mRoutingTable := twoTable
  routes := routes_twoTable

theorem routed_twoBus : ∀ i : Fin 2, ∀ x < 16,
    twoBus.route ((parallelTop.master i.castSucc).mBase + BitVec.ofNat 32 x) = i := by
  decide

/-- A platform of two pairs. -/
def twoTop : ParallelPlatform 2 where
  bus := twoBus
  master i := parallelTop.master i.castSucc
  nbInitiator := rfl
  nbTarget := rfl
  range i := parallelTop.range i.castSucc
  routed := routed_twoBus

/-- Master 1 draws 6 and 4, master 0 draws 15 and 10. -/
theorem two_display_fifteen_ten : ∃ u, 1000 ≤ u ∧ ∃ s',
    twoTop.run (unpowered 2) (fun _ => (0, 0)) (fun _ => noTarget) ⟨fun _ => noInitiator, fun _ => noTarget⟩
      (fun _ i => if i = master1 then (6, 4) else (15, 10)) u = .ok s' ∧ (s'.master master0).rFsm = .display ∧
      (s'.master master0).rRes.toNat = Nat.gcd (s'.master master0).rOpa.toNat (s'.master master0).rOpb.toNat :=
  twoTop.two_display _ _ _ _ _ (fun _ => by decide) master0 1000

end ParallelPlatform
end Tp2
end Smc
