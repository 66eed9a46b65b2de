/-
# The parallel platform of TP2

Any number of masters and as many coprocessors around one bus, master `i`
working with coprocessor `i` (`TP2/TP2_etudiant/tp2_parallel_top.cpp`, which
has three). The components share the bus only: a grant opens the link between
a master and its own coprocessor for one command and its response, so each
pair keeps its dialogue (`InProtocol`) whatever the order of the grants.

Key definitions: `ParallelPlatform.cycle`, `ParallelPlatform.Inv`.
Key theorems: `ParallelPlatform.inv_cycle`, `ParallelPlatform.displays_gcd`.
-/
import Smc.Tp2.GcdProtocol
import Smc.Tp2.VciVgsb

namespace Smc
namespace Tp2

open VciGcdCoprocessor (Refines Fault)
open VciGcdMaster (offered awaited)
open VciVgsb (Bus Ports driveTarget driveInitiator)

/-- The constants of a platform of `n` pairs: the sixteen bytes from a
master's base are addresses that the bus routes to its coprocessor. -/
structure ParallelPlatform (n : ℕ) where
  bus : VciVgsb
  master : Fin n → VciGcdMaster.Const
  nbInitiator : bus.mNbInitiator = n
  nbTarget : bus.mNbTarget = n
  range : ∀ i, (master i).mBase.toNat + 16 ≤ 2 ^ 32
  routed : ∀ i, ∀ x < 16, bus.route ((master i).mBase + BitVec.ofNat 32 x) = i

namespace ParallelPlatform

/-- The registers of the components and the signals the masters drove last. -/
structure State (n : ℕ) where
  master : Fin n → VciGcdMaster.Regs
  coproc : Fin n → VciGcdCoprocessor.Regs
  bus : Bus
  signals : Fin n → InitiatorSignals

variable {n : ℕ} (k : ParallelPlatform n)

/-- A port with nothing on it. -/
def noInitiator : InitiatorSignals where
  cmdval := false
  cmdFlit :=
    { address := 0, be := 0, cmd := .nop, contig := false, wdata := 0, eop := false, plen := 0,
      srcid := 0, trdid := 0, pktid := 0 }
  rspack := false
  cons := false
  wrap := false
  cfixed := false
  clen := 0

/-- A port with nothing on it. -/
def noTarget : TargetSignals where
  cmdack := false
  rspval := false
  rspFlit := { rdata := 0, reop := false, rerror := 0, rsrcid := 0, rtrdid := 0, rpktid := 0 }

/-- What master `i` drives in a cycle. -/
def drives (s : State n) (i : Fin n) : InitiatorSignals :=
  VciGcdMaster.genMoore (k.master i) (s.master i) (s.signals i)

/-- The bus's ports, wired to the components. -/
def ports (s : State n) : Ports where
  initiator x := if h : x < n then k.drives s ⟨x, h⟩ else noInitiator
  target x := if h : x < n then VciGcdCoprocessor.genMoore (s.coproc ⟨x, h⟩) else noTarget

/-- A cycle: the outputs settle, then the clock edge. `rnd` is what the
masters in `RANDOM` draw. -/
def cycle (s : State n) (rnd : Fin n → Data × Data) : Except Fault (State n) := do
  let coproc ← Clocked.allOk fun i =>
    VciGcdCoprocessor.transition (gcdSegment (k.master i).mBase) true (s.coproc i)
      (driveTarget s.bus (k.ports s) i)
  pure
    { master := fun i =>
        VciGcdMaster.transition true (rnd i) (s.master i) (driveInitiator s.bus (k.ports s) i)
      coproc := coproc
      bus := k.bus.cycle s.bus (k.ports s)
      signals := k.drives s }

/-- The platform after the reset edge, from arbitrary registers and signals. -/
def reset (s : State n) (rnd : Fin n → Data × Data) (o : Fin n → TargetSignals) (p : Ports) : State n where
  master i := VciGcdMaster.transition false (rnd i) (s.master i) (o i)
  coproc i := VciGcdCoprocessor.afterReset (s.coproc i)
  bus := k.bus.reset s.bus p
  signals := s.signals

/-! ### Whom the bus serves -/

/-- What every reached state satisfies. Each pair is in its dialogue; the bus
is in `CMD` for a pair whose master offers a command, in `RSP` for the one
pair whose master awaits a response. -/
structure Inv (s : State n) : Prop where
  pair : ∀ i, ∃ σ, Refines (s.coproc i) σ ∧ InProtocol (s.master i) σ
  cmd : s.bus.regs.rFsm = .cmd → ∃ i : Fin n,
    s.bus.regs.rInitiatorIndex = i ∧ s.bus.regs.rTargetIndex = i ∧ (offered (s.master i)).isSome = true
  rsp : s.bus.regs.rFsm = .rsp → ∃ i : Fin n,
    s.bus.regs.rInitiatorIndex = i ∧ s.bus.regs.rTargetIndex = i ∧ (awaited (s.master i)).isSome = true
  awaits : ∀ i, (awaited (s.master i)).isSome = true →
    s.bus.regs.rFsm = .rsp ∧ s.bus.regs.rInitiatorIndex = i

theorem inv_reset (s : State n) (rnd : Fin n → Data × Data) (o : Fin n → TargetSignals) (p : Ports) :
    Inv (k.reset s rnd o p) where
  pair i := ⟨_, VciGcdCoprocessor.refines_reset (s.coproc i), rfl, rfl⟩
  cmd h := by cases h
  rsp h := by cases h
  awaits i h := by cases h

theorem ports_initiator (s : State n) (i : Fin n) : (k.ports s).initiator i = k.drives s i := by
  simp [ports]

theorem ports_target (s : State n) (i : Fin n) :
    (k.ports s).target i = VciGcdCoprocessor.genMoore (s.coproc i) := by
  simp [ports]

section Link

variable {s : State n} (h : Inv s)
include h

/-- The bus is a link between master `i` and coprocessor `i`, open for
commands in `CMD` and for responses in `RSP` when it serves `i`. -/
theorem link (i : Fin n) :
    Link (decide (s.bus.regs.rFsm = .cmd ∧ i.val = s.bus.regs.rInitiatorIndex))
      (decide (s.bus.regs.rFsm = .rsp ∧ i.val = s.bus.regs.rInitiatorIndex))
      (k.drives s i) (driveTarget s.bus (k.ports s) i)
      (VciGcdCoprocessor.genMoore (s.coproc i)) (driveInitiator s.bus (k.ports s) i) := by
  have same : s.bus.regs.rFsm = .cmd ∨ s.bus.regs.rFsm = .rsp →
      s.bus.regs.rTargetIndex = s.bus.regs.rInitiatorIndex := by
    rintro (hf | hf)
    · obtain ⟨j, h1, h2, -⟩ := h.cmd hf
      rw [h1, h2]
    · obtain ⟨j, h1, h2, -⟩ := h.rsp hf
      rw [h1, h2]
  have ini : i.val = s.bus.regs.rInitiatorIndex →
      (k.ports s).initiator s.bus.regs.rInitiatorIndex = k.drives s i := fun hi => by
    rw [← hi, k.ports_initiator]
  have tgt : i.val = s.bus.regs.rInitiatorIndex →
      (k.ports s).target s.bus.regs.rInitiatorIndex = VciGcdCoprocessor.genMoore (s.coproc i) := fun hi => by
    rw [← hi, k.ports_target]
  refine ⟨?_, ?_, ?_, ?_, ?_, ?_⟩
  · rw [VciVgsb.driveTarget_cmdval]
    by_cases hf : s.bus.regs.rFsm = .cmd
    · rw [same (.inl hf)]
      by_cases hi : i.val = s.bus.regs.rInitiatorIndex
      · rw [ini hi]
      · simp [hi]
    · simp [hf]
  · intro hc
    obtain ⟨hf, hi⟩ := of_decide_eq_true hc
    rw [VciVgsb.driveTarget_cmdFlit _ _ _ hf (by rw [same (.inl hf), hi]), ini hi]
  · rw [VciVgsb.driveTarget_rspack]
    by_cases hf : s.bus.regs.rFsm = .rsp
    · rw [same (.inr hf)]
      by_cases hi : i.val = s.bus.regs.rInitiatorIndex
      · rw [ini hi]
      · simp [hi]
    · simp [hf]
  · rw [VciVgsb.driveInitiator_cmdack]
    by_cases hf : s.bus.regs.rFsm = .cmd
    · rw [same (.inl hf)]
      by_cases hi : i.val = s.bus.regs.rInitiatorIndex
      · rw [tgt hi]
      · simp [hi]
    · simp [hf]
  · rw [VciVgsb.driveInitiator_rspval]
    by_cases hf : s.bus.regs.rFsm = .rsp
    · rw [same (.inr hf)]
      by_cases hi : i.val = s.bus.regs.rInitiatorIndex
      · rw [tgt hi]
      · simp [hi]
    · simp [hf]
  · intro hc
    obtain ⟨hf, hi⟩ := of_decide_eq_true hc
    rw [VciVgsb.driveInitiator_rspFlit _ _ _ hf hi, same (.inr hf), tgt hi]

/-- What master `i` awaits after an edge: the command it offers, if the bus
passes it in this cycle. -/
theorem awaited_next (rnd : Data × Data) (i : Fin n) :
    awaited (VciGcdMaster.transition true rnd (s.master i) (driveInitiator s.bus (k.ports s) i)) =
      if s.bus.regs.rFsm = .cmd ∧ i.val = s.bus.regs.rInitiatorIndex then offered (s.master i) else none := by
  obtain ⟨σ, hr, hp⟩ := h.pair i
  have hl := k.link h i
  rw [VciGcdMaster.awaited_transition, hl.cmdack, hl.rspval, cmdack_eq_awaited_isNone hr hp,
    rspval_eq_awaited_isSome hr hp]
  cases haw : awaited (s.master i) with
  | none => cases hof : offered (s.master i) <;> simp
  | some op =>
    have hw := h.awaits i (by rw [haw]; rfl)
    simp [hw.1, hw.2]

end Link

/-- A grant is to a master that offers a command, for its own coprocessor. -/
theorem grant_own {s : State n} {r j : ℕ} (hj : k.bus.arbitrate r (k.ports s) = some j) :
    ∃ i : Fin n, i.val = j ∧ (offered (s.master i)).isSome = true ∧
      k.bus.route ((k.ports s).initiator j).cmdFlit.address = i := by
  obtain ⟨hlt, hval⟩ := k.bus.arbitrate_lt hj
  rw [k.nbInitiator] at hlt
  have hi : (k.ports s).initiator j = k.drives s ⟨j, hlt⟩ := k.ports_initiator s ⟨j, hlt⟩
  rw [hi, drives, VciGcdMaster.genMoore_cmdval] at hval
  obtain ⟨r, hr⟩ := VciGcdMaster.genMoore_address (k.master ⟨j, hlt⟩) _ (s.signals ⟨j, hlt⟩) hval
  have := r.offset_lt
  refine ⟨⟨j, hlt⟩, rfl, hval, ?_⟩
  rw [hi, drives, hr, k.routed ⟨j, hlt⟩ _ (by omega)]

/-! ### One cycle, by what the bus does -/

/-- A cycle in which no coprocessor fails. -/
structure Edge (s s' : State n) (rnd : Fin n → Data × Data) : Prop where
  ok : k.cycle s rnd = .ok s'
  pair : ∀ i, ∃ σ, Refines (s'.coproc i) σ ∧ InProtocol (s'.master i) σ
  master : ∀ i, s'.master i =
    VciGcdMaster.transition true (rnd i) (s.master i) (driveInitiator s.bus (k.ports s) i)
  bus : s'.bus.regs = k.bus.transition true s.bus.regs (k.ports s)

section Cycle

variable {k} {s s' : State n} {rnd : Fin n → Data × Data} (h : Inv s)
include h

theorem exists_edge (rnd : Fin n → Data × Data) : ∃ s', k.Edge s s' rnd := by
  have step : ∀ i, ∃ c σ, VciGcdCoprocessor.transition (gcdSegment (k.master i).mBase) true (s.coproc i)
      (driveTarget s.bus (k.ports s) i) = .ok c ∧ Refines c σ ∧
      InProtocol (VciGcdMaster.transition true (rnd i) (s.master i) (driveInitiator s.bus (k.ports s) i)) σ := by
    intro i
    obtain ⟨σ, hr, hp⟩ := h.pair i
    exact protocol_step (rnd i) (k.range i) (k.link h i) hr hp
  choose c σ hc hr hp using step
  have hok : k.cycle s rnd = .ok
      { master := fun i =>
          VciGcdMaster.transition true (rnd i) (s.master i) (driveInitiator s.bus (k.ports s) i)
        coproc := c
        bus := k.bus.cycle s.bus (k.ports s)
        signals := k.drives s } := by
    rw [cycle, Clocked.allOk_of_forall hc]
    rfl
  exact ⟨_, hok, fun i => ⟨σ i, hr i, hp i⟩, fun _ => rfl, rfl⟩

theorem Edge.awaited (he : k.Edge s s' rnd) (i : Fin n) : VciGcdMaster.awaited (s'.master i) =
    if s.bus.regs.rFsm = .cmd ∧ i.val = s.bus.regs.rInitiatorIndex then offered (s.master i) else none := by
  rw [he.master i]
  exact k.awaited_next h (rnd i) i

/-- Outside `CMD` no command is taken, so nothing is awaited next. -/
theorem Edge.not_awaits (he : k.Edge s s' rnd) (hf : s.bus.regs.rFsm ≠ .cmd) (i : Fin n) :
    ¬ (VciGcdMaster.awaited (s'.master i)).isSome = true := by
  rw [he.awaited h i, if_neg fun hc => hf hc.1]
  nofun

theorem inv_idle (he : k.Edge s s' rnd) (hf : s.bus.regs.rFsm = .idle) : Inv s' := by
  have hno := he.not_awaits h (by rw [hf]; nofun)
  rcases k.bus.transition_idle (p := k.ports s) hf with ⟨j, hj, ht⟩ | ⟨-, ht⟩
  · obtain ⟨i, rfl, hof, hro⟩ := k.grant_own hj
    have hcmd : s'.bus.regs.rFsm = .cmd := by rw [he.bus, ht]; rfl
    have hack : (driveInitiator s.bus (k.ports s) i).cmdack = false := by
      rw [(k.link h i).cmdack]
      simp [hf]
    refine ⟨he.pair, fun _ => ⟨i, ?_, ?_, ?_⟩, fun hc => ?_, fun i hi => absurd hi (hno i)⟩
    · rw [he.bus, ht]; rfl
    · rw [he.bus, ht]; exact hro
    · rw [he.master i, VciGcdMaster.offered_transition hof hack]
      exact hof
    · rw [hcmd] at hc; cases hc
  · have hidle : s'.bus.regs.rFsm = .idle := by rw [he.bus, ht, hf]
    refine ⟨he.pair, fun hc => ?_, fun hc => ?_, fun i hi => absurd hi (hno i)⟩
    · rw [hidle] at hc; cases hc
    · rw [hidle] at hc; cases hc

theorem inv_cmd (he : k.Edge s s' rnd) (hf : s.bus.regs.rFsm = .cmd) : Inv s' := by
  obtain ⟨i, hi, ht, hof⟩ := h.cmd hf
  obtain ⟨σ, hr, hp⟩ := h.pair i
  have hnone : (VciGcdMaster.awaited (s.master i)).isNone = true := by
    rw [← Option.not_isSome, Bool.not_eq_true', ← Bool.not_eq_true]
    intro haw
    have := (h.awaits i haw).1
    rw [hf] at this
    cases this
  -- the coprocessor is ready and the command is one flit: the phase ends at once
  have hends : VciVgsb.cmdEnds s.bus.regs (k.ports s) = true := by
    rw [VciVgsb.cmdEnds, hi, ht, k.ports_initiator, k.ports_target, drives, VciGcdMaster.genMoore_eop,
      VciGcdMaster.genMoore_cmdval, hof, cmdack_eq_awaited_isNone hr hp, hnone]
    rfl
  have hbus : s'.bus.regs = { s.bus.regs with rFsm := .rsp } := by
    rw [he.bus, k.bus.transition_cmd hf, if_pos hends]
  refine ⟨he.pair, fun hc => ?_, fun _ => ⟨i, ?_, ?_, ?_⟩, fun j hj => ?_⟩
  · rw [hbus] at hc; cases hc
  · rw [hbus]; exact hi
  · rw [hbus]; exact ht
  · rw [he.awaited h i, if_pos ⟨hf, hi.symm⟩]
    exact hof
  · rw [he.awaited h j] at hj
    split_ifs at hj with hc
    · rw [hbus]
      exact ⟨rfl, hc.2.symm⟩
    · cases hj

theorem inv_rsp (he : k.Edge s s' rnd) (hf : s.bus.regs.rFsm = .rsp) : Inv s' := by
  obtain ⟨i, hi, ht, hwt⟩ := h.rsp hf
  obtain ⟨op, ho⟩ := Option.isSome_iff_exists.mp hwt
  obtain ⟨σ, hr, hp⟩ := h.pair i
  have hno := he.not_awaits h (by rw [hf]; nofun)
  have hends : VciVgsb.rspEnds s.bus.regs (k.ports s) = true := by
    rw [VciVgsb.rspEnds, hi, ht, k.ports_initiator, k.ports_target, drives, VciGcdMaster.genMoore_rspack,
      VciGcdMaster.offered_isNone_of_awaited ho, rspval_eq_awaited_isSome hr hp, hwt,
      VciGcdCoprocessor.genMoore_reop]
    rfl
  have hidle : s'.bus.regs.rFsm = .idle := by
    rcases k.bus.transition_rsp (p := k.ports s) hf with ⟨-, ht⟩ | ⟨hne, -⟩
    · rw [he.bus, ht]
    · rw [hends] at hne; cases hne
  refine ⟨he.pair, fun hc => ?_, fun hc => ?_, fun i hi => absurd hi (hno i)⟩
  · rw [hidle] at hc; cases hc
  · rw [hidle] at hc; cases hc

/-- **One cycle.** No coprocessor fails and the invariant is kept. -/
theorem inv_cycle (rnd : Fin n → Data × Data) : ∃ s', k.cycle s rnd = .ok s' ∧ Inv s' := by
  obtain ⟨s', he⟩ := exists_edge (k := k) h rnd
  refine ⟨s', he.ok, ?_⟩
  cases hf : s.bus.regs.rFsm with
  | idle => exact inv_idle h he hf
  | cmd => exact inv_cmd h he hf
  | rsp => exact inv_rsp h he hf

end Cycle

/-! ### Runs from reset -/

/-- The run from reset, under what the masters draw in each cycle. -/
def run (s : State n) (rnd : Fin n → Data × Data) (o : Fin n → TargetSignals) (p : Ports)
    (d : ℕ → Fin n → Data × Data) : ℕ → Except Fault (State n) :=
  Clocked.runE k.cycle (k.reset s rnd o p) d

/-- **Every master displays the divisor of its own operands.** In every cycle
of every run from reset, from arbitrary registers and for arbitrary draws, no
coprocessor has failed its assert or exited, and a master in `DISPLAY` holds
the divisor of its operands. -/
theorem displays_gcd (s : State n) (rnd : Fin n → Data × Data) (o : Fin n → TargetSignals) (p : Ports)
    (d : ℕ → Fin n → Data × Data) (t : ℕ) : ∃ s', k.run s rnd o p d t = .ok s' ∧
      ∀ i, (s'.master i).rFsm = .display →
        (s'.master i).rRes.toNat = Nat.gcd (s'.master i).rOpa.toNat (s'.master i).rOpb.toNat := by
  obtain ⟨s', hs', hinv⟩ : ∃ s', k.run s rnd o p d t = .ok s' ∧ Inv s' :=
    Clocked.runE_inv (fun _ => Inv) (k.inv_reset s rnd o p) (fun t x _ hx => inv_cycle hx (d t)) t
  refine ⟨s', hs', fun i hi => ?_⟩
  obtain ⟨σ, -, hp⟩ := hinv.pair i
  have hf := hp.follows
  simp only [Follows, hi] at hf
  rw [hf.2, SubGcd.toNat_gcd]

/-- The platform of `tp2_parallel_top.cpp`: three pairs, routed by the eight
high bits of the address. -/
def parallelTop : ParallelPlatform 3 where
  bus :=
    { mNbInitiator := 3
      mNbTarget := 3
      mRoutingTable :=
        { mUseBits := 8
          mDropBits := 24
          mLowMask := 255
          mTable := fun e => if e = 0x10 then 1 else if e = 0x20 then 2 else 0
          lowMask_eq := rfl }
      routes := by
        intro e _
        dsimp only
        split_ifs <;> decide }
  master i := { mSrcid := BitVec.ofNat 12 i, mBase := BitVec.ofNat 32 (0x10000000 * i) }
  nbInitiator := rfl
  nbTarget := rfl
  range := by decide
  routed := by decide

end ParallelPlatform
end Tp2
end Smc
