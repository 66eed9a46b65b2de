/-
# The bus of TP2

`VciVgsb` connects VCI initiators to VCI targets, one transaction at a time
(`TP2/TP2_etudiant/vci_vgsb.cpp`). Its automaton has three states: in `IDLE`
it looks for an initiator that asks, from the one after the last served; in
`CMD` it passes the command packet to the target of the address, in `RSP` the
response packet back. The data path is four multiplexers (`genMealy_*`),
combinational in the ports and controlled by the two index registers.

At the end of a response the loop of `RSP` looks for the next initiator as
the loop of `IDLE` does, and enters `CMD`; but the assignment after the loop
then sets the automaton to `IDLE`. `transition` keeps both assignments, in
their order.
-/
import Smc.Lib.Clocked
import Smc.Tp2.AddressDecodingTable
import Smc.Tp2.VciSignals

namespace Smc
namespace Tp2

/-- A bus: its constants, with a routing table that names targets only. -/
structure VciVgsb where
  mNbInitiator : ℕ
  mNbTarget : ℕ
  mRoutingTable : AddressDecodingTable (BitVec 32)
  routes : ∀ e < 2 ^ mRoutingTable.mUseBits,
    0 ≤ (mRoutingTable.mTable e).toInt ∧ (mRoutingTable.mTable e).toInt < mNbTarget

namespace VciVgsb

/-- `vgsb_fms_state_e`. -/
inductive Fsm where
  | idle
  | cmd
  | rsp
deriving DecidableEq, Repr

/-- The registers. -/
structure Regs where
  rFsm : Fsm
  rInitiatorIndex : ℕ
  rTargetIndex : ℕ
  rVciCounter : ℕ → ℕ → BitVec 32

/-- What the components drive on the bus's ports: the initiators on
`p_to_initiator`, the targets on `p_to_target`. -/
structure Ports where
  initiator : ℕ → InitiatorSignals
  target : ℕ → TargetSignals

variable (k : VciVgsb)

/-- The target of an address, `m_routing_table[address]` as a `size_t`. -/
def route (address : Addr) : ℕ := (k.mRoutingTable.get address).toNat

theorem route_lt (address : Addr) : k.route address < k.mNbTarget := by
  obtain ⟨h0, hn⟩ := k.routes _ (k.mRoutingTable.id_lt address)
  exact AddressDecodingTable.toNat_lt_of_toInt h0 hn

/-- The loop over the initiators: the first that asks, from the one after `r`. -/
def arbitrate (r : ℕ) (p : Ports) : Option ℕ :=
  ((List.range k.mNbInitiator).find? fun x => (p.initiator ((x + 1 + r) % k.mNbInitiator)).cmdval).map
    fun x => (x + 1 + r) % k.mNbInitiator

/-- The body of the loop: initiator `ini` gets the bus. -/
def grant (s : Regs) (p : Ports) (ini : ℕ) : Regs :=
  let tgt := k.route (p.initiator ini).cmdFlit.address
  { rFsm := .cmd
    rInitiatorIndex := ini
    rTargetIndex := tgt
    rVciCounter := fun i j =>
      if i = ini ∧ j = tgt then s.rVciCounter ini tgt + 1 else s.rVciCounter i j }

/-- The command packet ends in this cycle. -/
def cmdEnds (s : Regs) (p : Ports) : Bool :=
  (p.initiator s.rInitiatorIndex).cmdFlit.eop && (p.initiator s.rInitiatorIndex).cmdval &&
    (p.target s.rTargetIndex).cmdack

/-- The response packet ends in this cycle. -/
def rspEnds (s : Regs) (p : Ports) : Bool :=
  (p.target s.rTargetIndex).rspFlit.reop && (p.target s.rTargetIndex).rspval &&
    (p.initiator s.rInitiatorIndex).rspack

def transition (resetn : Bool) (s : Regs) (p : Ports) : Regs :=
  if !resetn then
    { rFsm := .idle
      rInitiatorIndex := 0
      rTargetIndex := 0
      rVciCounter := fun i j => if i < k.mNbInitiator ∧ j < k.mNbTarget then 0 else s.rVciCounter i j }
  else match s.rFsm with
  | .idle =>
    match k.arbitrate s.rInitiatorIndex p with
    | some ini => k.grant s p ini
    | none => s
  | .cmd => if cmdEnds s p then { s with rFsm := .rsp } else s
  | .rsp =>
    if rspEnds s p then
      let s' := match k.arbitrate s.rInitiatorIndex p with
        | some ini => k.grant s p ini
        | none => s
      { s' with rFsm := .idle }
    else s

/-! ### The multiplexers

Each writes some signals of port `x`, for every `x` of its loop, and leaves
the others as they were (`prev`). -/

def genMealyCmdval (s : Regs) (p : Ports) (prev : InitiatorSignals) (x : ℕ) : InitiatorSignals :=
  if s.rFsm = .cmd then
    if x = s.rTargetIndex then { prev with
      cmdval := (p.initiator s.rInitiatorIndex).cmdval
      cmdFlit := (p.initiator s.rInitiatorIndex).cmdFlit }
    else { prev with cmdval := false }
  else { prev with cmdval := false }

def genMealyRspack (s : Regs) (p : Ports) (prev : InitiatorSignals) (x : ℕ) : InitiatorSignals :=
  if s.rFsm = .rsp then
    if x = s.rTargetIndex then { prev with rspack := (p.initiator s.rInitiatorIndex).rspack }
    else { prev with rspack := false }
  else { prev with rspack := false }

def genMealyCmdack (s : Regs) (p : Ports) (prev : TargetSignals) (x : ℕ) : TargetSignals :=
  if s.rFsm = .cmd then
    if x = s.rInitiatorIndex then { prev with cmdack := (p.target s.rTargetIndex).cmdack }
    else { prev with cmdack := false }
  else { prev with cmdack := false }

def genMealyRspval (s : Regs) (p : Ports) (prev : TargetSignals) (x : ℕ) : TargetSignals :=
  if s.rFsm = .rsp then
    if x = s.rInitiatorIndex then { prev with
      rspval := (p.target s.rTargetIndex).rspval
      rspFlit := (p.target s.rTargetIndex).rspFlit }
    else { prev with rspval := false }
  else { prev with rspval := false }

/-- The registers and the signals the bus drove last. -/
structure Bus where
  regs : Regs
  toTarget : ℕ → InitiatorSignals
  toInitiator : ℕ → TargetSignals

/-- What the bus drives on the targets' ports in a cycle. -/
def driveTarget (b : Bus) (p : Ports) (x : ℕ) : InitiatorSignals :=
  genMealyRspack b.regs p (genMealyCmdval b.regs p (b.toTarget x) x) x

/-- What the bus drives on the initiators' ports in a cycle. -/
def driveInitiator (b : Bus) (p : Ports) (x : ℕ) : TargetSignals :=
  genMealyRspval b.regs p (genMealyCmdack b.regs p (b.toInitiator x) x) x

/-- A cycle: the multiplexers settle, then the clock edge. -/
def cycle (b : Bus) (p : Ports) : Bus where
  regs := k.transition true b.regs p
  toTarget := driveTarget b p
  toInitiator := driveInitiator b p

/-- The bus after the reset edge. -/
def reset (b : Bus) (p : Ports) : Bus := { b with regs := k.transition false b.regs p }

/-! ### What is driven, by state -/

section Drive

variable (b : Bus) (p : Ports) (x : ℕ)

theorem driveTarget_cmdval : (driveTarget b p x).cmdval =
    (decide (b.regs.rFsm = .cmd ∧ x = b.regs.rTargetIndex) && (p.initiator b.regs.rInitiatorIndex).cmdval) := by
  unfold driveTarget genMealyRspack genMealyCmdval
  split_ifs <;> simp_all

theorem driveTarget_cmdFlit (h : b.regs.rFsm = .cmd) (hx : x = b.regs.rTargetIndex) :
    (driveTarget b p x).cmdFlit = (p.initiator b.regs.rInitiatorIndex).cmdFlit := by
  simp [driveTarget, genMealyRspack, genMealyCmdval, h, hx]

theorem driveTarget_rspack : (driveTarget b p x).rspack =
    (decide (b.regs.rFsm = .rsp ∧ x = b.regs.rTargetIndex) && (p.initiator b.regs.rInitiatorIndex).rspack) := by
  unfold driveTarget genMealyRspack genMealyCmdval
  split_ifs <;> simp_all

theorem driveInitiator_cmdack : (driveInitiator b p x).cmdack =
    (decide (b.regs.rFsm = .cmd ∧ x = b.regs.rInitiatorIndex) && (p.target b.regs.rTargetIndex).cmdack) := by
  unfold driveInitiator genMealyRspval genMealyCmdack
  split_ifs <;> simp_all

theorem driveInitiator_rspval : (driveInitiator b p x).rspval =
    (decide (b.regs.rFsm = .rsp ∧ x = b.regs.rInitiatorIndex) && (p.target b.regs.rTargetIndex).rspval) := by
  unfold driveInitiator genMealyRspval genMealyCmdack
  split_ifs <;> simp_all

theorem driveInitiator_rspFlit (h : b.regs.rFsm = .rsp) (hx : x = b.regs.rInitiatorIndex) :
    (driveInitiator b p x).rspFlit = (p.target b.regs.rTargetIndex).rspFlit := by
  simp [driveInitiator, genMealyRspval, genMealyCmdack, h, hx]

end Drive

/-! ### Arbitration -/

theorem arbitrate_eq_some {r j : ℕ} {p : Ports} (h : k.arbitrate r p = some j) :
    ∃ x < k.mNbInitiator, j = (x + 1 + r) % k.mNbInitiator ∧ (p.initiator j).cmdval = true ∧
      ∀ y < x, (p.initiator ((y + 1 + r) % k.mNbInitiator)).cmdval = false := by
  simp only [arbitrate, Option.map_eq_some_iff, List.find?_range_eq_some] at h
  obtain ⟨x, ⟨hx, hm, hy⟩, rfl⟩ := h
  exact ⟨x, List.mem_range.mp hm, rfl, hx, fun y hlt => by simpa using hy y hlt⟩

theorem arbitrate_lt {r j : ℕ} {p : Ports} (h : k.arbitrate r p = some j) :
    j < k.mNbInitiator ∧ (p.initiator j).cmdval = true := by
  obtain ⟨x, hx, hj, hc, -⟩ := k.arbitrate_eq_some h
  exact ⟨hj ▸ Nat.mod_lt _ (by omega), hc⟩

/-- What an edge does, state by state. -/
theorem transition_idle {s : Regs} {p : Ports} (h : s.rFsm = .idle) :
    (∃ j, k.arbitrate s.rInitiatorIndex p = some j ∧ k.transition true s p = k.grant s p j) ∨
      (k.arbitrate s.rInitiatorIndex p = none ∧ k.transition true s p = s) := by
  simp only [transition, h, Bool.not_true, Bool.false_eq_true, ↓reduceIte]
  cases k.arbitrate s.rInitiatorIndex p with
  | some j => exact .inl ⟨j, rfl, rfl⟩
  | none => exact .inr ⟨rfl, rfl⟩

theorem transition_cmd {s : Regs} {p : Ports} (h : s.rFsm = .cmd) :
    k.transition true s p = if cmdEnds s p then { s with rFsm := .rsp } else s := by
  simp [transition, h]

theorem transition_rsp {s : Regs} {p : Ports} (h : s.rFsm = .rsp) :
    (rspEnds s p = true ∧ k.transition true s p =
      { (match k.arbitrate s.rInitiatorIndex p with | some j => k.grant s p j | none => s) with rFsm := .idle }) ∨
      (rspEnds s p = false ∧ k.transition true s p = s) := by
  simp only [transition, h, Bool.not_true, Bool.false_eq_true, ↓reduceIte]
  cases he : rspEnds s p with
  | true => exact .inl ⟨rfl, rfl⟩
  | false => exact .inr ⟨rfl, rfl⟩

end VciVgsb
end Tp2
end Smc
