/-
# The VCI coprocessor of TP2

`VciGcdCoprocessor` is a VCI target with two automata
(`TP2/TP2_etudiant/vci_gcd_coprocessor.cpp`): `VCI` takes a command and
answers it, `EXE` subtracts until the operands are equal. Both step at every
edge, on the same operand registers: `EXE` starts when it sees `VCI` in
`RSP_START`, and in a cycle in which both write an operand the write of `VCI`
stands. A command that is not a single word of the segment fails the assert,
one that addresses no register ends the simulation.
-/
import Smc.Lib.Clocked
import Smc.Lib.SubGcd
import Smc.Tp2.VciGcdMaster

namespace Smc
namespace Tp2

open SubGcd (Loop)

namespace VciGcdCoprocessor

/-- `gcd_coproc_vci_fsm_state_e`. -/
inductive VciFsm where
  | getCmd
  | rspOpa
  | rspOpb
  | rspStart
  | rspStatus
  | rspResult
deriving DecidableEq, Repr

/-- `gcd_coproc_exe_fsm_state_e`. -/
inductive ExeFsm where
  | idle
  | compare
  | decA
  | decB
deriving DecidableEq, Repr

/-- The registers. -/
structure Regs where
  rVciFsm : VciFsm
  rExeFsm : ExeFsm
  rSrcid : BitVec 12
  rTrdid : BitVec 1
  rPktid : BitVec 1
  rOpa : Data
  rOpb : Data
deriving DecidableEq, Repr

/-- How a clock edge can end the simulation: the assert on a command fails,
or the last branch on it calls `exit(0)`. -/
inductive Fault where
  | assertFailed
  | illegalCommand
deriving DecidableEq, Repr

/-- The word a command addresses. The subtraction is made on 64 bits, the
width of the operands of `sc_uint`. -/
def cell (seg : Extent) (address : Addr) : BitVec 32 :=
  ((address.setWidth 64 - seg.mBaseAddress.setWidth 64) / 4).setWidth 32

/-- The condition of the assert: a single word of the segment. -/
def asserts (seg : Extent) (f : CmdFlit) : Bool :=
  f.eop && f.plen == 4 && f.cmd != .lockedRead && f.cmd != .storeCond && seg.contains f.address

/-- The `EXE` automaton's part of an edge. -/
def exe (s : Regs) : Regs :=
  match s.rExeFsm with
  | .idle => if s.rVciFsm = .rspStart then { s with rExeFsm := .compare } else s
  | .compare =>
    if s.rOpa < s.rOpb then { s with rExeFsm := .decB }
    else if s.rOpb < s.rOpa then { s with rExeFsm := .decA }
    else { s with rExeFsm := .idle }
  | .decA => { s with rOpa := s.rOpa - s.rOpb, rExeFsm := .compare }
  | .decB => { s with rOpb := s.rOpb - s.rOpa, rExeFsm := .compare }

/-- The clock edge. `EXE` writes first, `VCI` over it; both read `s`. -/
def transition (seg : Extent) (resetn : Bool) (s : Regs) (i : InitiatorSignals) : Except Fault Regs :=
  if !resetn then .ok { s with rVciFsm := .getCmd, rExeFsm := .idle }
  else match s.rVciFsm with
  | .getCmd =>
    if i.cmdval then
      let f := i.cmdFlit
      if asserts seg f then
        let e := { exe s with rSrcid := f.srcid, rTrdid := f.trdid, rPktid := f.pktid }
        if f.cmd = .read ∧ cell seg f.address = BitVec.ofNat 32 GcdReg.opa.offset then
          .ok { e with rVciFsm := .rspResult }
        else if f.cmd = .read ∧ cell seg f.address = BitVec.ofNat 32 GcdReg.status.offset then
          .ok { e with rVciFsm := .rspStatus }
        else if f.cmd = .write ∧ cell seg f.address = BitVec.ofNat 32 GcdReg.opa.offset then
          .ok { e with rOpa := f.wdata, rVciFsm := .rspOpa }
        else if f.cmd = .write ∧ cell seg f.address = BitVec.ofNat 32 GcdReg.opb.offset then
          .ok { e with rOpb := f.wdata, rVciFsm := .rspOpb }
        else if f.cmd = .write ∧ cell seg f.address = BitVec.ofNat 32 GcdReg.start.offset then
          .ok { e with rVciFsm := .rspStart }
        else .error .illegalCommand
      else .error .assertFailed
    else .ok (exe s)
  | .rspOpa | .rspOpb | .rspStart | .rspStatus | .rspResult =>
    .ok (if i.rspack then { exe s with rVciFsm := .getCmd } else exe s)

def genMoore (s : Regs) : TargetSignals :=
  let out (cmdack rspval : Bool) (rdata : Data) : TargetSignals :=
    { cmdack := cmdack
      rspval := rspval
      rspFlit :=
        { rdata := rdata, reop := true, rerror := 0,
          rsrcid := s.rSrcid, rtrdid := s.rTrdid, rpktid := s.rPktid } }
  match s.rVciFsm with
  | .getCmd => out true false 0
  | .rspOpa | .rspOpb | .rspStart => out false true 0
  | .rspStatus => out false true (if s.rExeFsm = .idle then 0 else 1)
  | .rspResult => out false true s.rOpa

end VciGcdCoprocessor
end Tp2
end Smc
