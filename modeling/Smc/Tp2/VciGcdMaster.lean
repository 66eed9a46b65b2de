/-
# The VCI master of TP2

`VciGcdMaster` draws two operands, writes them in the coprocessor's `OPA` and
`OPB` registers, writes `START`, reads `STATUS` until it is zero, reads the
result in `OPA` and displays it (`TP2/TP2_etudiant/vci_gcd_master.cpp`). Each
command is one flit, offered until it is taken; the response is awaited before
the next command.
-/
import Smc.Display
import Smc.Tp2.VciSignals

namespace Smc
namespace Tp2

/-- The word offsets of the coprocessor's registers (`SoclibLcdRegisters` in
`gcd.h`). -/
inductive GcdReg where
  | opa
  | opb
  | start
  | status
deriving DecidableEq, Repr

def GcdReg.offset : GcdReg → ℕ
  | .opa => 0
  | .opb => 1
  | .start => 2
  | .status => 3

theorem GcdReg.offset_lt (r : GcdReg) : r.offset < 4 := by cases r <;> decide

theorem GcdReg.offset_inj {r r' : GcdReg} (h : r.offset = r'.offset) : r = r' := by
  cases r <;> cases r' <;> first | rfl | cases h

namespace VciGcdMaster

/-- `vci_gcd_master_fsm_state_e`. -/
inductive Fsm where
  | random
  | cmdOpa
  | rspOpa
  | cmdOpb
  | rspOpb
  | cmdStart
  | rspStart
  | cmdStatus
  | rspStatus
  | cmdResult
  | rspResult
  | display
deriving DecidableEq, Repr

/-- The constants of an instance. -/
structure Const where
  mSrcid : BitVec 12
  mBase : Addr
deriving DecidableEq, Repr

/-- The registers. -/
structure Regs where
  rFsm : Fsm
  rOpa : Data
  rOpb : Data
  rRes : Data
  rCycle : BitVec 32
  rIter : BitVec 32
deriving DecidableEq, Repr

/-- The clock edge. `rnd` is the pair of `rand() + 1` values drawn if the
master is in `RANDOM`. -/
def transition (resetn : Bool) (rnd : Data × Data) (s : Regs) (i : TargetSignals) : Regs :=
  if !resetn then { s with rFsm := .random, rCycle := 0, rIter := 0 }
  else
    let s' := match s.rFsm with
      | .random => { s with rIter := s.rIter + 1, rOpa := rnd.1, rOpb := rnd.2, rFsm := .cmdOpa }
      | .cmdOpa => if i.cmdack then { s with rFsm := .rspOpa } else s
      | .rspOpa => if i.rspval then { s with rFsm := .cmdOpb } else s
      | .cmdOpb => if i.cmdack then { s with rFsm := .rspOpb } else s
      | .rspOpb => if i.rspval then { s with rFsm := .cmdStart } else s
      | .cmdStart => if i.cmdack then { s with rFsm := .rspStart } else s
      | .rspStart => if i.rspval then { s with rFsm := .cmdStatus } else s
      | .cmdStatus => if i.cmdack then { s with rFsm := .rspStatus } else s
      | .rspStatus =>
        if i.rspval then
          if i.rspFlit.rdata = 0 then { s with rFsm := .cmdResult } else { s with rFsm := .cmdStatus }
        else s
      | .cmdResult => if i.cmdack then { s with rFsm := .rspResult } else s
      | .rspResult => if i.rspval then { s with rRes := i.rspFlit.rdata, rFsm := .display } else s
      | .display => { s with rFsm := .random }
    { s' with rCycle := s.rCycle + 1 }

/-- The line written at a clock edge. -/
def display (s : Regs) : List Line :=
  if s.rFsm = .display then
    [{ iteration := s.rIter, cycle := s.rCycle, opa := s.rOpa, opb := s.rOpb, pgcd := s.rRes }]
  else []

/-- The signals of a cycle, from the registers and the signals before: in
`RANDOM` and `DISPLAY` the command fields keep their values. -/
def genMoore (k : Const) (s : Regs) (prev : InitiatorSignals) : InitiatorSignals :=
  let flit : CmdFlit := { prev.cmdFlit with
    be := 4, plen := 4, eop := true, srcid := k.mSrcid, trdid := 0, pktid := 0, contig := true }
  let out : InitiatorSignals := { prev with
    cmdFlit := flit, cons := false, wrap := false, cfixed := false, clen := 0 }
  let offer (cmd : Cmd) (reg : GcdReg) (wdata : Data) : InitiatorSignals := { out with
    cmdval := true, rspack := false,
    cmdFlit := { flit with cmd := cmd, address := k.mBase + BitVec.ofNat 32 (4 * reg.offset), wdata := wdata } }
  match s.rFsm with
  | .random | .display => { out with cmdval := false, rspack := true }
  | .cmdOpa => offer .write .opa s.rOpa
  | .cmdOpb => offer .write .opb s.rOpb
  | .cmdStart => offer .write .start 0
  | .cmdResult => offer .read .opa 0
  | .cmdStatus => offer .read .status 0
  | .rspOpa | .rspOpb | .rspStart | .rspResult | .rspStatus => { out with
      cmdval := false, rspack := true, cmdFlit := { flit with cmd := .nop, address := 0, wdata := 0 } }

end VciGcdMaster
end Tp2
end Smc
