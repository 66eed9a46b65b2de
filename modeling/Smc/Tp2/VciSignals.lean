/-
# The VCI signals of TP2

The signals between a VCI initiator and a VCI target, with the widths of
`VciParams<4, 8, 32, 1, 1, 1, 12, 1, 1, 1>`, the parameters every component
of TP2 is instantiated with (`vci_param.h`, `vci_signals.h`), and the address
ranges the components compare addresses with (`Segment` in `segment.h`).

A flit of a command is offered with `cmdval` and taken with `cmdack`, a flit
of a response is offered with `rspval` and taken with `rspack`.
-/
import Mathlib.Tactic

namespace Smc
namespace Tp2

abbrev Addr := BitVec 32
abbrev Data := BitVec 32

/-- `cmd_t`, the two bits of `sc_uint<2>`. -/
inductive Cmd where
  | nop
  | read
  | write
  | lockedRead
deriving DecidableEq, Repr

/-- `CMD_STORE_COND = CMD_NOP`. -/
def Cmd.storeCond : Cmd := .nop

/-- The fields of a command flit that the bus carries. -/
structure CmdFlit where
  address : Addr
  be : BitVec 4
  cmd : Cmd
  contig : Bool
  wdata : Data
  eop : Bool
  plen : BitVec 8
  srcid : BitVec 12
  trdid : BitVec 1
  pktid : BitVec 1
deriving DecidableEq, Repr

/-- The fields of a response flit. -/
structure RspFlit where
  rdata : Data
  reop : Bool
  rerror : BitVec 1
  rsrcid : BitVec 12
  rtrdid : BitVec 1
  rpktid : BitVec 1
deriving DecidableEq, Repr

/-- What the initiator's side drives. The last four fields are driven by the
masters and carried by no interconnect. -/
structure InitiatorSignals where
  cmdval : Bool
  cmdFlit : CmdFlit
  rspack : Bool
  cons : Bool
  wrap : Bool
  cfixed : Bool
  clen : BitVec 1
deriving DecidableEq, Repr

/-- What the target's side drives. -/
structure TargetSignals where
  cmdack : Bool
  rspval : Bool
  rspFlit : RspFlit
deriving DecidableEq, Repr

/-! ### Address ranges -/

/-- The addresses of a segment. `addr_t` and `size_t` have 32 bits (`-m32`). -/
structure Extent where
  mBaseAddress : BitVec 32
  mSize : BitVec 32
deriving DecidableEq, Repr

namespace Extent

def contains (e : Extent) (addr : BitVec 32) : Bool :=
  decide (addr ≥ e.mBaseAddress) &&
    (decide (addr < e.mBaseAddress + e.mSize) || decide (e.mBaseAddress + e.mSize < e.mBaseAddress))

/-- A segment that does not pass the end of the address space contains its
addresses: the upper bound may wrap to zero, but not beyond. -/
theorem contains_iff {e : Extent} (h : e.mBaseAddress.toNat + e.mSize.toNat ≤ 2 ^ 32) (h0 : 0 < e.mSize.toNat)
    (addr : BitVec 32) : e.contains addr = true ↔
      e.mBaseAddress.toNat ≤ addr.toNat ∧ addr.toNat < e.mBaseAddress.toNat + e.mSize.toNat := by
  have := addr.isLt
  simp only [contains, ge_iff_le, Bool.and_eq_true, Bool.or_eq_true, decide_eq_true_eq, BitVec.le_def,
    BitVec.lt_def, BitVec.toNat_add]
  omega

end Extent
end Tp2
end Smc
