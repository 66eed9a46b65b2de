/-
# How long a response of the VCI coprocessor lasts

A VCI target offers a response with `rspval` until the initiator takes it
with `rspack`; meanwhile the response may not change. The coprocessor stays in
its answering state and holds the identifiers of the command in registers, but
it drives `rdata` from the registers that `EXE` goes on writing: the state of
`EXE` for `STATUS`, the first operand for `RESULT`.

`Stable` is the rule over a run from reset. `Disturbs` is the state in which
an edge breaks it: a stalled `STATUS` response when the subtraction ends, a
stalled `RESULT` response when it takes `OPB` from `OPA`.

Key theorem: `stable_iff_not_disturbed`.
-/
import Smc.Tp2.AtomicGcd

namespace Smc
namespace Tp2
namespace VciGcdCoprocessor

/-- The registers at every cycle of a run from reset, as long as the commands
are legal. -/
def runFromReset (seg : Extent) (s : Regs) (i : ℕ → InitiatorSignals) : ℕ → Except Fault Regs :=
  Clocked.runE (transition seg true) (afterReset s) i

/-- The rule in one cycle: a response offered and not taken is offered again,
the same. -/
def Holds (x y : Regs) (i : InitiatorSignals) : Prop :=
  (genMoore x).rspval = true → i.rspack = false →
    (genMoore y).rspval = true ∧ (genMoore y).rspFlit = (genMoore x).rspFlit

/-- The rule in every cycle. -/
def Stable (seg : Extent) (s : Regs) (i : ℕ → InitiatorSignals) : Prop :=
  ∀ t x y, runFromReset seg s i t = .ok x → runFromReset seg s i (t + 1) = .ok y → Holds x y (i t)

/-- A response is stalled while `EXE` changes the register it reads: the
subtraction ends under a `STATUS` response, or takes a non-zero `OPB` from
`OPA` under a `RESULT` response. -/
def Disturbs (x : Regs) (i : InitiatorSignals) : Prop :=
  i.rspack = false ∧
    ((x.rVciFsm = .rspStatus ∧ x.rExeFsm = .compare ∧ x.rOpa = x.rOpb) ∨
      (x.rVciFsm = .rspResult ∧ x.rExeFsm = .decA ∧ x.rOpb ≠ 0))

/-! ### One edge under a stalled response -/

theorem exe_rSrcid (x : Regs) : (exe x).rSrcid = x.rSrcid := by
  unfold exe
  split <;> (try split_ifs) <;> rfl

theorem exe_rTrdid (x : Regs) : (exe x).rTrdid = x.rTrdid := by
  unfold exe
  split <;> (try split_ifs) <;> rfl

theorem exe_rPktid (x : Regs) : (exe x).rPktid = x.rPktid := by
  unfold exe
  split <;> (try split_ifs) <;> rfl

/-- The subtraction ends in `EXE_COMPARE`, on equal operands. -/
theorem exe_idle_iff {x : Regs} (hx : x.rVciFsm = .rspStatus) :
    ((exe x).rExeFsm = .idle ↔ x.rExeFsm = .idle) ↔ ¬ (x.rExeFsm = .compare ∧ x.rOpa = x.rOpb) := by
  unfold exe
  cases he : x.rExeFsm with
  | idle => simp [hx, he]
  | compare =>
    by_cases heq : x.rOpa = x.rOpb
    · simp [heq]
    · have hne : x.rOpa < x.rOpb ∨ x.rOpb < x.rOpa := by bv_omega
      simp only [heq]
      split_ifs with h1 h2
      · simp
      · simp
      · exact absurd hne (by simp [h1, h2])
  | decA => simp
  | decB => simp

/-- `OPA` changes in `EXE_DECA`, unless `OPB` is zero. -/
theorem exe_rOpa_iff (x : Regs) : (exe x).rOpa = x.rOpa ↔ ¬ (x.rExeFsm = .decA ∧ x.rOpb ≠ 0) := by
  unfold exe
  cases he : x.rExeFsm with
  | idle => split_ifs <;> simp
  | compare => split_ifs <;> simp
  | decA =>
    have hsub : x.rOpa - x.rOpb = x.rOpa ↔ x.rOpb = 0 := by
      constructor
      · intro h
        bv_omega
      · intro h
        rw [h]
        exact BitVec.sub_zero _
    simp only [hsub, true_and, not_not]
  | decB => simp

/-- The response after an edge of `EXE` differs in `rdata` only. -/
theorem rspFlit_exe_iff (x : Regs) : (genMoore (exe x)).rspFlit = (genMoore x).rspFlit ↔
    (genMoore (exe x)).rspFlit.rdata = (genMoore x).rspFlit.rdata := by
  constructor
  · intro h
    rw [h]
  · intro h
    unfold genMoore at h ⊢
    rw [exe_rVciFsm] at h ⊢
    cases hv : x.rVciFsm <;> simp_all [exe_rSrcid, exe_rTrdid, exe_rPktid]

theorem rdata_exe_iff (x : Regs) : (genMoore (exe x)).rspFlit.rdata = (genMoore x).rspFlit.rdata ↔
    ¬ ((x.rVciFsm = .rspStatus ∧ x.rExeFsm = .compare ∧ x.rOpa = x.rOpb) ∨
      (x.rVciFsm = .rspResult ∧ x.rExeFsm = .decA ∧ x.rOpb ≠ 0)) := by
  unfold genMoore
  rw [exe_rVciFsm]
  cases hv : x.rVciFsm with
  | getCmd => simp
  | rspOpa => simp
  | rspOpb => simp
  | rspStart => simp
  | rspStatus =>
    have h := exe_idle_iff hv
    simp only [true_and, reduceCtorEq, false_and, or_false]
    rw [← h]
    by_cases h1 : (exe x).rExeFsm = .idle <;> by_cases h2 : x.rExeFsm = .idle <;> simp [h1, h2]
  | rspResult =>
    simp only [reduceCtorEq, false_and, true_and, false_or]
    exact exe_rOpa_iff x

/-- The edge keeps the rule exactly when it does not disturb the response. -/
theorem holds_iff {seg : Extent} {x y : Regs} {i : InitiatorSignals} (h : transition seg true x i = .ok y) :
    Holds x y i ↔ ¬ Disturbs x i := by
  unfold Holds Disturbs
  rw [genMoore_rspval, decide_eq_true_eq]
  by_cases hv : x.rVciFsm = .getCmd
  · simp [hv]
  · cases ha : i.rspack with
    | true => simp
    | false =>
      rw [transition_response hv, ha] at h
      obtain rfl : exe x = y := by simpa using h
      have hval : (genMoore (exe x)).rspval = true := by
        rw [genMoore_rspval, exe_rVciFsm]
        simpa using hv
      simp only [hval, true_and, rspFlit_exe_iff, rdata_exe_iff]
      simp [hv]

/-! ### Runs -/

/-- **A response lasts unless it is disturbed.** In every run from reset,
from arbitrary registers, under every stream of legal commands and every
pattern of stalls: the responses keep the rule in all cycles exactly when no
cycle disturbs one. -/
theorem stable_iff_not_disturbed (seg : Extent) (s : Regs) (i : ℕ → InitiatorSignals) :
    Stable seg s i ↔
      ∀ t x y, runFromReset seg s i t = .ok x → runFromReset seg s i (t + 1) = .ok y → ¬ Disturbs x (i t) := by
  have hstep : ∀ t x y, runFromReset seg s i t = .ok x → runFromReset seg s i (t + 1) = .ok y →
      (Holds x y (i t) ↔ ¬ Disturbs x (i t)) := by
    intro t x y hx hy
    apply holds_iff
    rw [← hy]
    exact (Clocked.runE_succ hx).symm
  unfold Stable
  constructor
  · intro h t x y hx hy
    exact (hstep t x y hx hy).mp (h t x y hx hy)
  · intro h t x y hx hy
    exact (hstep t x y hx hy).mpr (h t x y hx hy)

/-- An environment that writes 2 and 1, starts the coprocessor and polls
`STATUS`, but takes the answer two cycles late. -/
def lateEnv (t : ℕ) : InitiatorSignals :=
  let flit (cmd : Cmd) (reg : GcdReg) (wdata : Data) : CmdFlit :=
    { address := BitVec.ofNat 32 (4 * reg.offset), be := 4, cmd := cmd, contig := true, wdata := wdata,
      eop := true, plen := 4, srcid := 0, trdid := 0, pktid := 0 }
  let out (cmdval rspack : Bool) (f : CmdFlit) : InitiatorSignals :=
    { cmdval := cmdval, cmdFlit := f, rspack := rspack, cons := false, wrap := false, cfixed := false, clen := 0 }
  match t with
  | 0 => out true false (flit .write .opa 2)
  | 2 => out true false (flit .write .opb 1)
  | 4 => out true false (flit .write .start 0)
  | 6 => out true false (flit .read .status 0)
  | 7 | 8 => out false false (flit .nop .opa 0)
  | _ => out false true (flit .nop .opa 0)

/-- The answer under way changes from 1 to 0. -/
theorem status_changes : ¬ Stable ⟨0, 16⟩ ⟨.getCmd, .idle, 0, 0, 0, 0, 0⟩ lateEnv := by
  intro h
  have h8 : runFromReset ⟨0, 16⟩ ⟨.getCmd, .idle, 0, 0, 0, 0, 0⟩ lateEnv 8 =
      .ok ⟨.rspStatus, .compare, 0, 0, 0, 1, 1⟩ := by rfl
  have h9 : runFromReset ⟨0, 16⟩ ⟨.getCmd, .idle, 0, 0, 0, 0, 0⟩ lateEnv 9 =
      .ok ⟨.rspStatus, .idle, 0, 0, 0, 1, 1⟩ := by rfl
  have hflit := (h 8 _ _ h8 h9 rfl rfl).2
  exact absurd hflit (by decide)

end VciGcdCoprocessor
end Tp2
end Smc
