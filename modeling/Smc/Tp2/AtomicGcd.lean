/-
# The VCI coprocessor refines an atomic machine

The atomic machine has two words `a` and `b`: writing `OPA` sets `a`, writing
`OPB` sets `b`, and `START` sets both to their divisor at once. `Atomic`
follows the commands and the responses taken at the coprocessor's port; it
remembers the command being served, and whether a `START` is pending, that is
not yet confirmed by a `STATUS` response of zero. It reads the port only, not
the coprocessor's registers.

An environment keeps the rules when every command it sends addresses a
register, and none it sends while a `START` is pending writes one
(`Atomic.Permits`). Then the coprocessor refines the machine (`Refines`): with
no `START` pending its operands are the two words; while one is pending the
subtraction computes the two words, and is over when `STATUS` reads zero. A
`START` whose response is stalled restarts the subtraction on two equal
operands, which changes nothing.
-/
import Smc.Tp2.VciGcdCoprocessor

namespace Smc
namespace Tp2

open SubGcd (Loop)

/-- The commands the coprocessor serves. -/
inductive Op where
  | writeOpa (v : Data)
  | writeOpb (v : Data)
  | start
  | readStatus
  | readResult
deriving DecidableEq, Repr

/-- The commands that leave the operands alone. -/
def Op.isRead : Op → Bool
  | .readStatus | .readResult => true
  | .writeOpa _ | .writeOpb _ | .start => false

/-- The register at an address of the segment. -/
def regAt (seg : Extent) (address : Addr) : Option GcdReg :=
  if seg.contains address then
    match (address.toNat - seg.mBaseAddress.toNat) / 4 with
    | 0 => some .opa
    | 1 => some .opb
    | 2 => some .start
    | 3 => some .status
    | _ => none
  else none

/-- The command a single-word flit stands for. -/
def opOf (seg : Extent) (f : CmdFlit) : Option Op :=
  if f.eop ∧ f.plen = 4 then
    match f.cmd, regAt seg f.address with
    | .write, some .opa => some (.writeOpa f.wdata)
    | .write, some .opb => some (.writeOpb f.wdata)
    | .write, some .start => some .start
    | .read, some .opa => some .readResult
    | .read, some .status => some .readStatus
    | _, _ => none
  else none

/-- The atomic machine, and what it remembers of the port. -/
structure Atomic where
  a : Data
  b : Data
  serving : Option Op
  pending : Bool
deriving DecidableEq, Repr

namespace Atomic

/-- A command is taken. -/
def command (σ : Atomic) (op : Op) : Atomic :=
  match op with
  | .writeOpa v => { σ with a := v, serving := some op }
  | .writeOpb v => { σ with b := v, serving := some op }
  | .start => { a := SubGcd.gcd σ.a σ.b, b := SubGcd.gcd σ.a σ.b, serving := some op, pending := true }
  | .readStatus | .readResult => { σ with serving := some op }

/-- The response to the command being served is taken. -/
def response (σ : Atomic) (rdata : Data) : Atomic :=
  { σ with
    serving := none
    pending := if σ.serving = some .readStatus ∧ rdata = 0 then false else σ.pending }

/-- A cycle at the port, with what the target and the initiator drive. -/
def observe (seg : Extent) (σ : Atomic) (o : TargetSignals) (i : InitiatorSignals) : Atomic :=
  if i.cmdval && o.cmdack then
    match opOf seg i.cmdFlit with
    | some op => σ.command op
    | none => σ
  else if o.rspval && i.rspack then σ.response o.rspFlit.rdata
  else σ

/-- A command taken in this cycle addresses a register, and only reads while
a `START` is pending. -/
def Permits (seg : Extent) (σ : Atomic) (o : TargetSignals) (i : InitiatorSignals) : Prop :=
  i.cmdval = true → o.cmdack = true →
    ∃ op, opOf seg i.cmdFlit = some op ∧ (σ.pending = true → op.isRead = true)

end Atomic

namespace VciGcdCoprocessor

/-! ### A command, from the port to the registers -/

theorem cell_toNat {seg : Extent} {address : Addr} (h : seg.mBaseAddress ≤ address) :
    (cell seg address).toNat = (address.toNat - seg.mBaseAddress.toNat) / 4 := by
  have h1 := address.isLt
  have h2 := seg.mBaseAddress.isLt
  rw [BitVec.le_def] at h
  have hs : (address.setWidth 64 - seg.mBaseAddress.setWidth 64).toNat =
      address.toNat - seg.mBaseAddress.toNat := by
    rw [BitVec.toNat_sub_of_le] <;> simp only [BitVec.le_def, BitVec.toNat_setWidth] <;> omega
  rw [cell, BitVec.toNat_setWidth, BitVec.toNat_udiv, hs, show (4 : BitVec 64).toNat = 4 from rfl]
  omega

theorem cell_eq_iff {seg : Extent} {address : Addr} (h : seg.contains address = true) (k : ℕ) (hk : k < 4) :
    cell seg address = BitVec.ofNat 32 k ↔ (address.toNat - seg.mBaseAddress.toNat) / 4 = k := by
  have hle : seg.mBaseAddress ≤ address := by
    simp only [Extent.contains, Bool.and_eq_true, decide_eq_true_eq] at h
    exact h.1
  rw [BitVec.toNat_eq, cell_toNat hle, BitVec.toNat_ofNat, Nat.mod_eq_of_lt (by omega)]

theorem regAt_eq_some {seg : Extent} {address : Addr} {r : GcdReg} :
    regAt seg address = some r ↔
      seg.contains address = true ∧ (address.toNat - seg.mBaseAddress.toNat) / 4 = r.offset := by
  unfold regAt
  generalize (address.toNat - seg.mBaseAddress.toNat) / 4 = q
  split_ifs with hc
  · simp only [hc, true_and]
    split <;> cases r <;> simp_all [GcdReg.offset]
  · simp [hc]

/-- The answering state of a command. -/
def rspOf : Op → VciFsm
  | .writeOpa _ => .rspOpa
  | .writeOpb _ => .rspOpb
  | .start => .rspStart
  | .readStatus => .rspStatus
  | .readResult => .rspResult

/-- The registers after taking a command. -/
def accept (s : Regs) (f : CmdFlit) (op : Op) : Regs :=
  { exe s with
    rSrcid := f.srcid
    rTrdid := f.trdid
    rPktid := f.pktid
    rVciFsm := rspOf op
    rOpa := match op with | .writeOpa v => v | _ => (exe s).rOpa
    rOpb := match op with | .writeOpb v => v | _ => (exe s).rOpb }

/-- A command that stands for `op` passes the assert and takes the branch of
`op`. -/
theorem transition_command {seg : Extent} {s : Regs} {i : InitiatorSignals} {op : Op}
    (hs : s.rVciFsm = .getCmd) (hv : i.cmdval = true) (ho : opOf seg i.cmdFlit = some op) :
    transition seg true s i = .ok (accept s i.cmdFlit op) := by
  unfold opOf at ho
  split_ifs at ho with he
  have hc : ∀ {r : GcdReg}, regAt seg i.cmdFlit.address = some r →
      seg.contains i.cmdFlit.address = true ∧ ∀ r' : GcdReg,
        (cell seg i.cmdFlit.address = BitVec.ofNat 32 r'.offset ↔ r = r') := by
    intro r hr
    obtain ⟨h1, h2⟩ := regAt_eq_some.mp hr
    refine ⟨h1, fun r' => ?_⟩
    rw [cell_eq_iff h1 _ r'.offset_lt, h2]
    exact ⟨GcdReg.offset_inj, fun h => h ▸ rfl⟩
  split at ho <;> rename_i hcmd hreg
  case h_6 => cases ho
  all_goals
    obtain ⟨h1, h2⟩ := hc hreg
    have ha : asserts seg i.cmdFlit = true := by simp [asserts, he, hcmd, h1, Cmd.storeCond]
    simp only [Option.some.injEq] at ho
    subst ho
    simp [transition, hs, hv, ha, hcmd, h2, accept, rspOf]

theorem transition_idle {seg : Extent} {s : Regs} {i : InitiatorSignals} (hs : s.rVciFsm = .getCmd)
    (hv : i.cmdval = false) : transition seg true s i = .ok (exe s) := by
  simp [transition, hs, hv]

theorem transition_response {seg : Extent} {s : Regs} {i : InitiatorSignals} (hs : s.rVciFsm ≠ .getCmd) :
    transition seg true s i = .ok (if i.rspack then { exe s with rVciFsm := .getCmd } else exe s) := by
  unfold transition
  cases hf : s.rVciFsm <;> simp_all

theorem genMoore_cmdack (s : Regs) : (genMoore s).cmdack = decide (s.rVciFsm = .getCmd) := by
  unfold genMoore
  cases s.rVciFsm <;> rfl

theorem genMoore_rspval (s : Regs) : (genMoore s).rspval = decide (s.rVciFsm ≠ .getCmd) := by
  unfold genMoore
  cases s.rVciFsm <;> rfl

theorem genMoore_reop (s : Regs) : (genMoore s).rspFlit.reop = true := by
  unfold genMoore
  cases s.rVciFsm <;> rfl

theorem exe_rVciFsm (s : Regs) : (exe s).rVciFsm = s.rVciFsm := by
  unfold exe
  cases s.rExeFsm <;> simp only <;> split_ifs <;> rfl

/-! ### The subtraction -/

/-- The state of the loop `EXE` is in; an idle `EXE` has finished it. -/
def toLoop (s : Regs) : Loop 32 where
  phase := match s.rExeFsm with
    | .idle => .done
    | .compare => .compare
    | .decA => .decA
    | .decB => .decB
  a := s.rOpa
  b := s.rOpb

theorem toLoop_done {s : Regs} : (toLoop s).phase = .done ↔ s.rExeFsm = .idle := by
  unfold toLoop
  cases s.rExeFsm <;> simp

/-- A busy `EXE` takes the loop's step. -/
theorem toLoop_exe {s : Regs} (h : s.rExeFsm ≠ .idle) : toLoop (exe s) = (toLoop s).step := by
  unfold exe toLoop Loop.step
  cases he : s.rExeFsm with
  | idle => exact absurd he h
  | decA | decB => rfl
  | compare =>
    simp only
    split_ifs <;> rfl

/-- An idle `EXE` leaves the registers alone unless it sees `START`. -/
theorem exe_of_idle {s : Regs} (h : s.rExeFsm = .idle) (hs : s.rVciFsm ≠ .rspStart) : exe s = s := by
  simp [exe, h, hs]

/-! ### The refinement -/

/-- The coprocessor's registers stand for the atomic machine. -/
structure Refines (s : Regs) (σ : Atomic) : Prop where
  serving : s.rVciFsm = match σ.serving with | none => .getCmd | some op => rspOf op
  clear : σ.pending = false →
    s.rExeFsm = .idle ∧ s.rVciFsm ≠ .rspStart ∧ s.rOpa = σ.a ∧ s.rOpb = σ.b
  busy : σ.pending = true → σ.b = σ.a ∧
    ((s.rExeFsm = .idle ∧ s.rVciFsm = .rspStart ∧ SubGcd.gcd s.rOpa s.rOpb = σ.a) ∨
      (toLoop s).Computes σ.a)

/-- With a `START` pending, the subtraction is on its way after every edge. -/
theorem Refines.computes_exe {s : Regs} {σ : Atomic} (h : Refines s σ) (hp : σ.pending = true) :
    (toLoop (exe s)).Computes σ.a := by
  obtain ⟨-, hb⟩ := h.busy hp
  by_cases hi : s.rExeFsm = .idle
  · by_cases hv : s.rVciFsm = .rspStart
    · -- `EXE` starts, or starts again on the operands it left
      have hg : SubGcd.gcd s.rOpa s.rOpb = σ.a := by
        rcases hb with ⟨-, -, hg⟩ | hc
        · exact hg
        · exact hc.gcd_eq
      have e : toLoop (exe s) = ⟨.compare, s.rOpa, s.rOpb⟩ := by simp [exe, hi, hv, toLoop]
      rw [e, ← hg]
      exact Loop.Computes.start
    · rcases hb with ⟨-, hs, -⟩ | hc
      · exact absurd hs hv
      · rwa [exe_of_idle hi hv]
  · rcases hb with ⟨hi', -, -⟩ | hc
    · exact absurd hi' hi
    · rw [toLoop_exe hi]
      exact hc.step

/-- A zero `STATUS` finds the two words in the operand registers. -/
theorem Refines.operands_of_idle {s : Regs} {σ : Atomic} (h : Refines s σ) (hi : s.rExeFsm = .idle)
    (hv : s.rVciFsm ≠ .rspStart) : s.rOpa = σ.a ∧ s.rOpb = σ.b := by
  cases hp : σ.pending with
  | false => exact (h.clear hp).2.2
  | true =>
    obtain ⟨hab, ⟨-, hs, -⟩ | hc⟩ := h.busy hp
    · exact absurd hs hv
    · rw [hab]
      exact hc.result (toLoop_done.mpr hi)

theorem refines_command {s : Regs} {σ : Atomic} (h : Refines s σ) (f : CmdFlit) (op : Op)
    (ho : σ.pending = true → op.isRead = true) : Refines (accept s f op) (σ.command op) := by
  cases hp : σ.pending with
  | false =>
    obtain ⟨hi, hv, ha, hb⟩ := h.clear hp
    have he : exe s = s := exe_of_idle hi hv
    cases op with
    | start =>
      refine ⟨rfl, fun hp' => by simp [Atomic.command] at hp', fun _ => ⟨rfl, .inl ⟨?_, rfl, ?_⟩⟩⟩
      · simp [accept, he, hi]
      · simp [accept, he, ha, hb, Atomic.command]
    | writeOpa v | writeOpb v | readStatus | readResult =>
      refine ⟨rfl, fun _ => ?_, fun hp' => by simp [Atomic.command, hp] at hp'⟩
      simp [accept, he, hi, ha, hb, Atomic.command, rspOf]
  | true =>
    have hc := h.computes_exe hp
    obtain ⟨hab, -⟩ := h.busy hp
    have hr := ho hp
    cases op with
    | start | writeOpa v | writeOpb v => cases hr
    | readStatus | readResult =>
      exact ⟨rfl, fun hp' => by simp [Atomic.command, hp] at hp', fun _ => ⟨hab, .inr hc⟩⟩

theorem refines_exe {s : Regs} {σ : Atomic} (h : Refines s σ) : Refines (exe s) σ := by
  refine ⟨by rw [exe_rVciFsm]; exact h.serving, fun hp => ?_, fun hp => ?_⟩
  · obtain ⟨hi, hv, hab⟩ := h.clear hp
    rw [exe_of_idle hi hv]
    exact ⟨hi, hv, hab⟩
  · exact ⟨(h.busy hp).1, .inr (h.computes_exe hp)⟩

/-- The data of a response, by the command it answers. -/
theorem rdata_readStatus {s : Regs} {σ : Atomic} (h : Refines s σ) (hs : σ.serving = some .readStatus) :
    (genMoore s).rspFlit.rdata = 0 ↔ s.rExeFsm = .idle := by
  have hv := h.serving
  rw [hs] at hv
  simp only [rspOf] at hv
  simp only [genMoore, hv]
  split_ifs with hi <;> simp [hi]

theorem refines_response {s : Regs} {σ : Atomic} (h : Refines s σ) :
    Refines { exe s with rVciFsm := .getCmd } (σ.response (genMoore s).rspFlit.rdata) := by
  by_cases hz : σ.serving = some .readStatus ∧ (genMoore s).rspFlit.rdata = 0
  · have hi := (rdata_readStatus h hz.1).mp hz.2
    have hv : s.rVciFsm ≠ .rspStart := by rw [h.serving, hz.1]; simp [rspOf]
    obtain ⟨ha, hb⟩ := h.operands_of_idle hi hv
    refine ⟨rfl, fun _ => ?_, fun hp => by simp [Atomic.response, hz] at hp⟩
    rw [exe_of_idle hi hv]
    exact ⟨hi, nofun, ha, hb⟩
  · have hpe : (σ.response (genMoore s).rspFlit.rdata).pending = σ.pending := by
      simp only [Atomic.response, if_neg hz]
    refine ⟨rfl, fun hp => ?_, fun hp => ?_⟩
    · obtain ⟨hi, hv, hab⟩ := h.clear (hpe ▸ hp)
      rw [exe_of_idle hi hv]
      exact ⟨hi, nofun, hab⟩
    · exact ⟨(h.busy (hpe ▸ hp)).1, .inr (h.computes_exe (hpe ▸ hp))⟩

/-- **One edge.** Under a permitted input the edge neither fails its assert
nor exits, and the registers stand for the machine after the cycle. -/
theorem refines_step {seg : Extent} {s : Regs} {σ : Atomic} {i : InitiatorSignals} (h : Refines s σ)
    (hperm : σ.Permits seg (genMoore s) i) :
    ∃ s', transition seg true s i = .ok s' ∧ Refines s' (σ.observe seg (genMoore s) i) := by
  by_cases hs : s.rVciFsm = .getCmd
  · have hack : (genMoore s).cmdack = true := by rw [genMoore_cmdack]; simpa using hs
    have hval : (genMoore s).rspval = false := by rw [genMoore_rspval]; simpa using hs
    cases hv : i.cmdval with
    | false =>
      refine ⟨_, transition_idle hs hv, ?_⟩
      simp only [Atomic.observe, hv, hval, Bool.false_and, Bool.false_eq_true, ↓reduceIte]
      exact refines_exe h
    | true =>
      obtain ⟨op, ho, hr⟩ := hperm hv hack
      refine ⟨_, transition_command hs hv ho, ?_⟩
      simp only [Atomic.observe, hv, hack, Bool.and_self, ↓reduceIte, ho]
      exact refines_command h _ _ hr
  · have hack : (genMoore s).cmdack = false := by rw [genMoore_cmdack]; simpa using hs
    have hval : (genMoore s).rspval = true := by rw [genMoore_rspval]; simpa using hs
    refine ⟨_, transition_response hs, ?_⟩
    simp only [Atomic.observe, hack, hval, Bool.and_false, Bool.true_and, Bool.false_eq_true, ↓reduceIte]
    cases i.rspack with
    | false => exact refines_exe h
    | true => exact refines_response h

/-! ### Runs from reset -/

/-- The registers after the reset edge. -/
def afterReset (s : Regs) : Regs := { s with rVciFsm := .getCmd, rExeFsm := .idle }

example (seg : Extent) (s : Regs) (i : InitiatorSignals) : transition seg false s i = .ok (afterReset s) := rfl

/-- The atomic machine at reset has the words the operand registers hold. -/
def atomicReset (s : Regs) : Atomic := { a := s.rOpa, b := s.rOpb, serving := none, pending := false }

theorem refines_reset (s : Regs) : Refines (afterReset s) (atomicReset s) :=
  ⟨rfl, fun _ => ⟨rfl, nofun, rfl, rfl⟩, nofun⟩

/-- A cycle of the coprocessor with the atomic machine at its port. -/
def observed (seg : Extent) (x : Regs × Atomic) (i : InitiatorSignals) : Except Fault (Regs × Atomic) := do
  let s' ← transition seg true x.1 i
  pure (s', x.2.observe seg (genMoore x.1) i)

/-- The run from reset, from arbitrary registers. -/
def run (seg : Extent) (s : Regs) (i : ℕ → InitiatorSignals) : ℕ → Except Fault (Regs × Atomic) :=
  Clocked.runE (observed seg) (afterReset s, atomicReset s) i

theorem observed_eq_ok {seg : Extent} {x : Regs × Atomic} {i : InitiatorSignals} {s' : Regs}
    (h : transition seg true x.1 i = .ok s') :
    observed seg x i = .ok (s', x.2.observe seg (genMoore x.1) i) := by
  simp only [observed, h]
  rfl

section Run

variable {seg : Extent} {s : Regs} {i : ℕ → InitiatorSignals}

theorem refines_run (henv : ∀ t x, run seg s i t = .ok x → x.2.Permits seg (genMoore x.1) (i t)) (t : ℕ) :
    ∃ x, run seg s i t = .ok x ∧ Refines x.1 x.2 := by
  refine Clocked.runE_inv (fun _ (x : Regs × Atomic) => Refines x.1 x.2) (refines_reset s) (fun t x hx h => ?_) t
  obtain ⟨s', hs, hr⟩ := refines_step h (henv t x hx)
  exact ⟨_, observed_eq_ok hs, hr⟩

/-- The next state of a run that has one. -/
theorem run_succ {st : ℕ → Regs × Atomic} (hst : ∀ t, run seg s i t = .ok (st t)) (t : ℕ) :
    transition seg true (st t).1 (i t) = .ok (st (t + 1)).1 ∧
      (st (t + 1)).2 = (st t).2.observe seg (genMoore (st t).1) (i t) := by
  have h1 := Clocked.runE_succ (hst t)
  have h2 : observed seg (st t) (i t) = .ok (st (t + 1)) := h1.symm.trans (hst (t + 1))
  unfold observed at h2
  cases ht : transition seg true (st t).1 (i t) with
  | error e => rw [ht] at h2; cases h2
  | ok s' =>
    rw [ht] at h2
    have h3 : (s', (st t).2.observe seg (genMoore (st t).1) (i t)) = st (t + 1) := Except.ok.inj h2
    exact ⟨by rw [← h3], by rw [← h3]⟩

/-- While a response is stalled, the atomic machine waits. -/
theorem stalled {st : ℕ → Regs × Atomic} (hst : ∀ t, run seg s i t = .ok (st t))
    (href : ∀ t, Refines (st t).1 (st t).2) {u : ℕ} {op : Op} (hop : (st u).2.serving = some op) :
    ∀ k, (∀ v, u ≤ v → v < u + k → (i v).rspack = false) → (st (u + k)).2 = (st u).2
  | 0, _ => rfl
  | k + 1, hw => by
    have ih := stalled hst href hop k fun v h1 h2 => hw v h1 (by omega)
    have hne : (st (u + k)).1.rVciFsm ≠ .getCmd := by
      rw [(href _).serving, ih, hop]
      cases op <;> simp [rspOf]
    rw [← Nat.add_assoc, (run_succ hst (u + k)).2, ih]
    have hack : (genMoore (st (u + k)).1).cmdack = false := by rw [genMoore_cmdack]; simpa using hne
    simp [Atomic.observe, hack, hw (u + k) (by omega) (by omega)]

/-- **The coprocessor refines the atomic machine.** In every run from reset,
from arbitrary registers and under every environment that keeps the rules: no
edge fails; a `RESULT` read whose command is taken with no `START` pending is
answered, however long the response is stalled, with the word `a` of the
atomic machine; and `STATUS` reads zero only when the operand registers hold
the two words, which after a `START` are both the divisor. -/
theorem refines_atomic (henv : ∀ t x, run seg s i t = .ok x → x.2.Permits seg (genMoore x.1) (i t)) :
    ∃ st : ℕ → Regs × Atomic, (∀ t, run seg s i t = .ok (st t)) ∧
      (∀ u t, u < t → (i u).cmdval = true → (genMoore (st u).1).cmdack = true →
        opOf seg (i u).cmdFlit = some .readResult → (st u).2.pending = false →
        (∀ v, u < v → v < t → (i v).rspack = false) →
        (genMoore (st t).1).rspval = true ∧ (genMoore (st t).1).rspFlit.rdata = (st u).2.a) ∧
      (∀ t, (st t).2.serving = some .readStatus → (genMoore (st t).1).rspFlit.rdata = 0 →
        (st t).1.rOpa = (st t).2.a ∧ (st t).1.rOpb = (st t).2.b) := by
  choose st hst href using refines_run henv
  refine ⟨st, hst, fun u t hut hv hack ho hp hw => ?_, fun t hs hz => ?_⟩
  · obtain ⟨k, rfl⟩ : ∃ k, t = u + 1 + k := ⟨t - (u + 1), by omega⟩
    have h1 : (st (u + 1)).2 = (st u).2.command .readResult := by
      rw [(run_succ hst u).2]
      simp [Atomic.observe, hv, hack, ho]
    have h2 : (st (u + 1 + k)).2 = (st u).2.command .readResult := by
      rw [← h1]
      exact stalled hst href (by rw [h1]; rfl) k fun v h3 h4 => hw v (by omega) (by omega)
    have hr := href (u + 1 + k)
    have hvci : (st (u + 1 + k)).1.rVciFsm = .rspResult := by rw [hr.serving, h2]; rfl
    have hopa : (st (u + 1 + k)).1.rOpa = (st u).2.a := by
      rw [(hr.clear (by rw [h2]; exact hp)).2.2.1, h2]
      rfl
    simp [genMoore, hvci, hopa]
  · have hi := (rdata_readStatus (href t) hs).mp hz
    refine (href t).operands_of_idle hi ?_
    rw [(href t).serving, hs]
    simp [rspOf]

end Run

/-- An environment that starts the coprocessor on the operands it finds,
reads `STATUS` once they have met, and then the result. -/
def demoEnv (t : ℕ) : InitiatorSignals :=
  let flit (cmd : Cmd) (reg : GcdReg) : CmdFlit :=
    { address := BitVec.ofNat 32 (4 * reg.offset), be := 4, cmd := cmd, contig := true, wdata := 0,
      eop := true, plen := 4, srcid := 0, trdid := 0, pktid := 0 }
  let out (cmdval : Bool) (f : CmdFlit) : InitiatorSignals :=
    { cmdval := cmdval, cmdFlit := f, rspack := true, cons := false, wrap := false, cfixed := false, clen := 0 }
  match t with
  | 0 => out true (flit .write .start)
  | 7 => out true (flit .read .status)
  | 9 => out true (flit .read .opa)
  | _ => out false (flit .nop .opa)

/-- Started on 6 and 4, the coprocessor answers 2. -/
theorem refines_atomic_six_four :
    ∃ st : ℕ → Regs × Atomic,
      (∀ t, run ⟨0, 16⟩ ⟨.getCmd, .idle, 0, 0, 0, 6, 4⟩ demoEnv t = .ok (st t)) ∧
      (genMoore (st 10).1).rspval = true ∧ (genMoore (st 10).1).rspFlit.rdata = 2 := by
  have henv : ∀ t x, run ⟨0, 16⟩ ⟨.getCmd, .idle, 0, 0, 0, 6, 4⟩ demoEnv t = .ok x →
      x.2.Permits ⟨0, 16⟩ (genMoore x.1) (demoEnv t) := by
    intro t x hx hv _
    unfold demoEnv at hv ⊢
    split
    · cases hx
      exact ⟨.start, by decide, nofun⟩
    · exact ⟨.readStatus, by decide, fun _ => rfl⟩
    · exact ⟨.readResult, by decide, fun _ => rfl⟩
    · simp_all
  obtain ⟨st, hst, hres, -⟩ := refines_atomic henv
  have h9 : st 9 = (⟨.getCmd, .idle, 0, 0, 0, 2, 2⟩, ⟨2, 2, none, false⟩) := by
    have h : run ⟨0, 16⟩ ⟨.getCmd, .idle, 0, 0, 0, 6, 4⟩ demoEnv 9 =
        .ok (⟨.getCmd, .idle, 0, 0, 0, 2, 2⟩, ⟨2, 2, none, false⟩) := by rfl
    exact Except.ok.inj ((hst 9).symm.trans h)
  refine ⟨st, hst, ?_⟩
  have := hres 9 10 (by decide) rfl (by rw [h9]; rfl) (by decide) (by rw [h9]) (fun v h1 h2 => by omega)
  rwa [h9] at this

end VciGcdCoprocessor
end Tp2
end Smc
