/-
# The dialogue of a master with its coprocessor

`VciGcdMaster` follows the rules of the atomic machine: it writes operands
only with no `START` pending, and after a `START` it polls `STATUS` until it
reads zero. `InProtocol` says what the machine is at each state of the master;
an edge of both sides keeps it (`protocol_step`), whatever lies between them,
as long as it passes commands and responses unchanged or not at all (`Link`).
The simple platform has wires there, the parallel one the bus.
-/
import Smc.Tp2.AtomicGcd

namespace Smc
namespace Tp2

/-! ### What the master offers and awaits -/

namespace VciGcdMaster

/-- The command the master offers. -/
def offered (m : Regs) : Option Op :=
  match m.rFsm with
  | .cmdOpa => some (.writeOpa m.rOpa)
  | .cmdOpb => some (.writeOpb m.rOpb)
  | .cmdStart => some .start
  | .cmdStatus => some .readStatus
  | .cmdResult => some .readResult
  | _ => none

/-- The command whose response the master awaits. -/
def awaited (m : Regs) : Option Op :=
  match m.rFsm with
  | .rspOpa => some (.writeOpa m.rOpa)
  | .rspOpb => some (.writeOpb m.rOpb)
  | .rspStart => some .start
  | .rspStatus => some .readStatus
  | .rspResult => some .readResult
  | _ => none

section Moore

variable (k : Const) (m : Regs) (prev : InitiatorSignals)

theorem genMoore_cmdval : (genMoore k m prev).cmdval = (offered m).isSome := by
  unfold genMoore offered
  cases m.rFsm <;> rfl

theorem genMoore_rspack : (genMoore k m prev).rspack = (offered m).isNone := by
  unfold genMoore offered
  cases m.rFsm <;> rfl

theorem genMoore_eop : (genMoore k m prev).cmdFlit.eop = true := by
  unfold genMoore
  cases m.rFsm <;> rfl

/-- A command goes to one of the master's sixteen bytes. -/
theorem genMoore_address (h : (offered m).isSome = true) :
    ∃ r : GcdReg, (genMoore k m prev).cmdFlit.address = k.mBase + BitVec.ofNat 32 (4 * r.offset) := by
  unfold offered at h
  unfold genMoore
  split at h
  · rename_i hf; rw [hf]; exact ⟨.opa, rfl⟩
  · rename_i hf; rw [hf]; exact ⟨.opb, rfl⟩
  · rename_i hf; rw [hf]; exact ⟨.start, rfl⟩
  · rename_i hf; rw [hf]; exact ⟨.status, rfl⟩
  · rename_i hf; rw [hf]; exact ⟨.opa, rfl⟩
  · cases h

end Moore

theorem offered_isNone_of_awaited {m : Regs} {op : Op} (h : awaited m = some op) : (offered m).isNone = true := by
  unfold awaited at h
  unfold offered
  cases hf : m.rFsm <;> simp_all

/-- A command taken is awaited, until its response is taken. -/
theorem awaited_transition (rnd : Data × Data) (m : Regs) (o : TargetSignals) :
    awaited (transition true rnd m o) =
      if (offered m).isSome ∧ o.cmdack then offered m else if o.rspval then none else awaited m := by
  unfold transition offered awaited
  cases hf : m.rFsm <;> simp only [Bool.not_true, Bool.false_eq_true, ↓reduceIte] <;> split_ifs <;> simp_all

/-- A command that is not taken is still offered. -/
theorem offered_transition {rnd : Data × Data} {m : Regs} {o : TargetSignals} (h : (offered m).isSome = true)
    (ho : o.cmdack = false) : offered (transition true rnd m o) = offered m := by
  unfold offered at h
  unfold transition offered
  cases hf : m.rFsm <;> simp_all

end VciGcdMaster

/-! ### The master's commands at the coprocessor -/

/-- The segment of a coprocessor: sixteen bytes, four words. -/
def gcdSegment (base : Addr) : Extent := { mBaseAddress := base, mSize := 16 }

theorem regAt_gcdSegment {base : Addr} (hb : base.toNat + 16 ≤ 2 ^ 32) (r : GcdReg) :
    regAt (gcdSegment base) (base + BitVec.ofNat 32 (4 * r.offset)) = some r := by
  have hr := r.offset_lt
  have ha : (base + BitVec.ofNat 32 (4 * r.offset)).toNat = base.toNat + 4 * r.offset := by
    rw [BitVec.toNat_add, BitVec.toNat_ofNat]
    omega
  have hs : (gcdSegment base).mSize.toNat = 16 := rfl
  rw [VciGcdCoprocessor.regAt_eq_some, Extent.contains_iff (by rw [hs]; exact hb) (by rw [hs]; decide), ha, hs]
  simp only [gcdSegment]
  omega

theorem opOf_genMoore {k : VciGcdMaster.Const} (hb : k.mBase.toNat + 16 ≤ 2 ^ 32) {m : VciGcdMaster.Regs}
    {prev : InitiatorSignals} {op : Op} (h : VciGcdMaster.offered m = some op) :
    opOf (gcdSegment k.mBase) (VciGcdMaster.genMoore k m prev).cmdFlit = some op := by
  unfold VciGcdMaster.offered at h
  split at h
  case h_6 => cases h
  all_goals
    rename_i hf
    simp only [Option.some.injEq] at h
    subst h
    simp [opOf, VciGcdMaster.genMoore, hf, regAt_gcdSegment hb]

/-! ### Between them -/

/-- What lies between the initiator's signals `sig`, `o'` and the target's
`sig'`, `o` in a cycle: it passes commands or not, and responses or not. -/
structure Link (cmd rsp : Bool) (sig sig' : InitiatorSignals) (o o' : TargetSignals) : Prop where
  cmdval : sig'.cmdval = (cmd && sig.cmdval)
  cmdFlit : cmd = true → sig'.cmdFlit = sig.cmdFlit
  rspack : sig'.rspack = (rsp && sig.rspack)
  cmdack : o'.cmdack = (cmd && o.cmdack)
  rspval : o'.rspval = (rsp && o.rspval)
  rspFlit : rsp = true → o'.rspFlit = o.rspFlit

/-- Two components wired to each other. -/
theorem link_wires (sig : InitiatorSignals) (o : TargetSignals) : Link true true sig sig o o :=
  ⟨rfl, fun _ => rfl, rfl, rfl, rfl, fun _ => rfl⟩

/-- Where the atomic machine is for each state of the master. -/
def Follows (m : VciGcdMaster.Regs) (σ : Atomic) : Prop :=
  match m.rFsm with
  | .random | .cmdOpa => σ.pending = false
  | .rspOpa | .cmdOpb => σ.pending = false ∧ σ.a = m.rOpa
  | .rspOpb | .cmdStart => σ.pending = false ∧ σ.a = m.rOpa ∧ σ.b = m.rOpb
  | .rspStart | .cmdStatus | .rspStatus => σ.pending = true ∧ σ.a = SubGcd.gcd m.rOpa m.rOpb
  | .cmdResult | .rspResult => σ.pending = false ∧ σ.a = SubGcd.gcd m.rOpa m.rOpb
  | .display => σ.pending = false ∧ m.rRes = SubGcd.gcd m.rOpa m.rOpb

/-- The master and the atomic machine are at the same place: the machine
serves the command the master awaits. -/
structure InProtocol (m : VciGcdMaster.Regs) (σ : Atomic) : Prop where
  serving : σ.serving = VciGcdMaster.awaited m
  follows : Follows m σ

open VciGcdMaster (offered awaited genMoore_cmdval genMoore_rspack awaited_transition)
open VciGcdCoprocessor (Refines)

/-- With a `START` pending, the master only reads. -/
theorem InProtocol.isRead {m : VciGcdMaster.Regs} {σ : Atomic} (h : InProtocol m σ) {op : Op}
    (ho : offered m = some op) (hp : σ.pending = true) : op.isRead = true := by
  have hf := h.follows
  unfold offered at ho
  unfold Follows at hf
  cases hm : m.rFsm <;> simp_all
  subst ho
  rfl

section Step

variable {k : VciGcdMaster.Const} {m : VciGcdMaster.Regs} {prev sig' : InitiatorSignals} {o' : TargetSignals}
  {s : VciGcdCoprocessor.Regs} {σ : Atomic} {cmd rsp : Bool} (rnd : Data × Data)
  (hb : k.mBase.toNat + 16 ≤ 2 ^ 32)
  (hl : Link cmd rsp (VciGcdMaster.genMoore k m prev) sig' (VciGcdCoprocessor.genMoore s) o')
  (hr : Refines s σ) (hp : InProtocol m σ)

include hb hl hp in
/-- The master's commands are permitted. -/
theorem protocol_permits : σ.Permits (gcdSegment k.mBase) (VciGcdCoprocessor.genMoore s) sig' := by
  intro hv _
  rw [hl.cmdval, genMoore_cmdval, Bool.and_eq_true] at hv
  obtain ⟨hc, hs⟩ := hv
  obtain ⟨op, ho⟩ := Option.isSome_iff_exists.mp hs
  refine ⟨op, ?_, hp.isRead ho⟩
  rw [hl.cmdFlit hc]
  exact opOf_genMoore hb ho

include hr hp in
/-- The coprocessor is ready for a command exactly when the master awaits no
response. -/
theorem cmdack_eq_awaited_isNone : (VciGcdCoprocessor.genMoore s).cmdack = (awaited m).isNone := by
  have h := hr.serving
  rw [hp.serving] at h
  rw [VciGcdCoprocessor.genMoore_cmdack, h]
  cases awaited m with
  | none => rfl
  | some op => cases op <;> rfl

include hr hp in
theorem rspval_eq_awaited_isSome : (VciGcdCoprocessor.genMoore s).rspval = (awaited m).isSome := by
  have h := hr.serving
  rw [hp.serving] at h
  rw [VciGcdCoprocessor.genMoore_rspval, h]
  cases awaited m with
  | none => rfl
  | some op => cases op <;> rfl

/-- The three things that can happen on a link in a cycle. -/
inductive Happens (m : VciGcdMaster.Regs) (s : VciGcdCoprocessor.Regs) (sig' : InitiatorSignals)
    (o' : TargetSignals) (σ σ' : Atomic) : Prop where
  | command (op : Op) (ho : offered m = some op) (hack : o'.cmdack = true) (hval : o'.rspval = false)
      (hσ : σ' = σ.command op)
  | response (op : Op) (ho : awaited m = some op) (hval : o'.rspval = true) (hack : o'.cmdack = false)
      (hflit : o'.rspFlit = (VciGcdCoprocessor.genMoore s).rspFlit)
      (hσ : σ' = σ.response (VciGcdCoprocessor.genMoore s).rspFlit.rdata)
  | nothing (hc : offered m = none ∨ o'.cmdack = false) (hw : awaited m = none ∨ o'.rspval = false) (hσ : σ' = σ)

include hb hl hr hp in
theorem happens : Happens m s sig' o' σ
    (σ.observe (gcdSegment k.mBase) (VciGcdCoprocessor.genMoore s) sig') := by
  have hack := cmdack_eq_awaited_isNone hr hp
  have hval := rspval_eq_awaited_isSome hr hp
  have hcv := hl.cmdval
  have hra := hl.rspack
  have hca := hl.cmdack
  have hrv := hl.rspval
  rw [genMoore_cmdval] at hcv
  rw [genMoore_rspack] at hra
  rw [hack] at hca
  rw [hval] at hrv
  cases haw : awaited m with
  | some op =>
    have hon := VciGcdMaster.offered_isNone_of_awaited haw
    rw [haw] at hack hval hca hrv
    rw [hon] at hra
    cases hrsp : rsp with
    | true =>
      rw [hrsp] at hra hrv
      refine .response op haw hrv (by simpa using hca) (hl.rspFlit hrsp) ?_
      simp [Atomic.observe, hack, hval, hra]
    | false =>
      rw [hrsp] at hra hrv
      refine .nothing (.inl (by simpa using hon)) (.inr hrv) ?_
      simp [Atomic.observe, hack, hra]
  | none =>
    rw [haw] at hack hval hca hrv
    cases hof : offered m with
    | none =>
      rw [hof] at hcv
      refine .nothing (.inl hof) (.inl haw) ?_
      simp [Atomic.observe, hval, hcv]
    | some op =>
      rw [hof] at hcv
      cases hcmd : cmd with
      | true =>
        rw [hcmd] at hcv hca
        refine .command op hof hca (by simpa using hrv) ?_
        have hop : opOf (gcdSegment k.mBase) (VciGcdMaster.genMoore k m prev).cmdFlit = some op :=
          opOf_genMoore hb hof
        rw [← hl.cmdFlit hcmd] at hop
        simp [Atomic.observe, hack, hcv, hop]
      | false =>
        rw [hcmd] at hcv hca
        refine .nothing (.inr hca) (.inl haw) ?_
        simp [Atomic.observe, hval, hcv]

/-- What a command does to the two sides. -/
theorem follows_command (hp : InProtocol m σ) {op : Op} (ho : offered m = some op) (hack : o'.cmdack = true) :
    Follows (VciGcdMaster.transition true rnd m o') (σ.command op) := by
  have hf := hp.follows
  unfold offered at ho
  unfold Follows at hf
  cases hm : m.rFsm <;> simp_all <;>
    subst ho <;> simp_all [Follows, VciGcdMaster.transition, Atomic.command]

include hr in
/-- What a response does to the two sides: a zero `STATUS` clears the `START`
that was pending, and the result is the divisor. -/
theorem follows_response (hp : InProtocol m σ) {op : Op} (ho : awaited m = some op) (hval : o'.rspval = true)
    (hflit : o'.rspFlit = (VciGcdCoprocessor.genMoore s).rspFlit) :
    Follows (VciGcdMaster.transition true rnd m o') (σ.response (VciGcdCoprocessor.genMoore s).rspFlit.rdata) := by
  have hf := hp.follows
  have hs := hp.serving
  have hres : σ.serving = some .readResult → σ.pending = false →
      (VciGcdCoprocessor.genMoore s).rspFlit.rdata = σ.a := by
    intro h1 h2
    have hv := hr.serving
    rw [h1] at hv
    simp only [VciGcdCoprocessor.rspOf] at hv
    simp [VciGcdCoprocessor.genMoore, hv, (hr.clear h2).2.2.1]
  unfold awaited at ho hs
  unfold Follows at hf
  cases hm : m.rFsm <;> simp only [hm, reduceCtorEq] at ho hs hf
  case rspStatus =>
    by_cases hz : (VciGcdCoprocessor.genMoore s).rspFlit.rdata = 0#32 <;>
      simp [Follows, VciGcdMaster.transition, Atomic.response, hm, hval, hflit, hs, hf, hz]
  case rspResult =>
    simp [Follows, VciGcdMaster.transition, Atomic.response, hm, hval, hflit, hs, hf, hres hs hf.1]
  all_goals simp [Follows, VciGcdMaster.transition, Atomic.response, hm, hval, hs, hf]

theorem follows_nothing (hp : InProtocol m σ) (hc : offered m = none ∨ o'.cmdack = false)
    (hw : awaited m = none ∨ o'.rspval = false) : Follows (VciGcdMaster.transition true rnd m o') σ := by
  have hf := hp.follows
  unfold offered at hc
  unfold awaited at hw
  unfold Follows at hf
  cases hm : m.rFsm <;> simp_all [Follows, VciGcdMaster.transition]

include hb hl hr hp in
/-- **One cycle on a link.** The coprocessor's edge does not fail, it refines
the atomic machine after the cycle, and the master follows. -/
theorem protocol_step : ∃ s' σ', VciGcdCoprocessor.transition (gcdSegment k.mBase) true s sig' = .ok s' ∧
    Refines s' σ' ∧ InProtocol (VciGcdMaster.transition true rnd m o') σ' := by
  obtain ⟨s', hs', hr'⟩ := VciGcdCoprocessor.refines_step hr (protocol_permits hb hl hp)
  refine ⟨s', _, hs', hr', ?_, ?_⟩
  · rw [awaited_transition]
    cases happens hb hl hr hp with
    | command op ho hack hval hσ => rw [hσ]; simp [ho, hack]; cases op <;> rfl
    | response op ho hval hack hflit hσ => rw [hσ]; simp [hval, hack, Atomic.response]
    | nothing hc hw hσ =>
      rw [hσ, hp.serving]
      rcases hc with hc | hc <;> rcases hw with hw | hw <;> simp [hc, hw]
  · cases happens hb hl hr hp with
    | command op ho hack hval hσ => rw [hσ]; exact follows_command rnd hp ho hack
    | response op ho hval hack hflit hσ => rw [hσ]; exact follows_response rnd hr hp ho hval hflit
    | nothing hc hw hσ => rw [hσ]; exact follows_nothing rnd hp hc hw

end Step

end Tp2
end Smc
