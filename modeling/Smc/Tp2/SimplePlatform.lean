/-
# The simple platform of TP2

One master wired to one coprocessor
(`TP2/TP2_etudiant/tp2_simple_top.cpp`). With wires between them every
command is taken in the cycle it is offered and answered in the next, so the
master's automaton moves in every cycle (`Edge.next`) and only the polling
loop has no fixed length: it goes on until the coprocessor has subtracted
enough, which on a pair with exactly one zero is never.

Key definitions: `SimplePlatform.step`, `SimplePlatform.Inv`.
Key theorems: `SimplePlatform.inv_step`, `SimplePlatform.leadsTo_round`,
`SimplePlatform.displays_run`.
-/
import Smc.Tp2.GcdProtocol

namespace Smc
namespace Tp2

open SubGcd (Loop)
open SubGcd.Loop (OneZero)
open VciGcdCoprocessor (Refines Fault toLoop exe)
open VciGcdMaster (offered awaited)

/-- The constants of the platform: the master's base is the coprocessor's. -/
structure SimplePlatform where
  master : VciGcdMaster.Const
  range : master.mBase.toNat + 16 ≤ 2 ^ 32

namespace SimplePlatform

/-- The two components, the signals the master drove last, the number of
pairs drawn so far and the lines written so far. -/
structure State where
  master : VciGcdMaster.Regs
  coproc : VciGcdCoprocessor.Regs
  signals : InitiatorSignals
  drawn : ℕ
  cout : List Line

variable (k : SimplePlatform)

/-- What the master drives in a cycle. -/
def drives (s : State) : InitiatorSignals := VciGcdMaster.genMoore k.master s.master s.signals

/-- A cycle of the platform out of reset, with the stream `d` to draw from. -/
def step (s : State) (d : Draws) : Except Fault State := do
  let coproc ← VciGcdCoprocessor.transition (gcdSegment k.master.mBase) true s.coproc (k.drives s)
  pure
    { master :=
        VciGcdMaster.transition true (d s.drawn) s.master (VciGcdCoprocessor.genMoore s.coproc)
      coproc := coproc
      signals := k.drives s
      drawn := if s.master.rFsm = .random then s.drawn + 1 else s.drawn
      cout := s.cout ++ VciGcdMaster.display s.master }

/-- The platform after the reset edge, from arbitrary registers and signals. -/
def reset (m : VciGcdMaster.Regs) (rnd : Data × Data) (o : TargetSignals) (c : VciGcdCoprocessor.Regs)
    (i : InitiatorSignals) : State where
  master := VciGcdMaster.transition false rnd m o
  coproc := VciGcdCoprocessor.afterReset c
  signals := i
  drawn := 0
  cout := []

/-! ### The invariant -/

/-- The master has drawn pair `cout.length` and not displayed it yet. -/
structure Holds (d : Draws) (s : State) : Prop where
  drawn : s.drawn = s.cout.length + 1
  opa : s.master.rOpa = (d s.cout.length).1
  opb : s.master.rOpb = (d s.cout.length).2

/-- Whether the pair hangs shows in the operands while the master polls; a
pair that hangs never gets further. -/
def Survives (d : Draws) (s : State) : Prop :=
  match s.master.rFsm with
  | .rspStart | .cmdStatus | .rspStatus => d.Hangs s.cout.length ↔ OneZero s.coproc.rOpa s.coproc.rOpb
  | .cmdResult | .rspResult | .display => ¬ d.Hangs s.cout.length
  | _ => True

/-- What every reached state satisfies. -/
structure Inv (d : Draws) (s : State) : Prop where
  pair : ∃ σ, Refines s.coproc σ ∧ InProtocol s.master σ
  random : s.master.rFsm = .random → s.drawn = s.cout.length
  holds : s.master.rFsm ≠ .random → Holds d s
  survives : Survives d s
  shown : Shown d s.cout

theorem inv_reset (d : Draws) (m : VciGcdMaster.Regs) (rnd : Data × Data) (o : TargetSignals)
    (c : VciGcdCoprocessor.Regs) (i : InitiatorSignals) : Inv d (reset m rnd o c i) where
  pair := ⟨_, VciGcdCoprocessor.refines_reset c, rfl, rfl⟩
  random _ := rfl
  holds h := absurd rfl h
  survives := trivial
  shown := shown_nil d

/-! ### One cycle -/

/-- `b` is the cycle after `a`. -/
def Next (d : Draws) (a b : State) : Prop := k.step a d = .ok b

/-- A cycle in which the coprocessor does not fail. -/
structure Edge (d : Draws) (s s' : State) : Prop where
  ok : k.Next d s s'
  pair : ∃ σ, Refines s'.coproc σ ∧ InProtocol s'.master σ
  coproc : VciGcdCoprocessor.transition (gcdSegment k.master.mBase) true s.coproc (k.drives s) = .ok s'.coproc
  master : s'.master =
    VciGcdMaster.transition true (d s.drawn) s.master (VciGcdCoprocessor.genMoore s.coproc)
  drawn : s'.drawn = if s.master.rFsm = .random then s.drawn + 1 else s.drawn
  cout : s'.cout = s.cout ++ VciGcdMaster.display s.master

/-- The states of the master in order; `STATUS` is zero when `EXE` is idle. -/
def next (exe : VciGcdCoprocessor.ExeFsm) : VciGcdMaster.Fsm → VciGcdMaster.Fsm
  | .random => .cmdOpa
  | .cmdOpa => .rspOpa
  | .rspOpa => .cmdOpb
  | .cmdOpb => .rspOpb
  | .rspOpb => .cmdStart
  | .cmdStart => .rspStart
  | .rspStart => .cmdStatus
  | .cmdStatus => .rspStatus
  | .rspStatus => if exe = .idle then .cmdResult else .cmdStatus
  | .cmdResult => .rspResult
  | .rspResult => .display
  | .display => .random

section Cycle

variable {k} {d : Draws} {s s' : State}

theorem exists_edge (h : Inv d s) : ∃ s', k.Edge d s s' := by
  obtain ⟨σ, hr, hp⟩ := h.pair
  obtain ⟨c, σ', hc, hr', hp'⟩ := protocol_step (d s.drawn) k.range (link_wires (k.drives s) _) hr hp
  have hok : k.step s d = .ok
      { master :=
          VciGcdMaster.transition true (d s.drawn) s.master (VciGcdCoprocessor.genMoore s.coproc)
        coproc := c
        signals := k.drives s
        drawn := if s.master.rFsm = .random then s.drawn + 1 else s.drawn
        cout := s.cout ++ VciGcdMaster.display s.master } := by
    rw [step, hc]
    rfl
  exact ⟨_, hok, ⟨σ', hr', hp'⟩, hc, rfl, rfl, rfl⟩

/-- The master moves in every cycle. -/
theorem Edge.next (he : k.Edge d s s') (h : Inv d s) :
    s'.master.rFsm = SimplePlatform.next s.coproc.rExeFsm s.master.rFsm := by
  obtain ⟨σ, hr, hp⟩ := h.pair
  have hack := cmdack_eq_awaited_isNone hr hp
  have hval := rspval_eq_awaited_isSome hr hp
  have hst : s.master.rFsm = .rspStatus →
      ((VciGcdCoprocessor.genMoore s.coproc).rspFlit.rdata = 0#32 ↔ s.coproc.rExeFsm = .idle) := fun hf =>
    VciGcdCoprocessor.rdata_readStatus hr (by rw [hp.serving, awaited, hf])
  unfold awaited at hack hval
  rw [he.master, VciGcdMaster.transition]
  cases hf : s.master.rFsm <;> simp only [hf] at hack hval hst
  case rspStatus =>
    by_cases hi : s.coproc.rExeFsm = .idle <;> simp [hval, hi, SimplePlatform.next, hst]
  all_goals simp [hack, hval, SimplePlatform.next]

/-- The master keeps its operands until it draws again. -/
theorem Edge.operands (he : k.Edge d s s') (hf : s.master.rFsm ≠ .random) :
    s'.master.rOpa = s.master.rOpa ∧ s'.master.rOpb = s.master.rOpb := by
  rw [he.master, VciGcdMaster.transition]
  cases hm : s.master.rFsm with
  | random => exact absurd hm hf
  | display => simp
  | _ => simp only [Bool.not_true, Bool.false_eq_true, ↓reduceIte]; split_ifs <;> exact ⟨rfl, rfl⟩

theorem Edge.cout_eq (he : k.Edge d s s') (hf : s.master.rFsm ≠ .display) : s'.cout = s.cout := by
  rw [he.cout, VciGcdMaster.display, if_neg hf, List.append_nil]

theorem Edge.holds (he : k.Edge d s s') (h : Inv d s) (h1 : s.master.rFsm ≠ .random)
    (h2 : s.master.rFsm ≠ .display) : Holds d s' := by
  obtain ⟨hd, ha, hb⟩ := h.holds h1
  obtain ⟨ea, eb⟩ := he.operands h1
  have ec := he.cout_eq h2
  refine ⟨?_, ?_, ?_⟩
  · rw [he.drawn, if_neg h1, ec, hd]
  · rw [ea, ec, ha]
  · rw [eb, ec, hb]

/-! ### The coprocessor while the master polls -/

/-- A cycle without a write is a step of `EXE` only. -/
theorem Edge.toLoop_eq (he : k.Edge d s s') (h : Inv d s)
    (ho : ∀ op, offered s.master = some op → op.isRead = true) : toLoop s'.coproc = toLoop (exe s.coproc) := by
  obtain ⟨σ, hr, hp⟩ := h.pair
  have hc := he.coproc
  by_cases hs : s.coproc.rVciFsm = .getCmd
  · cases hof : offered s.master with
    | none =>
      have hv : (k.drives s).cmdval = false := by rw [drives, VciGcdMaster.genMoore_cmdval, hof]; rfl
      rw [VciGcdCoprocessor.transition_idle hs hv, Except.ok.injEq] at hc
      rw [← hc]
    | some op =>
      have hv : (k.drives s).cmdval = true := by rw [drives, VciGcdMaster.genMoore_cmdval, hof]; rfl
      rw [VciGcdCoprocessor.transition_command hs hv (opOf_genMoore k.range hof), Except.ok.injEq] at hc
      have hread := ho op hof
      rw [← hc]
      cases op with
      | writeOpa v | writeOpb v | start => cases hread
      | readStatus | readResult => rfl
  · rw [VciGcdCoprocessor.transition_response hs, Except.ok.injEq] at hc
    rw [← hc]
    split_ifs <;> rfl

/-- The master polls `STATUS`, or is about to. -/
def Polls (m : VciGcdMaster.Regs) : Prop := m.rFsm = .rspStart ∨ m.rFsm = .cmdStatus ∨ m.rFsm = .rspStatus

theorem Polls.isRead {m : VciGcdMaster.Regs} (h : Polls m) {op : Op} (ho : offered m = some op) :
    op.isRead = true := by
  unfold offered at ho
  rcases h with h | h | h <;> simp only [h, reduceCtorEq, Option.some.injEq] at ho
  rw [← ho]
  rfl

theorem Polls.pending {m : VciGcdMaster.Regs} {σ : Atomic} (h : Polls m) (hp : InProtocol m σ) :
    σ.pending = true := by
  have hf := hp.follows
  unfold Follows at hf
  rcases h with h | h | h <;> simp only [h] at hf <;> exact hf.1

theorem Polls.survives (h : Polls s.master) :
    Survives d s ↔ (d.Hangs s.cout.length ↔ OneZero s.coproc.rOpa s.coproc.rOpb) := by
  rcases h with h | h | h <;> simp only [Survives, h]

/-- No step of `EXE` makes one zero, or ends with it. -/
theorem oneZero_exe {c : VciGcdCoprocessor.Regs} {σ : Atomic} (hr : Refines c σ) (hp : σ.pending = true) :
    OneZero (toLoop (exe c)).a (toLoop (exe c)).b ↔ OneZero c.rOpa c.rOpb := by
  by_cases hi : c.rExeFsm = .idle
  · by_cases hv : c.rVciFsm = .rspStart
    · simp [exe, hi, hv, toLoop]
    · rw [VciGcdCoprocessor.exe_of_idle hi hv]
      rfl
  · obtain ⟨-, ⟨hi', -⟩ | hc⟩ := hr.busy hp
    · exact absurd hi' hi
    · rw [VciGcdCoprocessor.toLoop_exe hi]
      exact Loop.oneZero_step hc

/-- While the master polls, hanging stays visible in the operands. -/
theorem Edge.hangs_iff (he : k.Edge d s s') (h : Inv d s) (hf : Polls s.master) :
    d.Hangs s'.cout.length ↔ OneZero s'.coproc.rOpa s'.coproc.rOpb := by
  obtain ⟨σ, hr, hp⟩ := h.pair
  have el := he.toLoop_eq h fun op => hf.isRead
  have ec : s'.cout = s.cout := he.cout_eq (by rcases hf with hf | hf | hf <;> rw [hf] <;> nofun)
  have hz := oneZero_exe hr (hf.pending hp)
  rw [← el] at hz
  rw [ec, hf.survives.mp h.survives]
  exact hz.symm

/-- A zero `STATUS` is never read on a pair that hangs. -/
theorem not_hangs_of_idle (h : Inv d s) (hf : s.master.rFsm = .rspStatus) (hi : s.coproc.rExeFsm = .idle) :
    ¬ d.Hangs s.cout.length := by
  obtain ⟨σ, hr, hp⟩ := h.pair
  have hpl : Polls s.master := .inr (.inr hf)
  rw [hpl.survives.mp h.survives]
  have hv : s.coproc.rVciFsm ≠ .rspStart := by
    rw [hr.serving, hp.serving, awaited, hf]
    simp [VciGcdCoprocessor.rspOf]
  intro ho
  rcases (hr.busy (hpl.pending hp)).2 with ⟨-, hs, -⟩ | hc
  · exact hv hs
  · exact Loop.OneZero.not_done hc ho (VciGcdCoprocessor.toLoop_done.mpr hi)

/-- `START` finds the pair in the operand registers, and `EXE` idle. -/
theorem Edge.start (he : k.Edge d s s') (h : Inv d s) (hf : s.master.rFsm = .cmdStart) :
    s'.coproc.rExeFsm = .idle ∧ s'.coproc.rVciFsm = .rspStart ∧
      s'.coproc.rOpa = s.master.rOpa ∧ s'.coproc.rOpb = s.master.rOpb := by
  obtain ⟨σ, hr, hp⟩ := h.pair
  have hfo := hp.follows
  simp only [Follows, hf] at hfo
  obtain ⟨hpe, ha, hb⟩ := hfo
  obtain ⟨hi, hv, ra, rb⟩ := hr.clear hpe
  have hof : offered s.master = some .start := by simp [offered, hf]
  have hs : s.coproc.rVciFsm = .getCmd := by rw [hr.serving, hp.serving, awaited, hf]
  have hval : (k.drives s).cmdval = true := by rw [drives, VciGcdMaster.genMoore_cmdval, hof]; rfl
  have hc := he.coproc
  rw [VciGcdCoprocessor.transition_command hs hval (opOf_genMoore k.range hof), Except.ok.injEq] at hc
  have hx : exe s.coproc = s.coproc := VciGcdCoprocessor.exe_of_idle hi hv
  rw [← hc]
  simp [VciGcdCoprocessor.accept, VciGcdCoprocessor.rspOf, hx, hi, ra, rb, ha, hb]

theorem Edge.survives (he : k.Edge d s s') (h : Inv d s) : Survives d s' := by
  have hn := he.next h
  cases hf : s.master.rFsm <;> rw [hf, SimplePlatform.next] at hn
  case cmdStart =>
    obtain ⟨-, -, ha, hb⟩ := he.start h hf
    have hh := h.holds (by rw [hf]; nofun)
    rw [Polls.survives (.inl hn), ha, hb, he.cout_eq (by rw [hf]; nofun), hh.opa, hh.opb]
    rfl
  case rspStart =>
    rw [Polls.survives (.inr (.inl hn))]
    exact he.hangs_iff h (.inl hf)
  case cmdStatus =>
    rw [Polls.survives (.inr (.inr hn))]
    exact he.hangs_iff h (.inr (.inl hf))
  case rspStatus =>
    split_ifs at hn with hi
    · simp only [Survives, hn]
      rw [he.cout_eq (by rw [hf]; nofun)]
      exact not_hangs_of_idle h hf hi
    · rw [Polls.survives (.inr (.inl hn))]
      exact he.hangs_iff h (.inr (.inr hf))
  case cmdResult | rspResult =>
    have hs := h.survives
    simp only [Survives, hf] at hs
    simp only [Survives, hn]
    rwa [he.cout_eq (by rw [hf]; nofun)]
  all_goals simp only [Survives, hn]

theorem Edge.shown (he : k.Edge d s s') (h : Inv d s) : Shown d s'.cout := by
  by_cases hf : s.master.rFsm = .display
  · obtain ⟨σ, -, hp⟩ := h.pair
    have hfo := hp.follows
    have hs := h.survives
    simp only [Follows, hf] at hfo
    simp only [Survives, hf] at hs
    have hh := h.holds (by simp [hf])
    rw [he.cout, VciGcdMaster.display, if_pos hf]
    exact h.shown.concat (by rw [hh.opa, hh.opb]) hfo.2 hs
  · rw [he.cout_eq hf]
    exact h.shown

/-- **One cycle.** The coprocessor does not fail and the invariant is kept. -/
theorem Edge.inv (he : k.Edge d s s') (h : Inv d s) : Inv d s' := by
  have hn := he.next h
  refine ⟨he.pair, fun hr => ?_, fun hr => ?_, he.survives h, he.shown h⟩
  · -- only `DISPLAY` leads to `RANDOM`
    have hf : s.master.rFsm = .display := by
      rw [hn] at hr
      cases hf : s.master.rFsm <;> rw [hf, SimplePlatform.next] at hr <;> first | rfl | (split_ifs at hr) | cases hr
    have hh := h.holds (by rw [hf]; nofun)
    rw [he.drawn, he.cout, if_neg (by rw [hf]; nofun), VciGcdMaster.display, if_pos hf, hh.drawn]
    simp
  · by_cases h1 : s.master.rFsm = .random
    · have hd := h.random h1
      have ec := he.cout_eq (by rw [h1]; nofun)
      refine ⟨?_, ?_, ?_⟩
      · rw [he.drawn, if_pos h1, ec, hd]
      · rw [he.master, ec, ← hd]; simp [VciGcdMaster.transition, h1]
      · rw [he.master, ec, ← hd]; simp [VciGcdMaster.transition, h1]
    · refine he.holds h h1 fun h2 => hr ?_
      rw [hn, h2, SimplePlatform.next]

theorem inv_step (h : Inv d s) : ∃ s', k.step s d = .ok s' ∧ Inv d s' := by
  obtain ⟨s', he⟩ := exists_edge (k := k) h
  exact ⟨s', he.ok, he.inv h⟩

end Cycle

/-! ### Every pair that does not hang is displayed -/

section Progress

variable (d : Draws)

/-- The master is in state `f` and `j` lines are written. -/
def At (f : VciGcdMaster.Fsm) (j : ℕ) (s : State) : Prop :=
  Inv d s ∧ s.master.rFsm = f ∧ s.cout.length = j

/-- The master polls on pair `j`, and `EXE` is in state `e`. -/
def Polling (j : ℕ) (e : VciGcdCoprocessor.ExeFsm) (s : State) : Prop :=
  Inv d s ∧ (s.master.rFsm = .cmdStatus ∨ s.master.rFsm = .rspStatus) ∧ s.cout.length = j ∧ s.coproc.rExeFsm = e

variable {d}

/-- Outside the polling loop one state follows the other. -/
theorem leadsTo_next (f : VciGcdMaster.Fsm) {j : ℕ} (h1 : f ≠ .rspStatus) (h2 : f ≠ .display) :
    Clocked.LeadsTo (k.Next d) (At d f j) (At d (next .idle f) j) := by
  refine Clocked.leadsTo_of_step ?_
  rintro s ⟨h, hf, hl⟩
  obtain ⟨s', he⟩ := exists_edge (k := k) h
  refine ⟨s', he.ok, he.inv h, ?_, by rw [he.cout_eq (by rw [hf]; exact h2), hl]⟩
  rw [he.next h, hf]
  cases f <;> first | rfl | exact absurd rfl h1

/-- From `START` on, the master polls and `EXE` compares. -/
theorem leadsTo_polling {j : ℕ} : Clocked.LeadsTo (k.Next d) (At d .cmdStart j) (Polling d j .compare) := by
  rintro s ⟨h, hf, hl⟩
  obtain ⟨s1, he1⟩ := exists_edge (k := k) h
  have i1 := he1.inv h
  have f1 : s1.master.rFsm = .rspStart := by rw [he1.next h, hf]; rfl
  obtain ⟨x1, v1, -, -⟩ := he1.start h hf
  obtain ⟨s2, he2⟩ := exists_edge (k := k) i1
  have f2 : s2.master.rFsm = .cmdStatus := by rw [he2.next i1, f1]; rfl
  have el := he2.toLoop_eq i1 fun op => Polls.isRead (.inl f1)
  have x2 : s2.coproc.rExeFsm = .compare := by
    have hph := congrArg Loop.phase el
    simp only [toLoop, exe, x1, v1, ↓reduceIte] at hph
    cases hx : s2.coproc.rExeFsm <;> simp_all
  refine ⟨s2, (Relation.ReflTransGen.single he1.ok).tail he2.ok, he2.inv i1, .inl f2, ?_, x2⟩
  rw [he2.cout_eq (by simp [f1]), he1.cout_eq (by simp [hf]), hl]

/-- A cycle of polling in which `EXE` is busy is a step of the subtraction. -/
theorem polling_step {j : ℕ} {e : VciGcdCoprocessor.ExeFsm} {s : State} (h : Polling d j e s) (he : e ≠ .idle) :
    ∃ s', k.Next d s s' ∧ Polling d j s'.coproc.rExeFsm s' ∧ toLoop s'.coproc = (toLoop s.coproc).step := by
  obtain ⟨hi, hf, hl, hx⟩ := h
  have hpl : Polls s.master := .inr hf
  obtain ⟨s', hed⟩ := exists_edge (k := k) hi
  have hn := hed.next hi
  refine ⟨s', hed.ok, ⟨hed.inv hi, ?_, ?_, rfl⟩, ?_⟩
  · rcases hf with hf | hf <;> rw [hf, next] at hn
    · exact .inr hn
    · rw [if_neg (by rw [hx]; exact he)] at hn
      exact .inl hn
  · rw [hed.cout_eq (by rcases hf with hf | hf <;> rw [hf] <;> nofun), hl]
  · rw [hed.toLoop_eq hi fun op => hpl.isRead, VciGcdCoprocessor.toLoop_exe (by rw [hx]; exact he)]

/-- The subtraction ends on a pair that does not hang. -/
theorem leadsTo_idle {j : ℕ} (hj : ¬ d.Hangs j) :
    Clocked.LeadsTo (k.Next d) (Polling d j .compare) (Polling d j .idle) := by
  refine Clocked.leadsTo_of_measure (fun s => s.coproc.rOpa.toNat + s.coproc.rOpb.toNat) ?_
  intro s h
  obtain ⟨s1, n1, p1, e1⟩ := polling_step k h nofun
  have hz : ¬ OneZero s.coproc.rOpa s.coproc.rOpb := by
    rw [← (Polls.survives (.inr h.2.1)).mp h.1.survives, h.2.2.1]
    exact hj
  have hloop : toLoop s.coproc = ⟨.compare, s.coproc.rOpa, s.coproc.rOpb⟩ := by simp [toLoop, h.2.2.2]
  rcases Loop.compare_step hz with hd | ⟨a', b', hab, -, hlt⟩
  · -- equal operands: `EXE` is idle
    rw [hloop, hd] at e1
    have x1 : s1.coproc.rExeFsm = .idle := by
      rw [← VciGcdCoprocessor.toLoop_done, e1]
    exact ⟨s1, .single n1, .inl (x1 ▸ p1)⟩
  · -- a subtraction follows, and the two words get smaller
    rw [hloop] at e1
    have hb1 : s1.coproc.rExeFsm ≠ .idle := by
      intro hx
      rw [← VciGcdCoprocessor.toLoop_done, e1] at hx
      have := congrArg Loop.phase hab
      rw [Loop.step, hx] at this
      simp [hx] at this
    obtain ⟨s2, n2, p2, e2⟩ := polling_step k p1 hb1
    rw [e1, hab] at e2
    have x2 : s2.coproc.rExeFsm = .compare := by
      have hph := congrArg Loop.phase e2
      simp only [toLoop] at hph
      cases hx : s2.coproc.rExeFsm <;> simp_all
    have ha : s2.coproc.rOpa = a' := congrArg Loop.a e2
    have hb : s2.coproc.rOpb = b' := congrArg Loop.b e2
    refine ⟨s2, (Relation.ReflTransGen.single n1).tail n2, .inr ⟨x2 ▸ p2, ?_⟩⟩
    rw [ha, hb]
    exact hlt

/-- Once `EXE` is idle, the next `STATUS` is zero. -/
theorem leadsTo_cmdResult {j : ℕ} : Clocked.LeadsTo (k.Next d) (Polling d j .idle) (At d .cmdResult j) := by
  have last : ∀ s, Polling d j .idle s → s.master.rFsm = .rspStatus → ∃ s', k.Next d s s' ∧ At d .cmdResult j s' := by
    rintro s ⟨h, -, hl, hx⟩ hf
    obtain ⟨s', he⟩ := exists_edge (k := k) h
    refine ⟨s', he.ok, he.inv h, ?_, by rw [he.cout_eq (by rw [hf]; nofun), hl]⟩
    rw [he.next h, hf, next, if_pos hx]
  intro s hp
  obtain ⟨h, hf | hf, hl, hx⟩ := hp
  · -- the command of the last poll, which `EXE` does not see
    obtain ⟨s1, he⟩ := exists_edge (k := k) h
    have f1 : s1.master.rFsm = .rspStatus := by rw [he.next h, hf]; rfl
    have el := he.toLoop_eq h fun op => Polls.isRead (.inr (.inl hf))
    obtain ⟨σ, hr, hpr⟩ := h.pair
    have hv : s.coproc.rVciFsm ≠ .rspStart := by
      rw [hr.serving, hpr.serving, awaited, hf]
      nofun
    rw [VciGcdCoprocessor.exe_of_idle hx hv] at el
    have x1 : s1.coproc.rExeFsm = .idle := by
      rw [← VciGcdCoprocessor.toLoop_done, el, VciGcdCoprocessor.toLoop_done, hx]
    have p1 : Polling d j .idle s1 :=
      ⟨he.inv h, .inr f1, by rw [he.cout_eq (by rw [hf]; nofun), hl], x1⟩
    obtain ⟨s2, n2, h2⟩ := last s1 p1 f1
    exact ⟨s2, (Relation.ReflTransGen.single he.ok).tail n2, h2⟩
  · obtain ⟨s1, n1, h1⟩ := last s ⟨h, .inr hf, hl, hx⟩ hf
    exact ⟨s1, .single n1, h1⟩

theorem leadsTo_random {j : ℕ} : Clocked.LeadsTo (k.Next d) (At d .display j) (At d .random (j + 1)) := by
  refine Clocked.leadsTo_of_step ?_
  rintro s ⟨h, hf, hl⟩
  obtain ⟨s', he⟩ := exists_edge (k := k) h
  refine ⟨s', he.ok, he.inv h, by rw [he.next h, hf, next], ?_⟩
  rw [he.cout, VciGcdMaster.display, if_pos hf]
  simp [hl]

/-- A round: from one draw to the next. -/
theorem leadsTo_round {j : ℕ} (hj : ¬ d.Hangs j) :
    Clocked.LeadsTo (k.Next d) (At d .random j) (At d .random (j + 1)) := by
  have operands : Clocked.LeadsTo (k.Next d) (At d .random j) (At d .cmdStart j) :=
    ((((k.leadsTo_next .random nofun nofun).trans (k.leadsTo_next .cmdOpa nofun nofun)).trans
      (k.leadsTo_next .rspOpa nofun nofun)).trans (k.leadsTo_next .cmdOpb nofun nofun)).trans
      (k.leadsTo_next .rspOpb nofun nofun)
  have result : Clocked.LeadsTo (k.Next d) (At d .cmdResult j) (At d .display j) :=
    (k.leadsTo_next .cmdResult nofun nofun).trans (k.leadsTo_next .rspResult nofun nofun)
  exact ((((operands.trans k.leadsTo_polling).trans (k.leadsTo_idle hj)).trans k.leadsTo_cmdResult).trans
    result).trans k.leadsTo_random

end Progress

/-- The run from reset, on a stream of draws. -/
def run (s : State) (d : Draws) : ℕ → Except Fault State := Clocked.runE k.step s fun _ => d

/-- **The simple platform displays the stream**, and its coprocessor never
fails its assert or exits. -/
theorem displays_run (d : Draws) (m : VciGcdMaster.Regs) (rnd : Data × Data) (o : TargetSignals)
    (c : VciGcdCoprocessor.Regs) (i : InitiatorSignals) :
    ∃ st : ℕ → State, (∀ t, k.run (reset m rnd o c i) d t = .ok (st t)) ∧ Displays d fun t => (st t).cout := by
  have h0 := inv_reset d m rnd o c i
  have hrun : ∀ t, ∃ s, k.run (reset m rnd o c i) d t = .ok s ∧ Inv d s :=
    Clocked.runE_inv (fun _ => Inv d) h0 fun t x _ hx => inv_step hx
  choose st hst hinv using hrun
  refine ⟨st, hst, fun t => (hinv t).shown, fun j hj => ?_⟩
  have hl := Clocked.leadsTo_chain (r := k.Next d) (P := At d .random) (k := j + 1)
    fun l hlt => k.leadsTo_round (hj l (by omega))
  obtain ⟨s, hs, -, -, hlen⟩ := hl _ ⟨h0, rfl, rfl⟩
  obtain ⟨t, ht⟩ := Clocked.runE_of_reach hs
  have e : st t = s := Except.ok.inj ((hst t).symm.trans ht)
  refine ⟨t, ?_⟩
  simp only [e, hlen]
  omega

end SimplePlatform
end Tp2
end Smc
