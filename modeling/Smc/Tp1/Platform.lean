/-
# The FIFO platform of TP1

`FifoGcdMaster` draws two operands, writes them on its output FIFO, reads the
result on its input FIFO and displays it
(`TP1/TP1_etudiant/fifo_gcd_master.cpp`). `Platform` is the master wired to
the coprocessor by two FIFO signals as in `tp1_top.cpp`: the `w` of one side
is the `rok` of the other, the `r` of one side the `wok` of the other.

The two automata move in step (`InStep`): the coprocessor reads an operand
when the master writes it, and computes while the master waits for the result.
-/
import Smc.Display
import Smc.Tp1.FifoGcdCoprocessor

namespace Smc
namespace Tp1

open SubGcd (Loop)
open SubGcd.Loop (OneZero)

namespace FifoGcdMaster

/-- `fsm_state_e`. -/
inductive Fsm where
  | random
  | writeOpa
  | writeOpb
  | readRes
  | display
deriving DecidableEq, Repr

/-- The registers. -/
structure Regs where
  rFsm : Fsm
  rOpa : Word
  rOpb : Word
  rRes : Word
  rCyclecount : Word
  rIterationcount : Word
deriving DecidableEq, Repr

/-- The input ports a clock edge samples. -/
structure In where
  inRok : Bool
  inData : Word
  outWok : Bool
deriving DecidableEq, Repr

/-- The output ports. -/
structure Out where
  inR : Bool
  outW : Bool
  outData : Word
deriving DecidableEq, Repr

/-- The clock edge. `rnd` is the pair of `rand() + 1` values drawn if the
master is in `RANDOM`. -/
def transition (resetn : Bool) (rnd : Word × Word) (s : Regs) (i : In) : Regs :=
  if !resetn then { s with rFsm := .random, rCyclecount := 0, rIterationcount := 0 }
  else
    let s' := match s.rFsm with
      | .random => { s with
          rIterationcount := s.rIterationcount + 1, rOpa := rnd.1, rOpb := rnd.2, rFsm := .writeOpa }
      | .writeOpa => if i.outWok then { s with rFsm := .writeOpb } else s
      | .writeOpb => if i.outWok then { s with rFsm := .readRes } else s
      | .readRes => if i.inRok then { s with rRes := i.inData, rFsm := .display } else s
      | .display => { s with rFsm := .random }
    { s' with rCyclecount := s.rCyclecount + 1 }

/-- The line written at a clock edge. -/
def display (s : Regs) : List Line :=
  if s.rFsm = .display then
    [{ iteration := s.rIterationcount, cycle := s.rCyclecount, opa := s.rOpa, opb := s.rOpb, pgcd := s.rRes }]
  else []

def genMoore (s : Regs) : Out :=
  match s.rFsm with
  | .random | .display => { inR := false, outW := false, outData := 0 }
  | .writeOpa => { inR := false, outW := true, outData := s.rOpa }
  | .writeOpb => { inR := false, outW := true, outData := s.rOpb }
  | .readRes => { inR := true, outW := false, outData := 0 }

end FifoGcdMaster

/-- The platform: the two components, the number of pairs drawn so far and
the lines written so far. -/
structure Platform where
  master : FifoGcdMaster.Regs
  coproc : FifoGcdCoprocessor.Regs
  drawn : ℕ
  cout : List Line

namespace Platform

variable (d : Draws)

/-- A cycle of the platform out of reset. -/
def step (p : Platform) : Platform where
  master := FifoGcdMaster.transition true (d p.drawn) p.master
    { inRok := (FifoGcdCoprocessor.genMoore p.coproc).outW
      inData := (FifoGcdCoprocessor.genMoore p.coproc).outData
      outWok := (FifoGcdCoprocessor.genMoore p.coproc).inR }
  coproc := FifoGcdCoprocessor.transition true p.coproc
    { inRok := (FifoGcdMaster.genMoore p.master).outW
      inData := (FifoGcdMaster.genMoore p.master).outData
      outWok := (FifoGcdMaster.genMoore p.master).inR }
  drawn := if p.master.rFsm = .random then p.drawn + 1 else p.drawn
  cout := p.cout ++ FifoGcdMaster.display p.master

/-- `b` is the cycle after `a`. -/
def Next (a b : Platform) : Prop := step d a = b

theorem next_step (p : Platform) : Next d p (step d p) := rfl

/-- The platform after the reset edge, from arbitrary registers and inputs. -/
def reset (m : FifoGcdMaster.Regs) (mi : FifoGcdMaster.In) (c : FifoGcdCoprocessor.Regs)
    (ci : FifoGcdCoprocessor.In) : Platform where
  master := FifoGcdMaster.transition false (d 0) m mi
  coproc := FifoGcdCoprocessor.transition false c ci
  drawn := 0
  cout := []

/-! ### The two automata in step -/

/-- The master has drawn pair `cout.length` and not displayed it yet. -/
structure Holds (p : Platform) : Prop where
  drawn : p.drawn = p.cout.length + 1
  opa : p.master.rOpa = (d p.cout.length).1
  opb : p.master.rOpb = (d p.cout.length).2

/-- Where the coprocessor is for each state of the master. -/
def InStep (p : Platform) : Prop :=
  match p.master.rFsm with
  | .random => p.coproc.rFsm = .readOpa ∧ p.drawn = p.cout.length
  | .writeOpa => p.coproc.rFsm = .readOpa ∧ Holds d p
  | .writeOpb => p.coproc.rFsm = .readOpb ∧ Holds d p ∧ p.coproc.rOpa = p.master.rOpa
  | .readRes => p.coproc.rFsm.holdsPair = true ∧ Holds d p ∧
      (FifoGcdCoprocessor.toLoop p.coproc).Computes (SubGcd.gcd p.master.rOpa p.master.rOpb) ∧
      (d.Hangs p.cout.length ↔ OneZero p.coproc.rOpa p.coproc.rOpb)
  | .display => p.coproc.rFsm = .readOpa ∧ Holds d p ∧
      p.master.rRes = SubGcd.gcd p.master.rOpa p.master.rOpb ∧ ¬ d.Hangs p.cout.length

/-- What every reached state satisfies. -/
structure Inv (p : Platform) : Prop where
  inStep : InStep d p
  shown : Shown d p.cout

theorem inv_reset (m : FifoGcdMaster.Regs) (mi : FifoGcdMaster.In) (c : FifoGcdCoprocessor.Regs)
    (ci : FifoGcdCoprocessor.In) : Inv d (reset d m mi c ci) :=
  ⟨⟨rfl, rfl⟩, shown_nil d⟩

/-! ### One cycle from each state of the master -/

section Cycle

variable {d} {p : Platform} (h : Inv d p)
include h

theorem step_random (hf : p.master.rFsm = .random) :
    Inv d (step d p) ∧ (step d p).master.rFsm = .writeOpa ∧ (step d p).cout = p.cout := by
  obtain ⟨hs, hc⟩ := h
  simp only [InStep, hf] at hs
  obtain ⟨hr, hd⟩ := hs
  have ec : (step d p).cout = p.cout := by simp [step, FifoGcdMaster.display, hf]
  have em : (step d p).master.rFsm = .writeOpa := by simp [step, FifoGcdMaster.transition, hf]
  refine ⟨⟨?_, ec ▸ hc⟩, em, ec⟩
  simp only [InStep, em]
  refine ⟨by simp [step, FifoGcdCoprocessor.transition, FifoGcdMaster.genMoore, hf, hr], ?_, ?_, ?_⟩
  · rw [ec]; simp [step, hf, hd]
  · rw [ec]; simp [step, FifoGcdMaster.transition, hf, hd]
  · rw [ec]; simp [step, FifoGcdMaster.transition, hf, hd]

theorem step_writeOpa (hf : p.master.rFsm = .writeOpa) :
    Inv d (step d p) ∧ (step d p).master.rFsm = .writeOpb ∧ (step d p).cout = p.cout := by
  obtain ⟨hs, hc⟩ := h
  simp only [InStep, hf] at hs
  obtain ⟨hr, hd, ha, hb⟩ := hs
  have ec : (step d p).cout = p.cout := by simp [step, FifoGcdMaster.display, hf]
  have em : (step d p).master.rFsm = .writeOpb := by
    simp [step, FifoGcdMaster.transition, FifoGcdCoprocessor.genMoore, hf, hr]
  refine ⟨⟨?_, ec ▸ hc⟩, em, ec⟩
  simp only [InStep, em]
  refine ⟨by simp [step, FifoGcdCoprocessor.transition, FifoGcdMaster.genMoore, hf, hr], ⟨?_, ?_, ?_⟩, ?_⟩
  · rw [ec]; simpa [step, hf] using hd
  · rw [ec]; simpa [step, FifoGcdMaster.transition, FifoGcdCoprocessor.genMoore, hf, hr] using ha
  · rw [ec]; simpa [step, FifoGcdMaster.transition, FifoGcdCoprocessor.genMoore, hf, hr] using hb
  · simp [step, FifoGcdMaster.transition, FifoGcdCoprocessor.transition, FifoGcdMaster.genMoore,
      FifoGcdCoprocessor.genMoore, hf, hr]

theorem step_writeOpb (hf : p.master.rFsm = .writeOpb) :
    Inv d (step d p) ∧ (step d p).master.rFsm = .readRes ∧ (step d p).coproc.rFsm = .compare ∧
      (step d p).cout = p.cout := by
  obtain ⟨hs, hc⟩ := h
  simp only [InStep, hf] at hs
  obtain ⟨hr, ⟨hd, ha, hb⟩, hx⟩ := hs
  have ec : (step d p).cout = p.cout := by simp [step, FifoGcdMaster.display, hf]
  have em : (step d p).master = { p.master with
      rFsm := .readRes, rCyclecount := p.master.rCyclecount + 1 } := by
    simp [step, FifoGcdMaster.transition, FifoGcdCoprocessor.genMoore, hf, hr]
  have ep : (step d p).coproc = ⟨.compare, p.master.rOpa, p.master.rOpb⟩ := by
    simp [step, FifoGcdCoprocessor.transition, FifoGcdMaster.genMoore, hf, hr, hx]
  have ef : (step d p).master.rFsm = .readRes := by rw [em]
  refine ⟨⟨?_, ec ▸ hc⟩, ef, by rw [ep], ec⟩
  simp only [InStep, ef]
  rw [ep, em, ec]
  refine ⟨rfl, ⟨?_, ?_, ?_⟩, Loop.Computes.start, ?_⟩
  · rw [ec]; simpa [step, hf] using hd
  · rw [em, ec]; exact ha
  · rw [em, ec]; exact hb
  · rw [Draws.Hangs, ← ha, ← hb]

/-- While the master waits, the coprocessor subtracts. -/
theorem step_subtracts (hf : p.master.rFsm = .readRes) (hw : p.coproc.rFsm ≠ .writeRes) :
    Inv d (step d p) ∧ (step d p).master.rFsm = .readRes ∧ (step d p).cout = p.cout ∧
      FifoGcdCoprocessor.toLoop (step d p).coproc = (FifoGcdCoprocessor.toLoop p.coproc).step := by
  obtain ⟨hs, hc⟩ := h
  simp only [InStep, hf] at hs
  obtain ⟨hp, ⟨hd, ha, hb⟩, hl, hz⟩ := hs
  have hg : (FifoGcdCoprocessor.genMoore p.coproc).outW = false := by
    unfold FifoGcdCoprocessor.genMoore
    cases hq : p.coproc.rFsm <;> simp_all
  have ec : (step d p).cout = p.cout := by simp [step, FifoGcdMaster.display, hf]
  have em : (step d p).master = { p.master with rCyclecount := p.master.rCyclecount + 1 } := by
    simp [step, FifoGcdMaster.transition, hf, hg]
  have ef : (step d p).master.rFsm = .readRes := by rw [em]; exact hf
  obtain ⟨el, hp'⟩ := FifoGcdCoprocessor.toLoop_transition hp hw
    { inRok := (FifoGcdMaster.genMoore p.master).outW
      inData := (FifoGcdMaster.genMoore p.master).outData
      outWok := (FifoGcdMaster.genMoore p.master).inR }
  change FifoGcdCoprocessor.toLoop (step d p).coproc = _ at el
  change (step d p).coproc.rFsm.holdsPair = true at hp'
  refine ⟨⟨?_, ec ▸ hc⟩, ef, ec, el⟩
  simp only [InStep, ef]
  refine ⟨hp', ⟨?_, ?_, ?_⟩, ?_, ?_⟩
  · rw [ec]; simpa [step, hf] using hd
  · rw [em, ec]; exact ha
  · rw [em, ec]; exact hb
  · rw [el, em]; exact hl.step
  · rw [ec, hz]
    have hz' := Loop.oneZero_step hl
    rw [← el] at hz'
    exact hz'.symm

theorem step_writeRes (hf : p.master.rFsm = .readRes) (hw : p.coproc.rFsm = .writeRes) :
    Inv d (step d p) ∧ (step d p).master.rFsm = .display ∧ (step d p).cout = p.cout := by
  obtain ⟨hs, hc⟩ := h
  simp only [InStep, hf] at hs
  obtain ⟨hp, ⟨hd, ha, hb⟩, hl, hz⟩ := hs
  have hdone : (FifoGcdCoprocessor.toLoop p.coproc).phase = .done := by
    simp [FifoGcdCoprocessor.toLoop, hw]
  have hres := (hl.result hdone).1
  have ec : (step d p).cout = p.cout := by simp [step, FifoGcdMaster.display, hf]
  have em : (step d p).master = { p.master with
      rRes := p.coproc.rOpa, rFsm := .display, rCyclecount := p.master.rCyclecount + 1 } := by
    simp [step, FifoGcdMaster.transition, FifoGcdCoprocessor.genMoore, hf, hw]
  have ef : (step d p).master.rFsm = .display := by rw [em]
  refine ⟨⟨?_, ec ▸ hc⟩, ef, ec⟩
  simp only [InStep, ef]
  refine ⟨by simp [step, FifoGcdCoprocessor.transition, FifoGcdMaster.genMoore, hf, hw],
    ⟨?_, ?_, ?_⟩, ?_, ?_⟩
  · rw [ec]; simpa [step, hf] using hd
  · rw [em, ec]; exact ha
  · rw [em, ec]; exact hb
  · rw [em]; exact hres
  · rw [ec, hz]
    exact fun ho => Loop.OneZero.not_done hl ho hdone

theorem step_display (hf : p.master.rFsm = .display) :
    Inv d (step d p) ∧ (step d p).master.rFsm = .random ∧ (step d p).cout.length = p.cout.length + 1 := by
  obtain ⟨hs, hc⟩ := h
  simp only [InStep, hf] at hs
  obtain ⟨hr, ⟨hd, ha, hb⟩, hg, hh⟩ := hs
  have ec : (step d p).cout = p.cout ++ [⟨p.master.rIterationcount, p.master.rCyclecount,
      p.master.rOpa, p.master.rOpb, p.master.rRes⟩] := by simp [step, FifoGcdMaster.display, hf]
  have ef : (step d p).master.rFsm = .random := by simp [step, FifoGcdMaster.transition, hf]
  refine ⟨⟨?_, ?_⟩, ef, by simp [ec]⟩
  · simp only [InStep, ef]
    refine ⟨by simp [step, FifoGcdCoprocessor.transition, FifoGcdMaster.genMoore, hf, hr], ?_⟩
    rw [ec]
    simpa [step, hf] using hd
  · rw [ec]
    exact hc.concat (by rw [ha, hb]) hg hh

theorem inv_step : Inv d (step d p) := by
  cases hf : p.master.rFsm with
  | random => exact (step_random h hf).1
  | writeOpa => exact (step_writeOpa h hf).1
  | writeOpb => exact (step_writeOpb h hf).1
  | readRes =>
    by_cases hw : p.coproc.rFsm = .writeRes
    · exact (step_writeRes h hf hw).1
    · exact (step_subtracts h hf hw).1
  | display => exact (step_display h hf).1

end Cycle

/-! ### Every pair that does not hang is displayed -/

/-- The master is in state `f` and `k` lines are written. -/
def At (f : FifoGcdMaster.Fsm) (k : ℕ) (p : Platform) : Prop :=
  Inv d p ∧ p.master.rFsm = f ∧ p.cout.length = k

/-- The coprocessor ends on a pair that does not hang. -/
theorem leadsTo_display {k : ℕ} (hk : ¬ d.Hangs k) :
    Clocked.LeadsTo (Next d)
      (fun p => At d .readRes k p ∧ p.coproc.rFsm = .compare) (At d .display k) := by
  refine Clocked.leadsTo_of_measure (fun p => p.coproc.rOpa.toNat + p.coproc.rOpb.toNat) ?_
  rintro p ⟨⟨h, hf, hl⟩, hc⟩
  have hw : p.coproc.rFsm ≠ .writeRes := by rw [hc]; nofun
  obtain ⟨h1, f1, c1, e1⟩ := step_subtracts h hf hw
  have hz : ¬ OneZero p.coproc.rOpa p.coproc.rOpb := by
    have hs := h.inStep
    simp only [InStep, hf] at hs
    rw [← hs.2.2.2, hl]
    exact hk
  have hloop : FifoGcdCoprocessor.toLoop p.coproc = ⟨.compare, p.coproc.rOpa, p.coproc.rOpb⟩ := by
    simp [FifoGcdCoprocessor.toLoop, hc]
  rcases Loop.compare_step hz with hd | ⟨a', b', he, -, hlt⟩
  · -- the comparison ends the loop: the next cycle hands the result over
    rw [hloop, hd] at e1
    have hw1 : (step d p).coproc.rFsm = .writeRes := by
      have := congrArg Loop.phase e1
      cases hq : (step d p).coproc.rFsm <;> simp_all [FifoGcdCoprocessor.toLoop]
    obtain ⟨h2, f2, c2⟩ := step_writeRes h1 f1 hw1
    exact ⟨_, (Relation.ReflTransGen.single (next_step d _)).tail (next_step d _), .inl ⟨h2, f2, by rw [c2, c1, hl]⟩⟩
  · -- a subtraction follows, and the two words get smaller
    rw [hloop] at e1
    have hw1 : (step d p).coproc.rFsm ≠ .writeRes := by
      intro hq
      have hph : (FifoGcdCoprocessor.toLoop (step d p).coproc).phase = .done := by
        simp [FifoGcdCoprocessor.toLoop, hq]
      rw [e1] at hph
      have := congrArg Loop.phase he
      rw [Loop.step, hph] at this
      simp [hph] at this
    obtain ⟨h2, f2, c2, e2⟩ := step_subtracts h1 f1 hw1
    rw [e1, he] at e2
    have hq2 : (step d (step d p)).coproc.rFsm = .compare := by
      have hs := h2.inStep
      simp only [InStep, f2] at hs
      have h3 := congrArg Loop.phase e2
      have h4 := hs.1
      cases hq : (step d (step d p)).coproc.rFsm <;>
        simp_all [FifoGcdCoprocessor.toLoop, FifoGcdCoprocessor.Fsm.holdsPair]
    refine ⟨_, (Relation.ReflTransGen.single (next_step d _)).tail (next_step d _),
      .inr ⟨⟨⟨h2, f2, by rw [c2, c1, hl]⟩, hq2⟩, ?_⟩⟩
    have ha := congrArg Loop.a e2
    have hb := congrArg Loop.b e2
    simp only [FifoGcdCoprocessor.toLoop] at ha hb
    rw [ha, hb]
    exact hlt

/-- A round: from one draw to the next. -/
theorem leadsTo_round {k : ℕ} (hk : ¬ d.Hangs k) :
    Clocked.LeadsTo (Next d) (At d .random k) (At d .random (k + 1)) := by
  have h1 : Clocked.LeadsTo (Next d) (At d .random k)
      (fun p => At d .readRes k p ∧ p.coproc.rFsm = .compare) := by
    rintro p ⟨h, hf, hl⟩
    obtain ⟨h1, f1, c1⟩ := step_random h hf
    obtain ⟨h2, f2, c2⟩ := step_writeOpa h1 f1
    obtain ⟨h3, f3, g3, c3⟩ := step_writeOpb h2 f2
    exact ⟨_, ((Relation.ReflTransGen.single (next_step d _)).tail (next_step d _)).tail (next_step d _),
      ⟨h3, f3, by rw [c3, c2, c1, hl]⟩, g3⟩
  have h3 : Clocked.LeadsTo (Next d) (At d .display k) (At d .random (k + 1)) := by
    refine Clocked.leadsTo_of_step ?_
    rintro p ⟨h, hf, hl⟩
    obtain ⟨h1, f1, c1⟩ := step_display h hf
    exact ⟨_, next_step d p, h1, f1, by rw [c1, hl]⟩
  exact (h1.trans (leadsTo_display d hk)).trans h3

/-- **The FIFO platform displays the stream.** -/
theorem displays_reset (m : FifoGcdMaster.Regs) (mi : FifoGcdMaster.In) (c : FifoGcdCoprocessor.Regs)
    (ci : FifoGcdCoprocessor.In) :
    Displays d fun t => ((step d)^[t] (reset d m mi c ci)).cout := by
  have h0 := inv_reset d m mi c ci
  refine ⟨fun t => ?_, fun k hk => ?_⟩
  · have : ∀ t, Inv d ((step d)^[t] (reset d m mi c ci)) := by
      intro t
      induction t with
      | zero => exact h0
      | succ t ih =>
        rw [Function.iterate_succ_apply']
        exact inv_step ih
    exact (this t).shown
  · have hl := Clocked.leadsTo_chain (r := Next d) (P := At d .random) (k := k + 1)
      fun j hj => leadsTo_round d (hk j (by omega))
    obtain ⟨p, hp, -, -, hlen⟩ := hl _ ⟨h0, rfl, rfl⟩
    obtain ⟨t, ht⟩ := Clocked.iterate_of_reach hp
    exact ⟨t, by simp only [ht, hlen]; omega⟩

end Platform
end Tp1
end Smc
