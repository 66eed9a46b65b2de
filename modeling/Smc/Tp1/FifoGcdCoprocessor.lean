/-
# The FIFO coprocessor of TP1

`FifoGcdCoprocessor` reads two operands on its input FIFO, subtracts until
they are equal and writes the result on its output FIFO
(`TP1/TP1_etudiant/fifo_gcd_coprocessor.cpp`). `transition` is the clock edge
and `genMoore` the outputs of a cycle, which depend on the registers alone.

A word is consumed in a cycle with `p_in.r` and `p_in.rok`, and emitted in a
cycle with `p_out.w` and `p_out.wok`. The ledger of a run is a list of
finished pairs and the words taken since (`Ledger`): the words consumed are
the pairs laid flat and then these words, the words emitted are the pairs'
divisors. The coprocessor is a stream transformer (`emitted_gcd_of_consumed`).
-/
import Smc.Lib.Clocked
import Smc.Lib.SubGcd

namespace Smc
namespace Tp1

open SubGcd (Loop Phase)

/-- The words of the FIFOs, `uint32_t`. -/
abbrev Word := BitVec 32

namespace FifoGcdCoprocessor

/-- `coprocessor_fsm_state_e`. -/
inductive Fsm where
  | readOpa
  | readOpb
  | compare
  | decrA
  | decrB
  | writeRes
deriving DecidableEq, Repr

/-- The registers. -/
structure Regs where
  rFsm : Fsm
  rOpa : Word
  rOpb : Word
deriving DecidableEq, Repr

/-- The input ports a clock edge samples. -/
structure In where
  inRok : Bool
  inData : Word
  outWok : Bool
deriving DecidableEq, Repr

/-- The output ports. -/
structure Out where
  inR : Bool
  outW : Bool
  outData : Word
deriving DecidableEq, Repr

def transition (resetn : Bool) (s : Regs) (i : In) : Regs :=
  if !resetn then { s with rFsm := .readOpa }
  else match s.rFsm with
  | .readOpa => if i.inRok then { s with rOpa := i.inData, rFsm := .readOpb } else s
  | .readOpb => if i.inRok then { s with rOpb := i.inData, rFsm := .compare } else s
  | .compare =>
    if s.rOpa < s.rOpb then { s with rFsm := .decrB }
    else if s.rOpa > s.rOpb then { s with rFsm := .decrA }
    else { s with rFsm := .writeRes }
  | .decrA => { s with rOpa := s.rOpa - s.rOpb, rFsm := .compare }
  | .decrB => { s with rOpb := s.rOpb - s.rOpa, rFsm := .compare }
  | .writeRes => if i.outWok then { s with rFsm := .readOpa } else s

def genMoore (s : Regs) : Out :=
  match s.rFsm with
  | .readOpa | .readOpb => { inR := true, outW := false, outData := 0 }
  | .compare | .decrA | .decrB => { inR := false, outW := false, outData := 0 }
  | .writeRes => { inR := false, outW := true, outData := s.rOpa }

/-! ### The subtraction

Between the second operand and the result the coprocessor is the loop of
`SubGcd`. -/

/-- The states that hold a complete pair whose result is not emitted yet. -/
def Fsm.holdsPair : Fsm → Bool
  | .readOpa | .readOpb => false
  | .compare | .decrA | .decrB | .writeRes => true

/-- The state of the loop a coprocessor that holds a pair is in. -/
def toLoop (s : Regs) : Loop 32 where
  phase := match s.rFsm with
    | .decrA => .decA
    | .decrB => .decB
    | .writeRes => .done
    | .readOpa | .readOpb | .compare => .compare
  a := s.rOpa
  b := s.rOpb

/-- A coprocessor that subtracts takes the loop's step. -/
theorem toLoop_transition {s : Regs} (h : s.rFsm.holdsPair = true) (hw : s.rFsm ≠ .writeRes) (i : In) :
    toLoop (transition true s i) = (toLoop s).step ∧ (transition true s i).rFsm.holdsPair = true := by
  obtain ⟨f, a, b⟩ := s
  cases f with
  | readOpa | readOpb => cases h
  | writeRes => exact absurd rfl hw
  | decrA | decrB => exact ⟨rfl, rfl⟩
  | compare =>
    by_cases h1 : a < b
    · simp [transition, toLoop, Loop.step, Fsm.holdsPair, h1]
    · by_cases h2 : b < a
      · simp [transition, toLoop, Loop.step, Fsm.holdsPair, h1, h2]
      · simp [transition, toLoop, Loop.step, Fsm.holdsPair, h1, h2]

/-! ### Runs from reset -/

/-- The registers at every cycle after a reset from arbitrary registers. -/
def run (s : Regs) (i : ℕ → In) : ℕ → Regs :=
  Clocked.run (transition true) (transition false s (i 0)) i

/-- The word consumed in a cycle. -/
def consume (s : Regs) (i : In) : List Word :=
  if (genMoore s).inR && i.inRok then [i.inData] else []

/-- The word emitted in a cycle. -/
def emit (s : Regs) (i : In) : List Word :=
  if (genMoore s).outW && i.outWok then [(genMoore s).outData] else []

theorem consume_of_holdsPair {s : Regs} (h : s.rFsm.holdsPair = true) (i : In) : consume s i = [] := by
  unfold consume genMoore
  cases hf : s.rFsm <;> simp_all [Fsm.holdsPair]

theorem emit_of_ne {s : Regs} (h : s.rFsm ≠ .writeRes) (i : In) : emit s i = [] := by
  unfold emit genMoore
  cases hf : s.rFsm <;> simp_all

/-- The words consumed in the cycles before `t`. -/
def consumed (s : Regs) (i : ℕ → In) : ℕ → List Word :=
  Clocked.log (transition true) consume (transition false s (i 0)) i

/-- The words emitted in the cycles before `t`. -/
def emitted (s : Regs) (i : ℕ → In) : ℕ → List Word :=
  Clocked.log (transition true) emit (transition false s (i 0)) i

/-! ### The ledger -/

/-- The operands of a list of pairs, in the order they are consumed. -/
def operands (ps : List (Word × Word)) : List Word := ps.flatMap fun p => [p.1, p.2]

theorem operands_length (ps : List (Word × Word)) : (operands ps).length = 2 * ps.length := by
  simp [operands, List.length_flatMap, Nat.mul_comm]

theorem operands_concat (ps : List (Word × Word)) (a b : Word) :
    operands (ps ++ [(a, b)]) = operands ps ++ [a, b] := by
  simp [operands]

/-- Operand `2k` and operand `2k+1` are pair `k`. -/
theorem operands_getElem? : ∀ (ps : List (Word × Word)) (rest : List Word) (k : ℕ) (p : Word × Word),
    ps[k]? = some p →
    (operands ps ++ rest)[2 * k]? = some p.1 ∧ (operands ps ++ rest)[2 * k + 1]? = some p.2
  | [], _, _, _, h => by simp at h
  | q :: ps, rest, 0, p, h => by
    simp only [List.getElem?_cons_zero, Option.some.injEq] at h
    subst h
    exact ⟨rfl, rfl⟩
  | q :: ps, rest, k + 1, p, h => by
    have ih := operands_getElem? ps rest k p (by simpa using h)
    have e : operands (q :: ps) ++ rest = q.1 :: q.2 :: (operands ps ++ rest) := rfl
    rw [e, show 2 * (k + 1) = 2 * k + 1 + 1 by ring]
    simpa using ih

/-- The words taken since the last finished pair: none or one while the
operands are read, two while their divisor is computed. -/
def Taken (s : Regs) (rest : List Word) : Prop :=
  match s.rFsm with
  | .readOpa => rest = []
  | .readOpb => rest = [s.rOpa]
  | .compare | .decrA | .decrB | .writeRes =>
    ∃ a b, rest = [a, b] ∧ (toLoop s).Computes (SubGcd.gcd a b)

/-- The ledger of the words consumed (`w`) and emitted (`o`) so far. -/
def Ledger (s : Regs) (w o : List Word) : Prop :=
  ∃ ps rest, w = operands ps ++ rest ∧ o = ps.map (fun p => SubGcd.gcd p.1 p.2) ∧ Taken s rest

theorem taken_of_holdsPair {s : Regs} (h : s.rFsm.holdsPair = true) (rest : List Word) :
    Taken s rest ↔ ∃ a b, rest = [a, b] ∧ (toLoop s).Computes (SubGcd.gcd a b) := by
  unfold Taken
  cases hf : s.rFsm <;> simp_all [Fsm.holdsPair]

theorem ledger_reset (s : Regs) (i : In) : Ledger (transition false s i) [] [] :=
  ⟨[], [], rfl, rfl, rfl⟩

/-- A clock edge keeps the ledger. -/
theorem ledger_step {s : Regs} {w o : List Word} (h : Ledger s w o) (i : In) :
    Ledger (transition true s i) (w ++ consume s i) (o ++ emit s i) := by
  obtain ⟨ps, rest, rfl, rfl, ht⟩ := h
  by_cases hp : s.rFsm.holdsPair = true
  · by_cases hw : s.rFsm = .writeRes
    · obtain ⟨a, b, rfl, hc⟩ := (taken_of_holdsPair hp rest).mp ht
      have hres : s.rOpa = SubGcd.gcd a b := (hc.result (by simp [toLoop, hw])).1
      rw [consume_of_holdsPair hp, List.append_nil]
      cases hk : i.outWok with
      | false => exact ⟨ps, [a, b], rfl, by simp [emit, hk], by simpa [transition, hw, hk] using ht⟩
      | true =>
        refine ⟨ps ++ [(a, b)], [], ?_, ?_, ?_⟩
        · simp [operands_concat]
        · simp [emit, genMoore, hw, hk, hres]
        · simp [Taken, transition, hw, hk]
    · obtain ⟨a, b, rfl, hc⟩ := (taken_of_holdsPair hp rest).mp ht
      obtain ⟨e, hp'⟩ := toLoop_transition hp hw i
      refine ⟨ps, [a, b], ?_, ?_, (taken_of_holdsPair hp' _).mpr ⟨a, b, rfl, e ▸ hc.step⟩⟩
      · rw [consume_of_holdsPair hp, List.append_nil]
      · rw [emit_of_ne hw, List.append_nil]
  · obtain ⟨f, x, y⟩ := s
    cases f with
    | readOpa =>
      simp only [Taken] at ht
      subst ht
      refine ⟨ps, consume ⟨.readOpa, x, y⟩ i, by simp, by simp [emit, genMoore], ?_⟩
      cases hk : i.inRok <;> simp [Taken, transition, consume, genMoore, hk]
    | readOpb =>
      simp only [Taken] at ht
      subst ht
      refine ⟨ps, [x] ++ consume ⟨.readOpb, x, y⟩ i, by simp, by simp [emit, genMoore], ?_⟩
      cases hk : i.inRok with
      | false => simp [Taken, transition, consume, genMoore, hk]
      | true =>
        simp only [Taken, transition, consume, genMoore, hk]
        exact ⟨x, i.inData, rfl, Loop.Computes.start⟩
    | compare | decrA | decrB | writeRes => exact absurd rfl hp

theorem ledger_run (s : Regs) (i : ℕ → In) (t : ℕ) :
    Ledger (run s i t) (consumed s i t) (emitted s i t) := by
  induction t with
  | zero => exact ledger_reset s (i 0)
  | succ t ih => exact ledger_step ih (i t)

/-- **The coprocessor is a stream transformer.** In every run from reset, the
`k`-th word emitted is the divisor of operands `2k` and `2k+1`, and every
complete pair consumed has been answered, except the one the coprocessor
holds. -/
theorem emitted_gcd_of_consumed (s : Regs) (i : ℕ → In) (t : ℕ) :
    (∀ k < (emitted s i t).length, ∃ a b o, (consumed s i t)[2 * k]? = some a ∧
      (consumed s i t)[2 * k + 1]? = some b ∧ (emitted s i t)[k]? = some o ∧
      o.toNat = Nat.gcd a.toNat b.toNat) ∧
    (emitted s i t).length + (if (run s i t).rFsm.holdsPair then 1 else 0) =
      (consumed s i t).length / 2 := by
  obtain ⟨ps, rest, hw, ho, ht⟩ := ledger_run s i t
  rw [hw, ho]
  constructor
  · intro k hk
    rw [List.length_map] at hk
    have hp : ps[k]? = some ps[k] := List.getElem?_eq_getElem hk
    obtain ⟨h1, h2⟩ := operands_getElem? ps rest k _ hp
    exact ⟨_, _, _, h1, h2, by rw [List.getElem?_map, hp]; rfl, SubGcd.toNat_gcd _ _⟩
  · rw [List.length_append, operands_length, List.length_map]
    cases hf : (run s i t).rFsm <;> simp only [Taken, hf] at ht
    · subst ht
      simp [Fsm.holdsPair]
    · subst ht
      simp [Fsm.holdsPair]
      omega
    all_goals
      obtain ⟨a, b, rfl, -⟩ := ht
      simp [Fsm.holdsPair]

end FifoGcdCoprocessor
end Tp1
end Smc
