/-
# What is kept of a task that does not run

A task that waits for its turn is kept in three places: its context, the frame
`_int_handler` pushed on its stack, and the frames of the C functions that
were left in the middle (`Suspended`). A system call in progress has its own
frame above all that (`CallKept`). These belong to the task alone, so nothing
changes as long as its stack and its context do not (`Waiting.of_untouched`).

Key definitions: `Running`, `Suspended`, `Waiting`, `Inv`, `Untouched`.
-/
import Smc.Giet.CtxSwitch

namespace Smc
namespace Giet

open Mips

/-! ### Addresses -/

namespace System

variable {P T : ℕ} (k : System P T)

theorem index_lt (p : Fin P) {i : ℕ} (hi : i < T) : p * T + i < P * T := by
  have hp : p.val + 1 ≤ P := p.isLt
  have := Nat.mul_le_mul_right T hp
  rw [Nat.succ_mul] at this
  omega

theorem index_inj {p q : Fin P} {i j : ℕ} (hi : i < T) (hj : j < T) (h : p * T + i = q * T + j) : p = q ∧ i = j := by
  have hpq : p.val = q.val := by
    have h1 : (p * T + i) / T = p := by
      rw [Nat.mul_comm, Nat.mul_add_div (by omega), Nat.div_eq_of_lt hi, Nat.add_zero]
    have h2 : (q * T + j) / T = q := by
      rw [Nat.mul_comm, Nat.mul_add_div (by omega), Nat.div_eq_of_lt hj, Nat.add_zero]
    rw [← h1, h, h2]
  refine ⟨Fin.ext hpq, ?_⟩
  rw [hpq] at h
  omega

/-- Word `w` of a context. -/
theorem context_slot_toNat (p : Fin P) {i w : ℕ} (hi : i < T) (hw : w < 64) :
    (slot (k.context p i) w).toNat = k.contexts.toNat + 256 * (p * T + i) + 4 * w := by
  have hidx := index_lt p hi
  have hfit := k.contexts_fit
  have hc : (k.context p i).toNat = k.contexts.toNat + 256 * (p * T + i) := by
    rw [context, slot_toNat (by omega)]
    omega
  rw [slot_toNat (by omega), hc]

theorem context_inContexts (p : Fin P) {i w : ℕ} (hi : i < T) (hw : w < 64) :
    k.InContexts (slot (k.context p i) w) := by
  have hidx := index_lt p hi
  rw [InContexts, k.context_slot_toNat p hi hw]
  omega

theorem context_slot_inj {p q : Fin P} {i j w v : ℕ} (hi : i < T) (hj : j < T) (hw : w < 64) (hv : v < 64)
    (h : slot (k.context p i) w = slot (k.context q j) v) : (p = q ∧ i = j) ∧ w = v := by
  have h' := congrArg BitVec.toNat h
  rw [k.context_slot_toNat p hi hw, k.context_slot_toNat q hj hv] at h'
  exact ⟨index_inj hi hj (by omega), by omega⟩

variable {k}

theorem InStack.not_inContexts {p : Fin P} {i : ℕ} {a : Word} (hi : i < T) (h : k.InStack p i a) :
    ¬ k.InContexts a := by
  intro hc
  rcases k.stacks_contexts p i a.toNat hi h.1 h.2 with h1 | h1
  · exact absurd hc.1 (by omega)
  · exact absurd hc.2 (by omega)

/-- The frame of `_int_handler` is in the task's stack. -/
theorem Fits.frame_toNat {p : Fin P} {i : ℕ} {sp : Word} (h : k.Fits p i sp) : (sp - 100).toNat = sp.toNat - 100 := by
  have h1 := h.1
  have h100 : 100 ≤ sp.toNat := by omega
  exact sub_toNat (n := 100) h100

theorem Fits.slot_frame {p : Fin P} {i j : ℕ} {sp : Word} (h : k.Fits p i sp) (hj : j < 25) :
    (slot (sp - 100) j).toNat = sp.toNat - 100 + 4 * j := by
  have hlt := sp.isLt
  have h1 := h.1
  have hf := h.frame_toNat
  rw [slot_toNat (by omega), hf]

theorem Fits.inStack_slot {p : Fin P} {i j : ℕ} {sp : Word} (h : k.Fits p i sp) (hj : j < 25) :
    k.InStack p i (slot (sp - 100) j) ∧ (slot (sp - 100) j).toNat < sp.toNat := by
  rw [InStack, h.slot_frame hj]
  have h1 := h.1
  have h2 := h.2
  omega

/-- So are the frames of the C functions below it. -/
theorem Fits.inStack_inFrame {p : Fin P} {i : ℕ} {sp a : Word} (h : k.Fits p i sp)
    (ha : InFrame k.isr.frame (sp - 100) a) : k.InStack p i a ∧ a.toNat < sp.toNat := by
  have hf := h.frame_toNat
  obtain ⟨h1, h2⟩ := ha
  have h3 := h.1
  have h4 := h.2
  rw [InStack]
  omega

/-- The saved registers are above these frames. -/
theorem Fits.not_inFrame_slot {p : Fin P} {i j : ℕ} {sp : Word} (h : k.Fits p i sp) (hj : 4 ≤ j) (hj' : j < 25) :
    ¬ InFrame k.isr.frame (sp - 100) (slot (sp - 100) j) := by
  intro ha
  have h1 := ha.2
  rw [h.slot_frame hj', h.frame_toNat] at h1
  omega

/-! ### What is kept -/

variable (k)

/-- The frame of `_sys_handler` holds the caller's `SR` and the address after
its `syscall`. -/
structure CallKept (mem : Word → Word) (p : Fin P) (i : ℕ) (c : Cpu) (sp : Word) : Prop where
  below : sp.toNat + 24 ≤ (c.get 29).toNat
  inStack : (c.get 29).toNat ≤ k.stackHi p i
  exl : c.sr &&& Cpu.exl = 0
  sr : mem (slot (c.get 29 - 24) 4) = c.sr ||| Cpu.exl
  epc : mem (slot (c.get 29 - 24) 5) = c.pc + 4

/-- Task `i` of `p` may run with registers `c`. -/
structure Running (mem : Word → Word) (p : Fin P) (i : ℕ) (c : Cpu) (call : Option Cpu) : Prop where
  fits : k.Fits p i (c.get 29)
  exl : c.sr &&& Cpu.exl = 0
  kept : ∀ c', call = some c' → k.CallKept mem p i c' (c.get 29)
  atReturn : ∀ c', call = some c' → c.pc = k.labels.sysReturn → c.get 29 = c'.get 29 - 24

/-- Task `i` of `p` was interrupted with registers `c`, and `_task_switch` was
called from `m`, the entry of `_int_demux`. -/
structure Suspended (mem : Word → Word) (p : Fin P) (i : ℕ) (c : Cpu) (m : Machine) (x : Word × Word) : Prop where
  sp : m.cpu.get 29 = c.get 29 - 100
  ra : m.cpu.get 31 = k.labels.restore
  saved : ∀ r ∈ calleeSaved, m.cpu.get r = c.get r
  framed : Framed mem (c.get 29 - 100) (c.trap 0)
  frame : ∀ a, InFrame k.isr.frame (c.get 29 - 100) a → mem a = (k.isr.down x m).mem a
  ctxSr : mem (slot (k.context p i) 0) = c.sr ||| Cpu.exl
  ctxRegs : ∀ y ∈ ctxRegs, mem (slot (k.context p i) y.2) = (k.isr.down x m).cpu.get y.1

/-- A task that has not run yet has its initial context. -/
structure Initial (mem : Word → Word) (p : Fin P) (i : ℕ) : Prop where
  sr : mem (slot (k.context p i) 0) &&& Cpu.exl ≠ 0
  ra : mem (slot (k.context p i) 31) = k.stub
  sp : k.Fits p i (mem (slot (k.context p i) 29))

/-- Task `i` of `p` waits for its turn. -/
def Waiting (mem : Word → Word) (p : Fin P) (i : ℕ) (susp call : Option Cpu) : Prop :=
  match susp with
  | some c => k.Running mem p i c call ∧ ∃ m x, k.Suspended mem p i c m x
  | none => call = none ∧ k.Initial mem p i

/-- What every reached state satisfies. -/
structure Inv (σ : State P) : Prop where
  current_lt : ∀ p, (σ.current p).toNat < (k.number p).toNat
  table : ∀ a v, k.table a = some v → σ.mem a = v
  running : ∀ p, k.Running σ.mem p (σ.current p).toNat (σ.cpu p) (σ.calling p (σ.current p).toNat)
  waiting : ∀ p i, i < (k.number p).toNat → i ≠ (σ.current p).toNat →
    k.Waiting σ.mem p i (σ.suspended p i) (σ.calling p i)

variable {k}

/-! ### They depend on the task's own memory only -/

theorem CallKept.slots {mem : Word → Word} {p : Fin P} {i : ℕ} {c : Cpu} {sp : Word} (h : k.CallKept mem p i c sp)
    {j : ℕ} (hj : j < 6) : (slot (c.get 29 - 24) j).toNat = (c.get 29).toNat - 24 + 4 * j := by
  have hlt := (c.get 29).isLt
  have hb := h.below
  have hle : 24 ≤ (c.get 29).toNat := by omega
  have h24 : (c.get 29 - 24).toNat = (c.get 29).toNat - 24 := sub_toNat (n := 24) hle
  rw [slot_toNat (by omega), h24]

/-- The frame of a system call is above the stack pointer. -/
theorem CallKept.of_mem {mem mem' : Word → Word} {p : Fin P} {i : ℕ} {c : Cpu} {sp sp' : Word}
    (h : k.CallKept mem p i c sp) (hlo : k.stackLo p i ≤ sp.toNat)
    (hsp : sp'.toNat + 24 ≤ (c.get 29).toNat)
    (hm : ∀ a, k.InStack p i a → (c.get 29).toNat ≤ a.toNat + 8 → a.toNat < (c.get 29).toNat → mem' a = mem a) :
    k.CallKept mem' p i c sp' := by
  have hb := h.below
  have hs := h.inStack
  have key : ∀ j, 4 ≤ j → j < 6 → mem' (slot (c.get 29 - 24) j) = mem (slot (c.get 29 - 24) j) := by
    intro j h4 h6
    have ht := h.slots h6
    refine hm _ ⟨?_, ?_⟩ ?_ ?_ <;> omega
  exact ⟨hsp, hs, h.exl, (key 4 (by omega) (by omega)).trans h.sr, (key 5 (by omega) (by omega)).trans h.epc⟩

theorem Running.of_mem {mem mem' : Word → Word} {p : Fin P} {i : ℕ} {c : Cpu} {call : Option Cpu}
    (h : k.Running mem p i c call)
    (hm : ∀ a, k.InStack p i a → (c.get 29).toNat ≤ a.toNat → mem' a = mem a) : k.Running mem' p i c call := by
  refine ⟨h.fits, h.exl, fun c' hc' => ?_, h.atReturn⟩
  have hk := h.kept c' hc'
  have hb := hk.below
  have hf := h.fits.1
  exact hk.of_mem (by omega) hb fun a ha hle _ => hm a ha (by omega)

/-- The parts of memory that belong to task `j` of `q` are unchanged. -/
structure Untouched (k : System P T) (q : Fin P) (j : ℕ) (mem mem' : Word → Word) : Prop where
  stack : ∀ a, k.InStack q j a → mem' a = mem a
  context : ∀ w < 34, mem' (slot (k.context q j) w) = mem (slot (k.context q j) w)

theorem Untouched.trans {q : Fin P} {j : ℕ} {mem mem' mem'' : Word → Word} (h : k.Untouched q j mem mem')
    (h' : k.Untouched q j mem' mem'') : k.Untouched q j mem mem'' :=
  ⟨fun a ha => (h'.stack a ha).trans (h.stack a ha), fun w hw => (h'.context w hw).trans (h.context w hw)⟩

theorem Suspended.of_untouched {mem mem' : Word → Word} {p : Fin P} {i : ℕ} {c : Cpu} {m : Machine} {x : Word × Word}
    (hf : k.Fits p i (c.get 29)) (h : k.Suspended mem p i c m x) (hu : k.Untouched p i mem mem') :
    k.Suspended mem' p i c m x := by
  refine ⟨h.sp, h.ra, h.saved, ?_, fun a ha => ?_, ?_, fun y hy => ?_⟩
  · exact h.framed.of_mem fun j _ hj => hu.stack _ (hf.inStack_slot hj).1
  · exact (hu.stack a (hf.inStack_inFrame ha).1).trans (h.frame a ha)
  · exact (hu.context 0 (by omega)).trans h.ctxSr
  · have := (ctxRegs_slots.2 y hy).2
    exact (hu.context y.2 (by omega)).trans (h.ctxRegs y hy)

theorem Initial.of_untouched {mem mem' : Word → Word} {p : Fin P} {i : ℕ} (h : k.Initial mem p i)
    (hu : k.Untouched p i mem mem') : k.Initial mem' p i := by
  refine ⟨?_, (hu.context 31 (by omega)).trans h.ra, ?_⟩
  · rw [hu.context 0 (by omega)]
    exact h.sr
  · rw [hu.context 29 (by omega)]
    exact h.sp

theorem Waiting.of_untouched {mem mem' : Word → Word} {p : Fin P} {i : ℕ} {susp call : Option Cpu}
    (h : k.Waiting mem p i susp call) (hu : k.Untouched p i mem mem') : k.Waiting mem' p i susp call := by
  cases susp with
  | some c =>
    obtain ⟨hr, m, x, hsus⟩ := h
    exact ⟨hr.of_mem fun a ha _ => hu.stack a ha, m, x, hsus.of_untouched hr.fits hu⟩
  | none => exact ⟨h.1, h.2.of_untouched hu⟩

end System
end Giet
end Smc
