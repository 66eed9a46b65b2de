/-
# Straight-line code that others run beside

A block of instructions takes its steps one by one, and between two of them
interrupts may be taken and other processors write the memory. `Guarded` says
what such a block does on the way: the `SR` at each of its instructions, the
addresses it loads from and those it stores to.

A guarded block depends on the memory it loads from only: it runs the same
from two memories that agree there (`Guarded.congr`). One instruction later
the rest of the block is guarded, by definition.

Key definitions: `Instr.load`, `Instr.store`, `Guarded`, `SameOn`.
Key theorems: `Guarded.congr`, `guarded_append`, `guarded_stores`,
`guarded_loads`.
-/
import Smc.Lib.Mips

namespace Smc
namespace Mips

/-- The address an instruction reads. -/
def Instr.load (m : Machine) : Instr → Option Word
  | .lw _ base offset => some (m.cpu.get base + BitVec.ofNat 32 offset)
  | _ => none

/-- The address an instruction writes. -/
def Instr.store (m : Machine) : Instr → Option Word
  | .sw _ base offset => some (m.cpu.get base + BitVec.ofNat 32 offset)
  | _ => none

/-- Each instruction of the block is executed with an `SR` of `Q`, loads from
`A` and stores to `B`; and the block ends with an `SR` of `Q`. -/
def Guarded (Q : Word → Prop) (A B : Set Word) : List Instr → Machine → Prop
  | [], m => Q m.cpu.sr
  | i :: l, m => Q m.cpu.sr ∧ (∀ a ∈ i.load m, a ∈ A) ∧ (∀ a ∈ i.store m, a ∈ B) ∧ Guarded Q A B l (i.exec m)

/-- The same registers, and the same memory on `A`. -/
structure SameOn (A : Set Word) (m m' : Machine) : Prop where
  cpu : m.cpu = m'.cpu
  mem : ∀ a ∈ A, m.mem a = m'.mem a

/-! ### One instruction -/

section Instr

variable {i : Instr} {m m' : Machine} {A : Set Word}

theorem Instr.exec_mem_of_ne {a : Word} (h : ∀ b ∈ i.store m, a ≠ b) : (i.exec m).mem a = m.mem a := by
  cases i with
  | sw rt base offset => exact Function.update_of_ne (h _ rfl) _ _
  | _ => rfl

theorem SameOn.load {rt base : Reg} {offset : ℕ} (h : SameOn A m m')
    (hl : ∀ a ∈ (Instr.lw rt base offset).load m, a ∈ A) :
    m.mem (m.cpu.get base + BitVec.ofNat 32 offset) = m'.mem (m'.cpu.get base + BitVec.ofNat 32 offset) := by
  rw [← h.cpu]
  exact h.mem _ (hl _ rfl)

theorem SameOn.store (h : SameOn A m m') (w v : Word) (a : Word) (ha : a ∈ A) :
    Function.update m.mem w v a = Function.update m'.mem w v a := by
  by_cases he : a = w
  · rw [he, Function.update_self, Function.update_self]
  · rw [Function.update_of_ne he, Function.update_of_ne he, h.mem a ha]

theorem SameOn.exec (h : SameOn A m m') (hl : ∀ a ∈ i.load m, a ∈ A) : SameOn A (i.exec m) (i.exec m') := by
  cases i with
  | lw rt base offset =>
    refine ⟨?_, h.mem⟩
    show m.cpu.set _ _ = m'.cpu.set _ _
    rw [h.load hl, h.cpu]
  | sw rt base offset =>
    refine ⟨h.cpu, ?_⟩
    unfold Instr.exec
    rw [← h.cpu]
    exact h.store _ _
  | _ =>
    refine ⟨?_, h.mem⟩
    unfold Instr.exec
    rw [h.cpu]

end Instr

/-! ### Blocks -/

variable {Q : Word → Prop} {A B : Set Word} {l l' : List Instr} {m m' : Machine}

theorem guarded_cons {i : Instr} : Guarded Q A B (i :: l) m ↔
    Q m.cpu.sr ∧ (∀ a ∈ i.load m, a ∈ A) ∧ (∀ a ∈ i.store m, a ∈ B) ∧ Guarded Q A B l (i.exec m) := Iff.rfl

theorem Guarded.now (h : Guarded Q A B l m) : Q m.cpu.sr := by
  cases l with
  | nil => exact h
  | cons i l => exact h.1

theorem guarded_append : Guarded Q A B (l ++ l') m ↔ Guarded Q A B l m ∧ Guarded Q A B l' (exec l m) := by
  induction l generalizing m with
  | nil => exact ⟨fun h => ⟨h.now, h⟩, fun h => h.2⟩
  | cons i l ih =>
    rw [List.cons_append, exec_cons, guarded_cons, guarded_cons, ih]
    tauto

/-- The block runs the same from another memory, if that agrees where the
block loads. -/
theorem Guarded.congr (h : Guarded Q A B l m) (hs : SameOn A m m') :
    Guarded Q A B l m' ∧ SameOn A (exec l m) (exec l m') := by
  induction l generalizing m m' with
  | nil =>
    refine ⟨?_, hs⟩
    show Q m'.cpu.sr
    rw [← hs.cpu]
    exact h
  | cons i l ih =>
    obtain ⟨hQ, hA, hB, hl⟩ := h
    obtain ⟨hg, hsame⟩ := ih hl (hs.exec hA)
    refine ⟨⟨?_, ?_, ?_, hg⟩, hsame⟩
    · rw [← hs.cpu]
      exact hQ
    · unfold Instr.load at hA ⊢
      rw [← hs.cpu]
      exact hA
    · unfold Instr.store at hB ⊢
      rw [← hs.cpu]
      exact hB

theorem guarded_stores {b : Reg} {r : List (Reg × ℕ)} (hQ : Q m.cpu.sr)
    (hB : ∀ x ∈ r, slot (m.cpu.get b) x.2 ∈ B) : Guarded Q A B (stores b r) m := by
  induction r generalizing m with
  | nil => exact hQ
  | cons x r ih =>
    apply guarded_cons.mpr
    refine ⟨hQ, ?_, ?_, ih hQ fun y hy => hB y (List.mem_cons_of_mem x hy)⟩
    · rintro a ⟨⟩
    · rintro a ⟨⟩
      exact hB x List.mem_cons_self

theorem guarded_loads {b : Reg} {r : List (Reg × ℕ)} (hQ : Q m.cpu.sr) (hb : b ∉ r.map Prod.fst)
    (hA : ∀ x ∈ r, slot (m.cpu.get b) x.2 ∈ A) : Guarded Q A B (loads b r) m := by
  induction r generalizing m with
  | nil => exact hQ
  | cons x r ih =>
    rw [List.map_cons, List.mem_cons, not_or] at hb
    apply guarded_cons.mpr
    refine ⟨hQ, ?_, ?_, ih ?_ hb.2 fun y hy => ?_⟩
    · rintro a ⟨⟩
      exact hA x List.mem_cons_self
    · rintro a ⟨⟩
    · rw [Instr.exec, Cpu.set_sr]
      exact hQ
    · rw [Instr.exec, Cpu.get_set_of_ne _ hb.1]
      exact hA y (List.mem_cons_of_mem x hy)

end Mips
end Smc
