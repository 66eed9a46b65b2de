/-
# The handlers of the GIET

The assembly of `giet_2011/sys/giet.s`, instruction by instruction: the entry
point, which jumps through `_cause_vector`; `_sys_handler`, which keeps the
caller's `SR` and return address in a frame of the caller's stack; and
`_int_handler`, which saves in a larger frame the registers a C function may
change; and `_task_switch`, which exchanges all registers with those of
another task's context. Each block comes with what it does to the registers
and to the memory.

Branches and jumps end a block. The assembler fills the delay slots, as the
code does not ask for `noreorder`.
-/
import Smc.Lib.Mips

namespace Smc
namespace Giet

open Mips

/-- The addresses of code and tables, as linked. -/
structure Labels where
  causeVector : Word
  syscallVector : Word
  intHandler : Word
  sysHandler : Word
  intDemux : Word
  /-- the label `restore` of `_int_handler`, where `_int_demux` returns -/
  restore : Word
  /-- the `jalr` of `_sys_handler` -/
  sysCall : Word
  /-- the instruction after it, where system calls return -/
  sysReturn : Word

/-! ### The code -/

/-- `_giet`, up to the jump to `$26`. -/
def giet (k : Labels) : List Instr :=
  [.mfc0 27 .cr, .li 26 k.causeVector, .andi 27 27 0x3c, .addu 26 26 27, .lw 26 26 0]

/-- `_sys_handler`, up to the `jalr` to the system call. -/
def sysEnter (k : Labels) : List Instr :=
  [.addiu 29 29 (-24), .mfc0 26 .sr, .sw 26 29 16, .mfc0 27 .epc, .addiu 27 27 4, .sw 27 29 20,
    .andi 26 2 0x1F, .sll 26 26 2, .li 27 k.syscallVector, .addu 27 27 26, .lw 3 27 0,
    .li 27 0xFFFFFFED, .mfc0 26 .sr, .and 26 26 27, .mtc0 26 .sr]

/-- `_sys_handler` from the return of the system call to the `eret`. -/
def sysLeave : List Instr :=
  [.mtc0 0 .sr, .lw 26 29 16, .mtc0 26 .sr, .lw 26 29 20, .mtc0 26 .epc, .addiu 29 29 24]

/-- The registers `_int_handler` saves, with their slots. -/
def intRegs : List (Reg × ℕ) :=
  [(1, 4), (2, 5), (3, 6), (4, 7), (5, 8), (6, 9), (7, 10), (8, 11), (9, 12), (10, 13), (11, 14), (12, 15),
    (13, 16), (14, 17), (15, 18), (24, 19), (25, 20), (31, 21)]

def intSaveSpecial (k : Labels) : List Instr :=
  [.mflo 26, .sw 26 29 (4 * 22), .mfhi 26, .sw 26 29 (4 * 23), .mfc0 27 .epc, .sw 27 29 (4 * 24), .li 26 k.intDemux]

/-- `_int_handler`, up to the `jalr` to `_int_demux`. -/
def intSave (k : Labels) : List Instr := .addiu 29 29 (-100) :: (stores 29 intRegs ++ intSaveSpecial k)

def intRestoreSpecial : List Instr :=
  [.lw 26 29 (4 * 22), .mtlo 26, .lw 26 29 (4 * 23), .mthi 26, .lw 27 29 (4 * 24), .addiu 29 29 100, .mtc0 27 .epc]

/-- `_int_handler` from `restore` to the `eret`. -/
def intRestore : List Instr := loads 29 intRegs ++ intRestoreSpecial

/-- The general registers of a context, with their slots. -/
def ctxRegs : List (Reg × ℕ) :=
  [(1, 1), (2, 2), (3, 3), (4, 4), (5, 5), (6, 6), (7, 7), (8, 8), (9, 9), (10, 10), (11, 11), (12, 12), (13, 13),
    (14, 14), (15, 15), (16, 16), (17, 17), (18, 18), (19, 19), (20, 20), (21, 21), (22, 22), (23, 23), (24, 24),
    (25, 25), (28, 28), (29, 29), (30, 30), (31, 31)]

/-- The first half of `_task_switch`. -/
def taskSave : List Instr :=
  [.addu 27 4 0, .mfc0 26 .sr, .sw 26 27 (4 * 0)] ++ (stores 27 ctxRegs ++
    [.mfc0 26 .epc, .sw 26 27 (4 * 32), .mfc0 26 .cr, .sw 26 27 (4 * 33)])

/-- The second half of `_task_switch`, up to the `jr` to `$31`. -/
def taskRestore : List Instr :=
  [.addu 27 5 0, .lw 26 27 (4 * 0), .mtc0 26 .sr] ++ (loads 27 ctxRegs ++
    [.lw 26 27 (4 * 32), .mtc0 26 .epc, .lw 26 27 (4 * 33), .mtc0 26 .cr])

/-- `_task_switch`. -/
def taskSwitch (m : Machine) : Machine :=
  let m := exec taskRestore (exec taskSave m)
  { m with cpu := m.cpu.jump (m.cpu.get 31) }

/-! ### What each block does -/

section Entry

variable (k : Labels) (m : Machine)

theorem giet_mem : (exec (giet k) m).mem = m.mem := by
  simp only [giet, exec_cons, exec_nil, Instr.exec]

theorem giet_special : SameSpecial (exec (giet k) m).cpu m.cpu := by
  refine ⟨?_, ?_, ?_, ?_, ?_, ?_⟩ <;> simp [giet, exec_cons, exec_nil, Instr.exec]

theorem giet_get {r : Reg} (h : r ≠ 26) (h' : r ≠ 27) : (exec (giet k) m).cpu.get r = m.cpu.get r := by
  simp only [giet, exec_cons, exec_nil, Instr.exec]
  simp only [Cpu.get_set_of_ne _ h, Cpu.get_set_of_ne _ h']

/-- The handler `_giet` jumps to. -/
theorem giet_target : (exec (giet k) m).cpu.get 26 = m.mem (k.causeVector + (m.cpu.cr &&& 0x3c)) := by
  simp [giet, exec_cons, exec_nil, Instr.exec, Cpu.get_set_self, Cpu.get_set_of_ne, Cpu.getCp0]

end Entry

section Interrupt

theorem intRegs_slots : (intRegs.map Prod.snd).Nodup ∧ ∀ x ∈ intRegs, 4 ≤ x.2 ∧ x.2 < 22 := by decide

theorem intRegs_regs : (intRegs.map Prod.fst).Nodup ∧
    ∀ r : Reg, r ∈ intRegs.map Prod.fst → r ≠ 0 ∧ r ≠ 26 ∧ r ≠ 27 ∧ r ≠ 29 := by decide

theorem exec_addiu_sp (m : Machine) {imm : BitVec 16} {w : Word} (h : imm.signExtend 32 = -w) :
    Instr.exec m (.addiu 29 29 imm) = { m with cpu := m.cpu.set 29 (m.cpu.get 29 - w) } := by
  rw [Instr.exec, h, BitVec.sub_eq_add_neg]

/-- The saved state of `c` in a frame of `_int_handler`. -/
structure Framed (mem : Word → Word) (frame : Word) (c : Cpu) : Prop where
  regs : ∀ x ∈ intRegs, mem (slot frame x.2) = c.get x.1
  lo : mem (slot frame 22) = c.lo
  hi : mem (slot frame 23) = c.hi
  epc : mem (slot frame 24) = c.epc

theorem Framed.of_mem {mem mem' : Word → Word} {frame : Word} {c : Cpu} (h : Framed mem frame c)
    (hm : ∀ j, 4 ≤ j → j < 25 → mem' (slot frame j) = mem (slot frame j)) : Framed mem' frame c := by
  refine ⟨fun y hy => ?_, ?_, ?_, ?_⟩
  · obtain ⟨h4, h22⟩ := intRegs_slots.2 y hy
    exact (hm y.2 h4 (by omega)).trans (h.regs y hy)
  · exact (hm 22 (by omega) (by omega)).trans h.lo
  · exact (hm 23 (by omega) (by omega)).trans h.hi
  · exact (hm 24 (by omega) (by omega)).trans h.epc

/-- What `_int_handler` does before it calls. -/
structure IntSaved (m m' : Machine) : Prop where
  sp : m'.cpu.get 29 = m.cpu.get 29 - 100
  get : ∀ r, r ≠ 26 → r ≠ 27 → r ≠ 29 → m'.cpu.get r = m.cpu.get r
  special : SameSpecial m'.cpu m.cpu
  framed : Framed m'.mem (m.cpu.get 29 - 100) m.cpu
  mem : ∀ a, (∀ i, 4 ≤ i → i < 25 → a ≠ slot (m.cpu.get 29 - 100) i) → m'.mem a = m.mem a

theorem intSaveSpecial_cpu (k : Labels) (m : Machine) : (exec (intSaveSpecial k) m).cpu =
    (((m.cpu.set 26 m.cpu.lo).set 26 m.cpu.hi).set 27 m.cpu.epc).set 26 k.intDemux := by
  simp [intSaveSpecial, exec_cons, exec_nil, Instr.exec, Cpu.getCp0]

theorem intSaveSpecial_mem (k : Labels) (m : Machine) : (exec (intSaveSpecial k) m).mem =
    Function.update (Function.update (Function.update m.mem (slot (m.cpu.get 29) 22) m.cpu.lo)
      (slot (m.cpu.get 29) 23) m.cpu.hi) (slot (m.cpu.get 29) 24) m.cpu.epc := by
  simp [intSaveSpecial, exec_cons, exec_nil, Instr.exec, Cpu.getCp0, Cpu.get_set_self, Cpu.get_set_of_ne, slot]

theorem intSave_spec (k : Labels) (m : Machine) : IntSaved m (exec (intSave k) m) := by
  have h0 : exec (intSave k) m = exec (intSaveSpecial k) (exec (stores 29 intRegs)
      { m with cpu := m.cpu.set 29 (m.cpu.get 29 - 100) }) := by
    rw [intSave, exec_cons, exec_append, exec_addiu_sp m (show _ = -(100 : Word) by decide)]
  rw [h0]
  set frame := m.cpu.get 29 - 100 with hframe
  set m1 : Machine := { m with cpu := m.cpu.set 29 frame } with hm1
  have hsp : m1.cpu.get 29 = frame := Cpu.get_set_self _ (by decide) _
  have hsp' : (exec (stores 29 intRegs) m1).cpu.get 29 = frame := by rw [stores_cpu, hsp]
  have hne : ∀ {i j : ℕ}, i < 25 → j < 25 → i ≠ j → slot frame i ≠ slot frame j := by
    intro i j hi hj hij he
    exact hij (slot_inj (by omega) (by omega) he)
  have hmem := intSaveSpecial_mem k (exec (stores 29 intRegs) m1)
  rw [hsp', stores_cpu] at hmem
  refine ⟨?_, fun r h1 h2 h3 => ?_, ?_, ⟨fun x hx => ?_, ?_, ?_, ?_⟩, fun a ha => ?_⟩
  · rw [intSaveSpecial_cpu, stores_cpu, Cpu.get_set_of_ne _ (by decide), Cpu.get_set_of_ne _ (by decide),
      Cpu.get_set_of_ne _ (by decide), Cpu.get_set_of_ne _ (by decide), hsp]
  · rw [intSaveSpecial_cpu, stores_cpu]
    simp only [Cpu.get_set_of_ne _ h1, Cpu.get_set_of_ne _ h2]
    exact Cpu.get_set_of_ne _ h3 _
  · rw [intSaveSpecial_cpu, stores_cpu]
    refine ⟨?_, ?_, ?_, ?_, ?_, ?_⟩ <;> simp [hm1]
  · obtain ⟨h4, h22⟩ := intRegs_slots.2 x hx
    obtain ⟨hx0, -, -, h29⟩ := intRegs_regs.2 x.1 (List.mem_map_of_mem hx)
    have hst := stores_mem_slot (b := 29) intRegs m1 intRegs_slots.1
      (fun y hy => by have := (intRegs_slots.2 y hy).2; omega) hx
    rw [hsp] at hst
    rw [hmem, Function.update_of_ne (hne (by omega) (by omega) (by omega)),
      Function.update_of_ne (hne (by omega) (by omega) (by omega)),
      Function.update_of_ne (hne (by omega) (by omega) (by omega)), hst]
    exact Cpu.get_set_of_ne _ h29 _
  · rw [hmem, Function.update_of_ne (hne (by omega) (by omega) (by omega)),
      Function.update_of_ne (hne (by omega) (by omega) (by omega)), Function.update_self]
    simp [hm1]
  · rw [hmem, Function.update_of_ne (hne (by omega) (by omega) (by omega)), Function.update_self]
    simp [hm1]
  · rw [hmem, Function.update_self]
    simp [hm1]
  · rw [hmem, Function.update_of_ne (ha 24 (by omega) (by omega)), Function.update_of_ne (ha 23 (by omega) (by omega)),
      Function.update_of_ne (ha 22 (by omega) (by omega)), stores_mem_of_ne]
    intro x hx
    obtain ⟨h4, h22⟩ := intRegs_slots.2 x hx
    rw [hsp]
    exact ha x.2 h4 (by omega)

/-- What `_int_handler` does after the call: it takes `c` from its frame. -/
structure IntRestored (m m' : Machine) : Prop where
  sp : m'.cpu.get 29 = m.cpu.get 29 + 100
  regs : ∀ x ∈ intRegs, m'.cpu.get x.1 = m.mem (slot (m.cpu.get 29) x.2)
  get : ∀ r, r ∉ intRegs.map Prod.fst → r ≠ 26 → r ≠ 27 → r ≠ 29 → m'.cpu.get r = m.cpu.get r
  lo : m'.cpu.lo = m.mem (slot (m.cpu.get 29) 22)
  hi : m'.cpu.hi = m.mem (slot (m.cpu.get 29) 23)
  epc : m'.cpu.epc = m.mem (slot (m.cpu.get 29) 24)
  sr : m'.cpu.sr = m.cpu.sr
  mem : m'.mem = m.mem

theorem intRestore_spec (m : Machine) : IntRestored m (exec intRestore m) := by
  rw [intRestore, exec_append]
  have h29 : (29 : Reg) ∉ intRegs.map Prod.fst := by decide
  have hsp : (exec (loads 29 intRegs) m).cpu.get 29 = m.cpu.get 29 := loads_get_of_notMem _ _ h29
  have hmem : (exec (loads 29 intRegs) m).mem = m.mem := loads_mem _ _
  have hsr := (loads_special (b := 29) intRegs m).sr
  refine ⟨?_, fun x hx => ?_, fun r hr h1 h2 h3 => ?_, ?_, ?_, ?_, ?_, ?_⟩
  · simp [intRestoreSpecial, exec_cons, exec_nil, Instr.exec, Cpu.get_set_self, Cpu.get_set_of_ne, hsp]
  · obtain ⟨hx0, h26, h27, h29'⟩ := intRegs_regs.2 x.1 (List.mem_map_of_mem hx)
    have hl := loads_get_of_mem (b := 29) intRegs m intRegs_regs.1 h29 (by decide) hx
    simp only [intRestoreSpecial, exec_cons, exec_nil, Instr.exec, Cpu.get_setCp0, Cpu.get_setHi, Cpu.get_setLo]
    rw [Cpu.get_set_of_ne _ h29', Cpu.get_set_of_ne _ h27, Cpu.get_setHi, Cpu.get_set_of_ne _ h26, Cpu.get_setLo,
      Cpu.get_set_of_ne _ h26, hl]
  · simp only [intRestoreSpecial, exec_cons, exec_nil, Instr.exec, Cpu.get_setCp0, Cpu.get_setHi, Cpu.get_setLo]
    rw [Cpu.get_set_of_ne _ h3, Cpu.get_set_of_ne _ h2, Cpu.get_setHi, Cpu.get_set_of_ne _ h1, Cpu.get_setLo,
      Cpu.get_set_of_ne _ h1, loads_get_of_notMem _ _ hr]
  · simp [intRestoreSpecial, exec_cons, exec_nil, Instr.exec, Cpu.setLo, Cpu.setHi, Cpu.get_set_self, hsp, hmem, slot]
  · simp [intRestoreSpecial, exec_cons, exec_nil, Instr.exec, Cpu.setHi, Cpu.get_set_self, Cpu.get_set_of_ne, hsp, hmem,
      slot]
  · simp [intRestoreSpecial, exec_cons, exec_nil, Instr.exec, Cpu.get_set_self, Cpu.get_set_of_ne, hsp, hmem, slot]
  · simp [intRestoreSpecial, exec_cons, exec_nil, Instr.exec, Cpu.setHi, Cpu.setLo, hsr]
  · simp [intRestoreSpecial, exec_cons, exec_nil, Instr.exec, hmem]

end Interrupt

section Switch

theorem ctxRegs_slots : (ctxRegs.map Prod.snd).Nodup ∧ ∀ x ∈ ctxRegs, 1 ≤ x.2 ∧ x.2 < 32 := by decide

theorem ctxRegs_regs : (ctxRegs.map Prod.fst).Nodup ∧
    ∀ r : Reg, r ∈ ctxRegs.map Prod.fst → r ≠ 0 ∧ r ≠ 26 ∧ r ≠ 27 := by decide

/-- What the first half of `_task_switch` does. -/
structure TaskSaved (m m' : Machine) : Prop where
  get : ∀ r, r ≠ 26 → r ≠ 27 → m'.cpu.get r = m.cpu.get r
  special : SameSpecial m'.cpu m.cpu
  sr : m'.mem (slot (m.cpu.get 4) 0) = m.cpu.sr
  regs : ∀ x ∈ ctxRegs, m'.mem (slot (m.cpu.get 4) x.2) = m.cpu.get x.1
  mem : ∀ a, (∀ i < 34, a ≠ slot (m.cpu.get 4) i) → m'.mem a = m.mem a

theorem taskSave_spec (m : Machine) : TaskSaved m (exec taskSave m) := by
  rw [taskSave, exec_append, exec_append]
  set ctx := m.cpu.get 4 with hctx
  set m1 := exec [.addu 27 4 0, .mfc0 26 .sr, .sw 26 27 (4 * 0)] m with hm1
  have h1c : m1.cpu = (m.cpu.set 27 ctx).set 26 m.cpu.sr := by
    simp [hm1, hctx, exec_cons, exec_nil, Instr.exec, Cpu.getCp0]
  have h1m : m1.mem = Function.update m.mem (slot ctx 0) m.cpu.sr := by
    simp [hm1, hctx, exec_cons, exec_nil, Instr.exec, Cpu.getCp0, Cpu.get_set_self, Cpu.get_set_of_ne, slot]
  have h1b : m1.cpu.get 27 = ctx := by
    rw [h1c, Cpu.get_set_of_ne _ (by decide), Cpu.get_set_self _ (by decide)]
  have h1g : ∀ r, r ≠ 26 → r ≠ 27 → m1.cpu.get r = m.cpu.get r := fun r h h' => by
    rw [h1c, Cpu.get_set_of_ne _ h, Cpu.get_set_of_ne _ h']
  set m2 := exec (stores 27 ctxRegs) m1 with hm2
  have h2c : m2.cpu = m1.cpu := stores_cpu _ _
  have h3c : (exec [.mfc0 26 .epc, .sw 26 27 (4 * 32), .mfc0 26 .cr, .sw 26 27 (4 * 33)] m2).cpu =
      (m1.cpu.set 26 m1.cpu.epc).set 26 m1.cpu.cr := by
    simp [exec_cons, exec_nil, Instr.exec, Cpu.getCp0, h2c]
  have h3m : (exec [.mfc0 26 .epc, .sw 26 27 (4 * 32), .mfc0 26 .cr, .sw 26 27 (4 * 33)] m2).mem =
      Function.update (Function.update m2.mem (slot ctx 32) m1.cpu.epc) (slot ctx 33) m1.cpu.cr := by
    simp [exec_cons, exec_nil, Instr.exec, Cpu.getCp0, h2c, Cpu.get_set_self, Cpu.get_set_of_ne, h1b, slot]
  have hne : ∀ {i j : ℕ}, i < 34 → j < 34 → i ≠ j → slot ctx i ≠ slot ctx j := by
    intro i j hi hj hij he
    exact hij (slot_inj (by omega) (by omega) he)
  have hst : ∀ a, (∀ x ∈ ctxRegs, a ≠ slot ctx x.2) → m2.mem a = m1.mem a := by
    intro a ha
    exact stores_mem_of_ne _ _ fun x hx => by rw [h1b]; exact ha x hx
  refine ⟨fun r h h' => ?_, ?_, ?_, fun x hx => ?_, fun a ha => ?_⟩
  · rw [h3c, Cpu.get_set_of_ne _ h, Cpu.get_set_of_ne _ h, h1g r h h']
  · rw [h3c, h1c]
    refine ⟨?_, ?_, ?_, ?_, ?_, ?_⟩ <;> simp
  · rw [h3m, Function.update_of_ne (hne (by omega) (by omega) (by omega)),
      Function.update_of_ne (hne (by omega) (by omega) (by omega)), hst, h1m, Function.update_self]
    intro x hx
    have := ctxRegs_slots.2 x hx
    exact hne (by omega) (by omega) (by omega)
  · have hs := ctxRegs_slots.2 x hx
    obtain ⟨-, h26, h27⟩ := ctxRegs_regs.2 x.1 (List.mem_map_of_mem hx)
    have hv := stores_mem_slot (b := 27) ctxRegs m1 ctxRegs_slots.1
      (fun y hy => by have := (ctxRegs_slots.2 y hy).2; omega) hx
    rw [h1b, h1g x.1 h26 h27] at hv
    rw [h3m, Function.update_of_ne (hne (by omega) (by omega) (by omega)),
      Function.update_of_ne (hne (by omega) (by omega) (by omega)), hv]
  · rw [h3m, Function.update_of_ne (ha 33 (by omega)), Function.update_of_ne (ha 32 (by omega)), hst, h1m,
      Function.update_of_ne (ha 0 (by omega))]
    intro x hx
    exact ha x.2 (by have := (ctxRegs_slots.2 x hx).2; omega)

/-- What the second half of `_task_switch` does. -/
structure TaskRestored (ctx : Word) (m m' : Machine) : Prop where
  regs : ∀ x ∈ ctxRegs, m'.cpu.get x.1 = m.mem (slot ctx x.2)
  sr : m'.cpu.sr = m.mem (slot ctx 0)
  mem : m'.mem = m.mem

theorem taskRestore_spec (m : Machine) : TaskRestored (m.cpu.get 5) m (exec taskRestore m) := by
  rw [taskRestore, exec_append, exec_append]
  set ctx := m.cpu.get 5 with hctx
  set m1 := exec [.addu 27 5 0, .lw 26 27 (4 * 0), .mtc0 26 .sr] m with hm1
  have h1m : m1.mem = m.mem := by simp only [hm1, exec_cons, exec_nil, Instr.exec]
  have h1s : m1.cpu.sr = m.mem (slot ctx 0) := by
    simp [hm1, hctx, exec_cons, exec_nil, Instr.exec, Cpu.get_set_self, slot]
  have h1b : m1.cpu.get 27 = ctx := by
    simp [hm1, hctx, exec_cons, exec_nil, Instr.exec, Cpu.get_set_self, Cpu.get_set_of_ne]
  set m2 := exec (loads 27 ctxRegs) m1 with hm2
  have h2m : m2.mem = m.mem := (loads_mem _ _).trans h1m
  refine ⟨fun x hx => ?_, ?_, ?_⟩
  · obtain ⟨-, h26, h27⟩ := ctxRegs_regs.2 x.1 (List.mem_map_of_mem hx)
    have hl := loads_get_of_mem (b := 27) ctxRegs m1 ctxRegs_regs.1 (by decide) (by decide) hx
    rw [h1b, h1m] at hl
    rw [← hl]
    simp only [exec_cons, exec_nil, Instr.exec, Cpu.get_setCp0]
    rw [Cpu.get_set_of_ne _ h26, Cpu.get_setCp0, Cpu.get_set_of_ne _ h26]
  · rw [← h1s, ← (loads_special (b := 27) ctxRegs m1).sr]
    simp [exec_cons, exec_nil, Instr.exec, hm2]
  · simp [exec_cons, exec_nil, Instr.exec, h2m]

/-- What `_task_switch` does: the registers are those of the context in `$5`,
once those of the caller are in the context in `$4`. -/
structure TaskSwitched (m m' : Machine) : Prop where
  regs : ∀ x ∈ ctxRegs, m'.cpu.get x.1 = m'.mem (slot (m.cpu.get 5) x.2)
  sr : m'.cpu.sr = m'.mem (slot (m.cpu.get 5) 0)
  pc : m'.cpu.pc = m'.mem (slot (m.cpu.get 5) 31)
  savedSr : m'.mem (slot (m.cpu.get 4) 0) = m.cpu.sr
  savedRegs : ∀ x ∈ ctxRegs, m'.mem (slot (m.cpu.get 4) x.2) = m.cpu.get x.1
  mem : ∀ a, (∀ i < 34, a ≠ slot (m.cpu.get 4) i) → m'.mem a = m.mem a

theorem taskSwitch_spec (m : Machine) : TaskSwitched m (taskSwitch m) := by
  have hs := taskSave_spec m
  have hr := taskRestore_spec (exec taskSave m)
  rw [hs.get 5 (by decide) (by decide)] at hr
  unfold taskSwitch
  generalize exec taskSave m = s at hs hr
  generalize exec taskRestore s = m' at hr
  obtain ⟨hregs, hsr, hmem⟩ := hr
  refine ⟨fun x hx => ?_, ?_, ?_, ?_, fun x hx => ?_, fun a ha => ?_⟩
  all_goals simp only [hmem]
  · exact hregs x hx
  · exact hsr
  · exact hregs (31, 31) (by decide)
  · exact hs.sr
  · exact hs.regs x hx
  · exact hs.mem a ha

end Switch

section Syscall

/-- What `_sys_handler` does before it calls. -/
structure SysEntered (m m' : Machine) : Prop where
  sp : m'.cpu.get 29 = m.cpu.get 29 - 24
  sr : m'.cpu.sr = m.cpu.sr &&& 0xFFFFFFED
  savedSr : m'.mem (slot (m.cpu.get 29 - 24) 4) = m.cpu.sr
  savedEpc : m'.mem (slot (m.cpu.get 29 - 24) 5) = m.cpu.epc + 4
  mem : ∀ a, a ≠ slot (m.cpu.get 29 - 24) 4 → a ≠ slot (m.cpu.get 29 - 24) 5 → m'.mem a = m.mem a

theorem sysEnter_spec (k : Labels) (m : Machine) : SysEntered m (exec (sysEnter k) m) := by
  set sp := m.cpu.get 29 - 24 with hsp
  have h1 : exec (sysEnter k) m = exec (sysEnter k).tail { m with cpu := m.cpu.set 29 sp } := by
    rw [sysEnter, exec_cons, exec_addiu_sp m (show _ = -(24 : Word) by decide)]
    rfl
  have hne : slot sp 4 ≠ slot sp 5 := fun he => by
    have := slot_inj (by omega) (by omega) he
    omega
  have hmem : (exec (sysEnter k) m).mem =
      Function.update (Function.update m.mem (slot sp 4) m.cpu.sr) (slot sp 5) (m.cpu.epc + 4) := by
    rw [h1]
    simp [sysEnter, exec_cons, exec_nil, Instr.exec, Cpu.getCp0, Cpu.get_set_self, Cpu.get_set_of_ne, slot]
  refine ⟨?_, ?_, ?_, ?_, fun a h4 h5 => ?_⟩
  · rw [h1]
    simp [sysEnter, exec_cons, exec_nil, Instr.exec, Cpu.get_set_self, Cpu.get_set_of_ne]
    exact hsp
  · rw [h1]
    simp [sysEnter, exec_cons, exec_nil, Instr.exec, Cpu.getCp0, Cpu.get_set_self, Cpu.get_set_of_ne]
  · rw [hmem, Function.update_of_ne hne, Function.update_self]
  · rw [hmem, Function.update_self]
  · rw [hmem, Function.update_of_ne h5, Function.update_of_ne h4]

/-- What `_sys_handler` does after the call. -/
structure SysLeft (m m' : Machine) : Prop where
  sp : m'.cpu.get 29 = m.cpu.get 29 + 24
  sr : m'.cpu.sr = m.mem (slot (m.cpu.get 29) 4)
  epc : m'.cpu.epc = m.mem (slot (m.cpu.get 29) 5)
  mem : m'.mem = m.mem

theorem sysLeave_spec (m : Machine) : SysLeft m (exec sysLeave m) := by
  refine ⟨?_, ?_, ?_, ?_⟩
  · simp [sysLeave, exec_cons, exec_nil, Instr.exec, Cpu.get_set_self, Cpu.get_set_of_ne]
  · simp [sysLeave, exec_cons, exec_nil, Instr.exec, Cpu.get_set_self, slot]
  · simp [sysLeave, exec_cons, exec_nil, Instr.exec, Cpu.get_set_self, Cpu.get_set_of_ne, slot]
  · simp only [sysLeave, exec_cons, exec_nil, Instr.exec]

end Syscall

end Giet
end Smc
