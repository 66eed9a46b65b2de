/-
# The dispatch tables of the GIET

Four steps of the kernel choose a routine or a text by a number: `_giet` by
the cause of an exception, `_sys_handler` by the number of a system call,
`_int_demux` by what the interrupt controller gives, and `_cause` by the
number each exception passes to it. The tables are those of
`giet_2011/sys/exc_handler.c`, `sys_handler.c` and `irq_handler.c`.

Two of the steps mask the number. `_int_demux` compares it as a signed one,
and `exc_message_causes` has a text less than it has causes, as two string
literals follow each other without a comma.

Key theorem: `inTables_iff`.
-/
import Smc.Giet.CtxSwitch

namespace Smc
namespace Giet

open Mips

/-! ### The tables -/

/-- The routines of `_cause_vector`. -/
inductive CauseRoutine where
  | intHandler
  | causeUkn
  | causeAdel
  | causeAdes
  | causeIbe
  | causeDbe
  | sysHandler
  | causeBp
  | causeRi
  | causeCpu
  | causeOvf
deriving DecidableEq, Repr

/-- `_cause_vector`. -/
def causeVector : List CauseRoutine :=
  [.intHandler, .causeUkn, .causeUkn, .causeUkn, .causeAdel, .causeAdes, .causeIbe, .causeDbe,
    .sysHandler, .causeBp, .causeRi, .causeCpu, .causeOvf, .causeUkn, .causeUkn, .causeUkn]

/-- `exc_message_causes`. No comma follows the eighth literal: the ninth
belongs to the same text. -/
def excMessageCauses : List String :=
  ["\n\nException : strange unknown cause\n",
    "\n\nException : illegal read address \n",
    "\n\nException : illegal write address\n",
    "\n\nException : inst bus error       \n",
    "\n\nException : data bus error       \n",
    "\n\nException : breakpoint           \n",
    "\n\nException : reserved instruction \n",
    "\n\nException : illegal coproc access\n" ++
    "\n\nException : arithmetic overflow  \n"]

/-- The number a routine passes to `_cause`. The handlers of interrupts and
system calls do not call it. -/
def CauseRoutine.msgCause : CauseRoutine → Option ℕ
  | .intHandler | .sysHandler => none
  | .causeUkn => some 0
  | .causeAdel => some 1
  | .causeAdes => some 2
  | .causeIbe => some 3
  | .causeDbe => some 4
  | .causeBp => some 5
  | .causeRi => some 6
  | .causeCpu => some 7
  | .causeOvf => some 8

/-- The routines of `_syscall_vector`. -/
inductive SyscallRoutine where
  | procid
  | proctime
  | ttyWrite
  | ttyRead
  | timerWrite
  | timerRead
  | gcdWrite
  | gcdRead
  | ttyReadIrq
  | ctxSwitch
  | exit
  | procnumber
  | fbSyncWrite
  | fbSyncRead
  | fbWrite
  | fbRead
  | fbCompleted
  | iocWrite
  | iocRead
  | iocCompleted
  | barrierInit
  | barrierWait
  | sysUkn
deriving DecidableEq, Repr

/-- `_syscall_vector`. -/
def syscallVector : List SyscallRoutine :=
  [.procid, .proctime, .ttyWrite, .ttyRead, .timerWrite, .timerRead, .gcdWrite, .gcdRead,
    .sysUkn, .sysUkn, .ttyReadIrq, .sysUkn, .sysUkn, .ctxSwitch, .exit, .procnumber,
    .fbSyncWrite, .fbSyncRead, .fbWrite, .fbRead, .fbCompleted, .iocWrite, .iocRead, .iocCompleted,
    .barrierInit, .barrierWait, .sysUkn, .sysUkn, .sysUkn, .sysUkn, .sysUkn, .sysUkn]

/-- `_interrupt_vector`, before the boot code writes entries of it. -/
def interruptVector : List Isr := List.replicate 32 .isrDefault

/-! ### The steps that index them -/

section Steps

variable (k : Labels) (m : Machine)

/-- The address of the entry that `_giet` loads. -/
def gietEntry : Word := (exec ((giet k).take 4) m).cpu.get 26

/-- The address of the entry that `_sys_handler` loads. -/
def sysEntry : Word := (exec ((sysEnter k).take 10) m).cpu.get 27

/-- The cause of an exception, `XCODE`. -/
def xcode : ℕ := (m.cpu.cr &&& 0x3c).toNat / 4

def icuItVector : Word := 4
def icuEnd : Word := 5

/-- `_icu_read`: the word of a register, or an error. `icu` are the registers
of the processor's own controller. -/
def icuRead (icu : Word → Word) (registerIndex : Word) : Option Word :=
  if registerIndex ≥ icuEnd then none else some (icu registerIndex)

/-- The index of `_int_demux` into `_interrupt_vector`, when it calls a
routine: an `int`. -/
def demuxIndex (icu : Word → Word) : Option ℤ :=
  match icuRead icu icuItVector with
  | none => none
  | some interruptIndex => demuxed interruptIndex

end Steps

/-- Every step stays in its table, and a word above 31 calls no routine. -/
structure InTables (k : Labels) (m : Machine) (icu : Word → Word) : Prop where
  cause : ∃ i < causeVector.length, gietEntry k m = slot k.causeVector i
  syscall : ∃ i < syscallVector.length, sysEntry k m = slot k.syscallVector i
  interrupt : ∀ j, demuxIndex icu = some j → 0 ≤ j ∧ j < interruptVector.length
  noInterrupt : 31 < (icu icuItVector).toNat → demuxIndex icu = none
  message : ∀ routine n, causeVector[xcode m]? = some routine → routine.msgCause = some n →
    n < excMessageCauses.length

/-! ### What each step reads -/

section Entries

variable (k : Labels) (m : Machine)

/-- A multiple of four in six bits is the offset of one of sixteen words. -/
theorem and_cause (w : Word) : (w &&& 0x3c).toNat < 64 ∧ (w &&& 0x3c).toNat % 4 = 0 := by
  have h : (w &&& 0x3c).toNat = w.toNat &&& 60 := by
    rw [BitVec.toNat_and]
    simp
  have hle : w.toNat &&& 60 ≤ 60 := Nat.and_le_right
  have hmod : (w.toNat &&& 60) % 2 ^ 2 = (w.toNat % 2 ^ 2) &&& (60 % 2 ^ 2) := Nat.and_mod_two_pow
  rw [h]
  constructor
  · omega
  · simpa using hmod

theorem and_syscall (w : Word) : (w &&& 0x1F).toNat < 32 := by
  have h : (w &&& 0x1F).toNat = w.toNat &&& 31 := by
    rw [BitVec.toNat_and]
    simp
  have hle : w.toNat &&& 31 ≤ 31 := Nat.and_le_right
  omega

theorem xcode_lt : xcode m < causeVector.length := by
  have h := and_cause m.cpu.cr
  show (m.cpu.cr &&& 0x3c).toNat / 4 < 16
  omega

theorem gietEntry_eq : gietEntry k m = slot k.causeVector (xcode m) := by
  have h := and_cause m.cpu.cr
  have hentry : gietEntry k m = k.causeVector + (m.cpu.cr &&& 0x3c) := by
    simp [gietEntry, giet, exec_cons, exec_nil, Instr.exec, Cpu.get_set_self, Cpu.get_set_of_ne, Cpu.getCp0]
  have hx : 4 * xcode m = (m.cpu.cr &&& 0x3c).toNat := by
    unfold xcode
    omega
  rw [hentry, slot, hx, BitVec.ofNat_toNat, BitVec.setWidth_eq]

theorem sysEntry_eq : sysEntry k m = slot k.syscallVector (m.cpu.get 2 &&& 0x1F).toNat := by
  -- the six instructions before the `andi` leave `$2` alone
  have hframe : (exec ((sysEnter k).take 6) m).cpu.get 2 = m.cpu.get 2 := by
    simp [sysEnter, exec_cons, exec_nil, Instr.exec, Cpu.get_set_of_ne]
  have hsplit : (sysEnter k).take 10 =
      (sysEnter k).take 6 ++ [.andi 26 2 0x1F, .sll 26 26 2, .li 27 k.syscallVector, .addu 27 27 26] := rfl
  have hshift : (m.cpu.get 2 &&& 0x1F) <<< 2 = BitVec.ofNat 32 (4 * (m.cpu.get 2 &&& 0x1F).toNat) := by
    rw [BitVec.toNat_eq, BitVec.toNat_shiftLeft, BitVec.toNat_ofNat, Nat.shiftLeft_eq]
    omega
  rw [sysEntry, hsplit, exec_append, slot, ← hshift, ← hframe]
  generalize exec ((sysEnter k).take 6) m = m1
  simp [exec_cons, exec_nil, Instr.exec, Cpu.get_set_self, Cpu.get_set_of_ne]

theorem icuRead_icuItVector (icu : Word → Word) : icuRead icu icuItVector = some (icu icuItVector) := by
  unfold icuRead
  exact if_neg (by decide)

/-- The signed comparison keeps out the words from 32 to 2^31 - 1. -/
theorem demuxIndex_eq (icu : Word → Word) : demuxIndex icu =
    if 31 < (icu icuItVector).toInt then none else some (icu icuItVector).toInt := by
  unfold demuxIndex
  rw [icuRead_icuItVector]
  rfl

theorem causeVector_ovf : ∀ x < causeVector.length, causeVector[x]? = some .causeOvf ↔ x = 12 := by decide

theorem msgCause_lt {routine : CauseRoutine} {n : ℕ} (h : routine ≠ .causeOvf) (hn : routine.msgCause = some n) :
    n < excMessageCauses.length := by
  show n < 8
  unfold CauseRoutine.msgCause at hn
  split at hn
  all_goals first
    | exact absurd rfl h
    | cases hn
  all_goals decide

/-- `_cause` has a text for every cause but one. -/
theorem message_iff : (∀ routine n, causeVector[xcode m]? = some routine → routine.msgCause = some n →
    n < excMessageCauses.length) ↔ xcode m ≠ 12 := by
  have hovf := causeVector_ovf (xcode m) (xcode_lt m)
  constructor
  · intro h hx
    have hlen : 8 < excMessageCauses.length := h .causeOvf 8 (hovf.mpr hx) rfl
    exact absurd hlen (by decide)
  · intro hx routine n hr hn
    apply msgCause_lt _ hn
    intro hro
    exact hx (hovf.mp (hro ▸ hr))

theorem xcode_eq_iff : xcode m = 12 ↔ m.cpu.cr &&& 0x3c = 0x30 := by
  have h := and_cause m.cpu.cr
  rw [BitVec.toNat_eq, show (0x30 : Word).toNat = 48 from rfl]
  unfold xcode
  omega

end Entries

/-- The index is in the table, or none, exactly when the word is not negative
as an `int`. -/
theorem demux_iff (icu : Word → Word) :
    ((∀ j, demuxIndex icu = some j → 0 ≤ j ∧ j < interruptVector.length) ∧
      (31 < (icu icuItVector).toNat → demuxIndex icu = none)) ↔ (icu icuItVector).toNat < 2 ^ 31 := by
  rw [demuxIndex_eq]
  show (∀ j, _ → 0 ≤ j ∧ j < 32) ∧ _ ↔ _
  have hint := BitVec.toInt_eq_toNat_cond (icu icuItVector)
  have hlt := (icu icuItVector).isLt
  generalize icu icuItVector = w at *
  by_cases hneg : w.toNat < 2 ^ 31
  · rw [if_pos (by omega)] at hint
    refine iff_of_true ⟨fun j hj => ?_, fun h => ?_⟩ hneg
    · split_ifs at hj with h31
      obtain rfl := Option.some.inj hj
      omega
    · rw [if_pos (by omega)]
  · rw [if_neg (by omega)] at hint
    refine iff_of_false (fun h => ?_) hneg
    have hnone := h.2 (by omega)
    rw [if_neg (by omega)] at hnone
    cases hnone

/-- **Where dispatch leaves its tables.** For every cause, every system call
and every word of the interrupt controller: the indices stay in their tables,
and no routine is called for a word above 31, exactly when the word is below
2^31 and the cause is not the arithmetic overflow, of which `_cause` has no
text. -/
theorem inTables_iff (k : Labels) (m : Machine) (icu : Word → Word) :
    InTables k m icu ↔ (icu icuItVector).toNat < 2 ^ 31 ∧ m.cpu.cr &&& 0x3c ≠ 0x30 := by
  have hmsg := message_iff m
  rw [Ne, xcode_eq_iff] at hmsg
  rw [← demux_iff icu, Ne, ← hmsg]
  constructor
  · intro h
    exact ⟨⟨h.interrupt, h.noInterrupt⟩, h.message⟩
  · intro h
    obtain ⟨⟨hint, hno⟩, hm⟩ := h
    exact {
      cause := ⟨xcode m, xcode_lt m, gietEntry_eq k m⟩
      syscall := ⟨_, and_syscall _, sysEntry_eq k m⟩
      interrupt := hint
      noInterrupt := hno
      message := hm }

/-- A processor in an exception with this cause. -/
def stopped (cr : Word) : Machine := ⟨⟨fun _ => 0, 0, 0, 0, cr, 0, 0⟩, fun _ => 0⟩

/-- An arithmetic overflow with no interrupt pending, and an interrupt for
which the controller gives a word with its sign bit set. -/
theorem outside_tables :
    ¬ InTables ⟨0, 0, 0, 0, 0, 0, 0, 0⟩ (stopped 0x30) (fun _ => 32) ∧
      ¬ InTables ⟨0, 0, 0, 0, 0, 0, 0, 0⟩ (stopped 0) (fun _ => 0x80000000) := by
  constructor
  · intro h
    have hlen : 8 < excMessageCauses.length := h.message .causeOvf 8 rfl rfl
    exact absurd hlen (by decide)
  · intro h
    have hidx : (0 : ℤ) ≤ -2147483648 := (h.interrupt (-2147483648) (by decide)).1
    exact absurd hidx (by decide)

end Giet
end Smc
