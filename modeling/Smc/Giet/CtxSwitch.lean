/-
# Timer-driven context switching

The system of `giet_2011/sys`: processors that run tasks, system calls and
timer interrupts. A timer interrupt goes through `_giet`, `_int_handler`,
`_int_demux`, `_isr_switch` and `_ctx_switch` to `_task_switch`, which leaves
the interrupted task in the middle of these calls and returns in the middle of
those of the next task.

The assembly is that of `Handlers`, the choice of the next task that of
`_ctx_switch`. What the compiler makes of the C functions is not in the
repository: `IsrCode` is any code for them that obeys the calling convention.
Between the handlers a task executes any instructions that keep to its stack
(`Allowed`).

A handler is one step. It runs with interrupts masked, and it reads and writes
only the stacks and contexts of two tasks of its own processor (`Served` in
`TimerHandler`), which no other processor touches.

Key definitions: `IsrCode`, `System`, `timer`, `syscall`, `sysret`, `Step`.
-/
import Smc.Giet.Handlers

namespace Smc
namespace Giet

open Mips

/-! ### Compiled code -/

/-- The compiled `_int_demux`, `_isr_switch` and `_ctx_switch`, under the
calling convention. What they write besides their frames is not in `mem`:
`_current_task_array` is a field of `State`, and the timer a device. -/
structure IsrCode where
  /-- the bytes of stack the three use -/
  frame : ℕ
  /-- where `_task_switch` returns in `_ctx_switch` -/
  ret : Word
  /-- from the entry of `_int_demux` to that of `_task_switch` -/
  down : Word × Word → Machine → Machine
  /-- from the return of `_task_switch` to that of `_int_demux` -/
  up : Machine → Machine
  /-- a call of `_int_demux` in which `_task_switch` is not called -/
  pass : Machine → Machine
  down_called : ∀ x m, frame ≤ (m.cpu.get 29).toNat → Called frame ret x m (down x m)
  up_returned : ∀ x m m', frame ≤ (m.cpu.get 29).toNat → Resumable frame ret m (down x m) m' →
    Returned frame m m' (up m')
  pass_returned : ∀ m, frame ≤ (m.cpu.get 29).toNat → Returned frame m m (pass m)

/-! ### The system -/

/-- The routines of the interrupt vector. -/
inductive Isr where
  | isrDefault
  | isrDma
  | isrIoc
  | isrTimer
  | isrTtyGet (taskId : ℕ)
  | isrSwitch
deriving DecidableEq, Repr

/-- The test of `_int_demux` on an index read from the interrupt controller, a
signed one: the index of the routine it calls. -/
def demuxed (interruptIndex : Word) : Option ℤ :=
  if interruptIndex.toInt > 31 then none else some interruptIndex.toInt

/-- `_int_demux`: the routine of an index. -/
def intDemux (vector : ℕ → Isr) (interruptIndex : Word) : Option Isr :=
  (demuxed interruptIndex).map fun _ => vector interruptIndex.toNat

/-- A system as built and booted: `P` is `NB_PROCS`, `T` is `NB_MAXTASKS`. -/
structure System (P T : ℕ) where
  labels : Labels
  isr : IsrCode
  /-- `_task_number_array` -/
  number : Fin P → BitVec 8
  number_pos : ∀ p, 1 ≤ (number p).toNat
  number_le : ∀ p, (number p).toNat ≤ T
  /-- `_interrupt_vector` -/
  interruptVector : ℕ → Isr
  /-- what the interrupt controller gives for the timer -/
  timerIndex : Word
  timer_switches : intDemux interruptVector timerIndex = some .isrSwitch
  /-- `_task_context_array` -/
  contexts : Word
  contexts_fit : contexts.toNat + 256 * (P * T) ≤ 2 ^ 32
  /-- the constant tables in memory -/
  table : Word → Option Word
  causeInt : table labels.causeVector = some labels.intHandler
  causeSys : table (labels.causeVector + 0x20) = some labels.sysHandler
  stackLo : Fin P → ℕ → ℕ
  stackHi : Fin P → ℕ → ℕ
  /-- the address the boot code puts in `$31` of an initial context, and what
  the code there does -/
  stub : Word
  launch : Cpu → Cpu
  stub_ne : stub ≠ isr.ret
  launch_sp : ∀ c, (launch c).get 29 = c.get 29
  launch_exl : ∀ c, (launch c).sr &&& Cpu.exl = 0
  stacks_disjoint : ∀ p i q j a, i < T → j < T → stackLo p i ≤ a → a < stackHi p i →
    stackLo q j ≤ a → a < stackHi q j → p = q ∧ i = j
  stacks_contexts : ∀ p i a, i < T → stackLo p i ≤ a → a < stackHi p i →
    a < contexts.toNat ∨ contexts.toNat + 256 * (P * T) ≤ a
  stacks_table : ∀ p i a, i < T → stackLo p i ≤ a.toNat → a.toNat < stackHi p i → table a = none
  contexts_table : ∀ a, contexts.toNat ≤ a.toNat → a.toNat < contexts.toNat + 256 * (P * T) → table a = none

/-- The processors, the memory and `_current_task_array`; and what has
happened: how often each processor has served its timer, the registers of each
task when it was last interrupted by it, and those of its caller when it is in
a system call. -/
structure State (P : ℕ) where
  cpu : Fin P → Cpu
  mem : Word → Word
  current : Fin P → BitVec 8
  ticks : Fin P → ℕ
  suspended : Fin P → ℕ → Option Cpu
  calling : Fin P → ℕ → Option Cpu

/-- The task of `p` has gone on to `m`; `call` is its caller, if it is in a
system call. -/
def State.advance {P : ℕ} (σ : State P) (p : Fin P) (m : Machine) (call : Option Cpu) : State P :=
  { σ with
    cpu := Function.update σ.cpu p m.cpu
    mem := m.mem
    calling := fun q j => if q = p ∧ j = (σ.current p).toNat then call else σ.calling q j }

/-- The task of `p` is interrupted, and `r` are the task and the machine after
the interrupt. -/
def State.switchTo {P : ℕ} (σ : State P) (p : Fin P) (r : BitVec 8 × Machine) : State P :=
  { σ with
    cpu := Function.update σ.cpu p r.2.cpu
    mem := r.2.mem
    current := Function.update σ.current p r.1
    ticks := Function.update σ.ticks p (σ.ticks p + 1)
    suspended := fun q j => if q = p ∧ j = (σ.current p).toNat then some (σ.cpu p) else σ.suspended q j }

namespace System

variable {P T : ℕ} (k : System P T)

def InStack (p : Fin P) (i : ℕ) (a : Word) : Prop := k.stackLo p i ≤ a.toNat ∧ a.toNat < k.stackHi p i

def InContexts (a : Word) : Prop :=
  k.contexts.toNat ≤ a.toNat ∧ a.toNat < k.contexts.toNat + 256 * (P * T)

/-- `&_task_context_array[(proc_id * NB_MAXTASKS + task_index) * TASK_CTXT_SIZE]`. -/
def context (p : Fin P) (i : ℕ) : Word := slot k.contexts ((p * T + i) * 64)

/-- A stack pointer in the task's stack, with the room a handler needs. -/
def Fits (p : Fin P) (i : ℕ) (sp : Word) : Prop :=
  k.stackLo p i + (100 + k.isr.frame) ≤ sp.toNat ∧ sp.toNat ≤ k.stackHi p i

/-- `_ctx_switch`: the next task, and the arguments of `_task_switch`; none
when there is one task only. -/
def ctxSwitch (procId : Fin P) (currTaskIndex : BitVec 8) : Option (BitVec 8 × Word × Word) :=
  if (k.number procId).toNat ≤ 1 then none
  else
    let nextTaskIndex := BitVec.ofNat 8 ((currTaskIndex.toNat + 1) % (k.number procId).toNat)
    some (nextTaskIndex, k.context procId currTaskIndex.toNat, k.context procId nextTaskIndex.toNat)

/-- What the timer's interrupt makes `_int_demux` do. -/
def serve (p : Fin P) (current : BitVec 8) : Option (BitVec 8 × Word × Word) :=
  match intDemux k.interruptVector k.timerIndex with
  | some .isrSwitch => k.ctxSwitch p current
  | _ => none

/-- An exception, `_giet` and the jump to the handler. -/
def enter (cr : Word) (m : Machine) : Machine :=
  let m := exec (giet k.labels) { m with cpu := m.cpu.trap cr }
  { m with cpu := m.cpu.jump (m.cpu.get 26) }

/-- `_int_handler` from `restore` on, if that is where `_int_demux` returned. -/
def intReturn (m : Machine) : Option Machine :=
  if m.cpu.pc = k.labels.restore then
    let m := exec intRestore m
    some { m with cpu := m.cpu.eret }
  else none

/-- What is at the address `_task_switch` returns to: the other half of an
earlier interrupt, or the first code of a task. The `SR` it restored has to
keep interrupts masked, for the rest of the handler is part of the step. -/
def resume (m : Machine) : Option Machine :=
  if m.cpu.sr &&& Cpu.exl = 0 then none
  else if m.cpu.pc = k.isr.ret then k.intReturn (k.isr.up m)
  else if m.cpu.pc = k.stub then some { m with cpu := k.launch m.cpu }
  else none

/-- `_int_handler` up to the call of `_int_demux`. -/
def intCall (m : Machine) : Machine :=
  let m := exec (intSave k.labels) m
  { m with cpu := (m.cpu.set 31 k.labels.restore).jump (m.cpu.get 26) }

/-- `_int_demux` and the way back to a task: the task that runs next, and the
machine as it finds it. -/
def demux (p : Fin P) (current : BitVec 8) (m : Machine) : Option (BitVec 8 × Machine) :=
  match k.serve p current with
  | none => (k.intReturn (k.isr.pass m)).map (Prod.mk current)
  | some (next, x) => (k.resume (taskSwitch (k.isr.down x m))).map (Prod.mk next)

/-- A timer interrupt on processor `p`. -/
def timer (p : Fin P) (cr : Word) (σ : State P) : Option (State P) :=
  let m := k.enter cr ⟨σ.cpu p, σ.mem⟩
  if m.cpu.pc = k.labels.intHandler then (k.demux p (σ.current p) (k.intCall m)).map (σ.switchTo p)
  else none

/-- A system call of the task on processor `p`, up to the `jalr` of
`_sys_handler`. -/
def syscall (p : Fin P) (cr : Word) (σ : State P) : Option (State P) :=
  let m := k.enter cr ⟨σ.cpu p, σ.mem⟩
  if m.cpu.pc = k.labels.sysHandler then
    let m := exec (sysEnter k.labels) m
    some (σ.advance p { m with cpu := m.cpu.jump k.labels.sysCall } (some (σ.cpu p)))
  else none

/-- The end of a system call. -/
def sysret (p : Fin P) (σ : State P) : State P :=
  let m := exec sysLeave ⟨σ.cpu p, σ.mem⟩
  σ.advance p { m with cpu := m.cpu.eret } none

/-! ### Runs -/

/-- Some instructions of the task that runs on `p`, in user code or in a
system call: it writes its own stack and what belongs to nobody, and its stack
pointer stays in its stack. A system call leaves the frame of `_sys_handler`
alone, and returns with the stack pointer it was called with. -/
structure Allowed (σ : State P) (p : Fin P) (m : Machine) : Prop where
  fits : k.Fits p (σ.current p).toNat (m.cpu.get 29)
  exl : m.cpu.sr &&& Cpu.exl = 0
  others : ∀ q j a, j < T → k.InStack q j a → ¬ (q = p ∧ j = (σ.current p).toNat) → m.mem a = σ.mem a
  contexts : ∀ a, k.InContexts a → m.mem a = σ.mem a
  table : ∀ a, k.table a ≠ none → m.mem a = σ.mem a
  callSp : ∀ c, σ.calling p (σ.current p).toNat = some c → (m.cpu.get 29).toNat + 24 ≤ (c.get 29).toNat
  callMem : ∀ c, σ.calling p (σ.current p).toNat = some c → ∀ a, k.InStack p (σ.current p).toNat a →
    (c.get 29).toNat ≤ a.toNat + 8 → a.toNat < (c.get 29).toNat → m.mem a = σ.mem a
  callReturn : ∀ c, σ.calling p (σ.current p).toNat = some c → m.cpu.pc = k.labels.sysReturn →
    m.cpu.get 29 = c.get 29 - 24

/-- The steps of the system. `0x0D` is `SYSCALL_CTX_SWITCH`. -/
inductive Step : State P → State P → Prop where
  | task {σ : State P} (p : Fin P) (m : Machine) (h : k.Allowed σ p m) :
      Step σ (σ.advance p m (σ.calling p (σ.current p).toNat))
  | timer {σ σ' : State P} (p : Fin P) (cr : Word) (hcr : cr &&& 0x3c = 0)
      (hi : (σ.cpu p).Interruptible) (h : k.timer p cr σ = some σ') : Step σ σ'
  | syscall {σ σ' : State P} (p : Fin P) (cr : Word) (hcr : cr &&& 0x3c = 0x20)
      (hc : σ.calling p (σ.current p).toNat = none) (hx : (σ.cpu p).get 2 &&& 0x1F ≠ 0x0D)
      (hs : k.Fits p (σ.current p).toNat ((σ.cpu p).get 29 - 24) ∧ 24 ≤ ((σ.cpu p).get 29).toNat)
      (h : k.syscall p cr σ = some σ') : Step σ σ'
  | sysret {σ : State P} (p : Fin P) (c : Cpu) (hc : σ.calling p (σ.current p).toNat = some c)
      (hpc : (σ.cpu p).pc = k.labels.sysReturn) : Step σ (sysret p σ)

end System
end Giet
end Smc
