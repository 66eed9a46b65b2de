/-
# Interrupts during a context switch

`_ctx_switch` may be called by the OS, with interrupts disabled. It is called
from `_isr_switch`, in an interrupt, and it is the system call `0x0D`, which
`_sys_handler` calls with the caller's `SR` out of the exception: there
interrupts are as the caller had them.

Here `_ctx_switch` is left between any two of its statements, and
`_task_switch` between any two of its instructions. An interrupt is taken
wherever `SR` allows it, and may start another switch inside the first. The
index of the next task is published before the registers are saved, so that
this other switch saves them in the context of the wrong task.

What a task, a handler or the compiled code does in between is arbitrary as
long as it leaves the contexts alone (`Runs`). A switch that an interrupt has
left may be resumed later, with any registers.

Key definitions: `Pos`, `Proc`, `advance`, `Move`, `Step`, `Undisturbed`.
-/
import Smc.Giet.Transparency

namespace Smc
namespace Giet
namespace SwitchWindow

open Mips Relation

/-! ### The code -/

/-- Where a processor is: what `_ctx_switch` does next, and the local variables
it has by then. -/
inductive Pos where
  /-- a task or a handler -/
  | out
  /-- the test of `_task_number_array[proc_id]` -/
  | test
  /-- the read of `_current_task_array[proc_id]` -/
  | current
  /-- the choice of the next task -/
  | next (currTaskIndex : BitVec 8)
  /-- the update of `_current_task_array[proc_id]` -/
  | publish (currTaskIndex nextTaskIndex : BitVec 8)
  /-- the call of `_task_switch` -/
  | call (currTaskIndex nextTaskIndex : BitVec 8)
  /-- in `_task_switch`, with the instructions that are left before the `jr` -/
  | switch (nextTaskIndex : BitVec 8) (rest : List Instr)
deriving DecidableEq, Repr

/-- From the read of `_current_task_array` to the `jr` of `_task_switch`. -/
def Pos.InWindow : Pos → Prop
  | .out => False
  | .test => False
  | _ => True

/-- A processor, and what has happened on it. -/
structure Proc where
  cpu : Cpu
  /-- its entry of `_current_task_array` -/
  current : BitVec 8
  pos : Pos
  /-- where interrupts were taken that have not returned -/
  left : List Pos
  /-- the task whose registers these are: the one whose context was restored last -/
  running : ℕ
  /-- the registers with which each task has called `_task_switch` -/
  saved : ℕ → Cpu

structure State (P : ℕ) where
  proc : Fin P → Proc
  mem : Word → Word

/-- What a step is about. -/
inductive Event where
  | code
  | interrupt
  /-- the system call `0x0D`, `SYSCALL_CTX_SWITCH` -/
  | ctxSwitchCall
deriving DecidableEq, Repr

section Steps

variable {P T : ℕ} (k : System P T)

/-- `(curr_task_index + 1) % _task_number_array[proc_id]`. -/
def nextTaskIndex (p : Fin P) (currTaskIndex : BitVec 8) : BitVec 8 :=
  BitVec.ofNat 8 ((currTaskIndex.toNat + 1) % (k.number p).toNat)

/-- The next statement of `_ctx_switch`, or the next instruction of
`_task_switch`. The compiled code calls once the arguments are in their
registers. -/
def advance (p : Fin P) (x : Proc) (mem : Word → Word) : Option (Proc × (Word → Word)) :=
  match x.pos with
  | .out => none
  | .test => some ({ x with pos := if (k.number p).toNat ≤ 1 then .out else .current }, mem)
  | .current => some ({ x with pos := .next x.current }, mem)
  | .next curr => some ({ x with pos := .publish curr (nextTaskIndex k p curr) }, mem)
  | .publish curr next => some ({ x with current := next, pos := .call curr next }, mem)
  | .call curr next =>
    if x.cpu.get 4 = k.context p curr.toNat ∧ x.cpu.get 5 = k.context p next.toNat then
      some ({ x with
        pos := .switch next (taskSave ++ taskRestore)
        saved := Function.update x.saved x.running x.cpu }, mem)
    else none
  | .switch next (i :: rest) =>
    let m := i.exec ⟨x.cpu, mem⟩
    some ({ x with cpu := m.cpu, pos := .switch next rest }, m.mem)
  | .switch next [] =>
    some ({ x with cpu := x.cpu.jump (x.cpu.get 31), pos := .out, running := next.toNat }, mem)

/-- Some instructions of a task, of a handler, or of what the compiler made of
a statement of `_ctx_switch`, which keeps `SR`. None of them writes the
contexts, and where interrupts can be taken there is room for one on the
stack. -/
structure Runs (p : Fin P) (x : Proc) (mem : Word → Word) (m : Machine) : Prop where
  compiled : x.pos = .out ∨ (∀ next rest, x.pos ≠ .switch next rest) ∧ m.cpu.sr = x.cpu.sr
  fits : m.cpu.Interruptible → k.Fits p x.running (m.cpu.get 29)
  contexts : ∀ a, k.InContexts a → m.mem a = mem a

/-- An interrupt, up to the call of `_int_demux`. -/
def interrupted (cr : Word) (c : Cpu) (mem : Word → Word) : Machine := k.intCall (k.enter cr ⟨c, mem⟩)

/-- A system call, up to the call of its function. -/
def called (cr : Word) (c : Cpu) (mem : Word → Word) : Machine :=
  let m := exec (sysEnter k.labels) (k.enter cr ⟨c, mem⟩)
  { m with cpu := (m.cpu.set 31 k.labels.sysReturn).jump (m.cpu.get 3) }

/-- What `_int_demux` makes of the index it reads: `_isr_switch` calls
`_ctx_switch`, and the other routines do not. -/
def served (interruptIndex : Word) : Pos :=
  if intDemux k.interruptVector interruptIndex = some .isrSwitch then .test else .out

/-- The steps of processor `p`. -/
inductive Move (p : Fin P) : Event → Proc → (Word → Word) → Proc → (Word → Word) → Prop where
  | run {x : Proc} {mem : Word → Word} (m : Machine) (h : Runs k p x mem m) :
      Move p .code x mem { x with cpu := m.cpu } m.mem
  | advance {x x' : Proc} {mem mem' : Word → Word} (h : advance k p x mem = some (x', mem')) :
      Move p .code x mem x' mem'
  | interrupt {x : Proc} {mem : Word → Word} (cr interruptIndex : Word) (hcr : cr &&& 0x3c = 0)
      (hi : x.cpu.Interruptible) :
      Move p .interrupt x mem
        { x with
          cpu := (interrupted k cr x.cpu mem).cpu
          pos := served k interruptIndex
          left := x.pos :: x.left } (interrupted k cr x.cpu mem).mem
  | ctxSwitchCall {x : Proc} {mem : Word → Word} (cr : Word) (hcr : cr &&& 0x3c = 0x20) (hpos : x.pos = .out)
      (hx : x.cpu.get 2 &&& 0x1F = 0x0D)
      (hs : k.Fits p x.running (x.cpu.get 29) ∧ k.Fits p x.running (x.cpu.get 29 - 24)) :
      Move p .ctxSwitchCall x mem
        { x with cpu := (called k cr x.cpu mem).cpu, pos := .test } (called k cr x.cpu mem).mem
  | resume {x : Proc} {mem : Word → Word} (y : Pos) (m : Machine) (hpos : x.pos = .out) (hy : y ∈ x.left)
      (h : Runs k p x mem m) :
      Move p .code x mem { x with cpu := m.cpu, pos := y, left := x.left.erase y } m.mem

/-- A step of processor `p` in the system. -/
inductive Step (p : Fin P) (e : Event) : State P → State P → Prop where
  | move {σ : State P} {x : Proc} {mem : Word → Word} (h : Move k p e (σ.proc p) σ.mem x mem) :
      Step p e σ ⟨Function.update σ.proc p x, mem⟩

/-- Runs whose steps all meet a condition. -/
def Run (C : Fin P → Event → State P → Prop) : State P → State P → Prop :=
  ReflTransGen fun σ σ' => ∃ p e, C p e σ ∧ Step k p e σ σ'

end Steps

/-! ### What is asked of it -/

section Property

variable {P T : ℕ} (k : System P T)

/-- The context of task `i` has the registers of `c`. -/
structure Holds (mem : Word → Word) (p : Fin P) (i : ℕ) (c : Cpu) : Prop where
  sr : mem (slot (k.context p i) 0) = c.sr
  regs : ∀ y ∈ ctxRegs, mem (slot (k.context p i) y.2) = c.get y.1
  epc : mem (slot (k.context p i) 32) = c.epc
  cr : mem (slot (k.context p i) 33) = c.cr

/-- Switches are not interrupted on `p`, and the registers saved in a task's
context are that task's own. -/
structure Undisturbed (p : Fin P) (x : Proc) (mem : Word → Word) : Prop where
  /-- interrupts are masked from the read of `_current_task_array` to the `jr` -/
  masked : x.pos.InWindow → ¬ x.cpu.Interruptible
  /-- no interrupt was taken there -/
  never : ∀ y ∈ x.left, ¬ y.InWindow
  /-- every task that does not run has its registers in its context -/
  own : ∀ i < (k.number p).toNat, i ≠ x.running → Holds k mem p i (x.saved i)

/-- On a processor with several tasks, the system call is made with interrupts
disabled. -/
def CallsMasked (p : Fin P) (e : Event) (σ : State P) : Prop :=
  e = .ctxSwitchCall → 2 ≤ (k.number p).toNat → (σ.proc p).cpu.sr &&& Cpu.ie = 0

/-- The registers of an initial context. -/
def initialCpu (mem : Word → Word) (p : Fin P) (i : ℕ) : Cpu where
  gpr r := mem (slot (k.context p i) r)
  hi := 0
  lo := 0
  sr := mem (slot (k.context p i) 0)
  cr := mem (slot (k.context p i) 33)
  epc := mem (slot (k.context p i) 32)
  pc := mem (slot (k.context p i) 31)

/-- The system as it is booted. -/
def start (σ : Giet.State P) : State P where
  proc p :=
    { cpu := σ.cpu p
      current := σ.current p
      pos := .out
      left := []
      running := (σ.current p).toNat
      saved := initialCpu k σ.mem p }
  mem := σ.mem

end Property

end SwitchWindow
end Giet
end Smc
