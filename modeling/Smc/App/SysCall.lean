/-
# The registers of a system call

`sys_call` of `giet_2011/app/stdio.c` is an `asm` statement with the one
instruction `syscall`. It tells the compiler which registers the statement
writes; a value in any other is taken to be there afterwards. Who writes is
the kernel: the assembly of `_giet`, `_sys_handler` and `_int_handler`, and the
handler of the call, which `_sys_handler` calls like a C function.

A handler is any code that obeys the calling convention in the call. It is
interrupted anywhere: to it, an interrupt is a moment in which something
happens to `$26`, `$27` and the memory outside of its stack (`Disturbs`). That
the interrupts of the GIET are no more than this is `interrupt_disturbs`; a
routine of an interrupt is again any code under the convention.

The statement declares `$2` and the registers a function may change, except
the four of the arguments, `HI` and `LO`. The kernel saves none of these, so
the statement is right for the handlers that give them back.

Key definitions: `clobbers`, `Handler`, `Interrupt`, `Serves`,
`KeepsUndeclared`.
-/
import Smc.Giet.Transparency

namespace Smc
namespace App
namespace SysCall

open Mips Giet

/-! ### The statement -/

/-- The output, `v0`. -/
def output : Reg := 2

/-- The clobbers: `at`, `v1`, `ra`, and `t0` to `t9`. -/
def clobbers : List Reg := [1, 3, 31, 8, 9, 10, 11, 12, 13, 14, 15, 24, 25]

/-- The registers of a program: `$0` is none, and `$26` and `$27` are the
system's. -/
def programRegs : List Reg :=
  [1, 2, 3, 4, 5, 6, 7, 8, 9, 10, 11, 12, 13, 14, 15, 16, 17, 18, 19, 20, 21, 22, 23, 24, 25, 28, 29, 30, 31]

/-- What the compiler relies on: the registers that the statement does not
declare, `HI` and `LO` among them, are as before. -/
structure KeepsUndeclared (c c' : Cpu) : Prop where
  regs : ∀ r ∈ programRegs, r ≠ output → r ∉ clobbers → c'.get r = c.get r
  hi : c'.hi = c.hi
  lo : c'.lo = c.lo

/-! ### Handlers and interrupts -/

/-- Something happens to a program whose stack ends at `top`: it finds its
registers and its stack as they were. -/
structure Disturbs (top : ℕ) (m m' : Machine) : Prop where
  regs : SameRegs m.cpu m'.cpu
  stack : ∀ a, (m.cpu.get 29).toNat ≤ a.toNat → a.toNat < top → m'.mem a = m.mem a

/-- A function called in `m`, on a stack that ends at `top`, has returned in
`m'` under the o32 convention. The four words for its arguments are its own. -/
structure Preserves (top : ℕ) (m m' : Machine) : Prop where
  saved : ∀ r ∈ calleeSaved, m'.cpu.get r = m.cpu.get r
  sp : m'.cpu.get 29 = m.cpu.get 29
  stack : ∀ a, (m.cpu.get 29).toNat + 16 ≤ a.toNat → a.toNat < top → m'.mem a = m.mem a

/-- The compiled code of a handler: its steps from its address on. -/
structure Handler where
  address : Word
  step : Machine → Machine → Prop

/-- The handler, called in `m`, obeys the calling convention, whatever disturbs
it between its steps. -/
def Handler.Obeys (h : Handler) (top : ℕ) (m : Machine) : Prop :=
  ∀ m', Relation.ReflTransGen (fun a b => h.step a b ∨ Disturbs top a b) m m' → m'.cpu.pc = m.cpu.get 31 →
    Preserves top m m'

variable {P T : ℕ} (k : System P T)

/-- An interrupt of a program whose stack ends at `top` and has room for the
frame of `_int_handler`. Between the call of `_int_demux` and its return is
any code under the calling convention. -/
def Interrupt (top : ℕ) (m m' : Machine) : Prop :=
  ∃ cr u, m.cpu.Interruptible ∧ 100 ≤ (m.cpu.get 29).toNat ∧ (m.cpu.get 29).toNat ≤ top ∧
    (k.enter cr m).cpu.pc = k.labels.intHandler ∧
    Preserves top (k.intCall (k.enter cr m)) u ∧ u.cpu.pc = (k.intCall (k.enter cr m)).cpu.get 31 ∧
    u.cpu.sr = (k.intCall (k.enter cr m)).cpu.sr ∧ k.intReturn u = some m'

variable {k}

/-- **An interrupt only disturbs.** `_int_handler` saves what the routine may
change, below the stack pointer. -/
theorem interrupt_disturbs {top : ℕ} {m m' : Machine} (h : Interrupt k top m m') : Disturbs top m m' := by
  obtain ⟨cr, u, hi, hroom, htop, -, hpres, hpc, hsr, hret⟩ := h
  have hint := System.intCall_spec (k := k) (System.enter_spec (k := k) cr m.cpu m.mem)
  generalize k.intCall (k.enter cr ⟨m.cpu, m.mem⟩) = d at hint hpres hpc hsr
  have hframe : (m.cpu.get 29 - 100).toNat = (m.cpu.get 29).toNat - 100 := sub_toNat (n := 100) hroom
  have hlt := (m.cpu.get 29).isLt
  have hslot : ∀ j, j < 25 → (slot (m.cpu.get 29 - 100) j).toNat = (m.cpu.get 29).toNat - 100 + 4 * j := by
    intro j hj
    rw [slot_toNat (by omega), hframe]
  have hsp := hpres.sp
  have hstack := hpres.stack
  rw [hint.sp, hframe] at hstack
  rw [hint.sp] at hsp
  have hframed : Framed u.mem (m.cpu.get 29 - 100) (m.cpu.trap 0) := by
    apply hint.framed.of_mem
    intro j h4 h25
    apply hstack
    · rw [hslot j h25]
      omega
    · rw [hslot j h25]
      omega
  obtain ⟨v, hv, hsame, hmem⟩ := System.intReturn_spec (k := k) hi.2 (hpc.trans hint.ra) hsp
    (fun r hr => (hpres.saved r hr).trans (hint.saved r hr)) (hsr.trans hint.sr) hframed
  obtain rfl : m' = v := Option.some.inj (hret.symm.trans hv)
  refine ⟨hsame, fun a hle hlt' => ?_⟩
  rw [hmem, hstack a (by omega) hlt']
  apply hint.mem
  intro j h4 h25 he
  rw [he, hslot j h25] at hle
  omega

/-! ### A call -/

/-- `_sys_handler` has come to its `jalr`, for a call by `c`. -/
def arrives (k : System P T) (cr : Word) (c : Cpu) (mem : Word → Word) : Machine :=
  let m := exec (sysEnter k.labels) (k.enter cr ⟨c, mem⟩)
  { m with cpu := m.cpu.jump k.labels.sysCall }

/-- The `jalr`. -/
def calls (k : System P T) (m : Machine) : Machine :=
  { m with cpu := (m.cpu.set 31 k.labels.sysReturn).jump (m.cpu.get 3) }

/-- The program goes on, after the rest of `_sys_handler`. -/
def resumes (m : Machine) : Cpu := (exec sysLeave m).cpu.eret

/-- A system call by `c`, from the `syscall` instruction to the return of its
handler: the handler is entered in `m`, obeys the convention, and returns in
`m'`. Interrupts come from the moment `_sys_handler` unmasks them. -/
def Serves (k : System P T) (h : Handler) (c : Cpu) (mem : Word → Word) (m m' : Machine) : Prop :=
  ∃ cr m₁, 24 ≤ (c.get 29).toNat ∧ (k.enter cr ⟨c, mem⟩).cpu.pc = k.labels.sysHandler ∧
    Relation.ReflTransGen (Interrupt k (c.get 29).toNat) (arrives k cr c mem) m₁ ∧
    m = calls k m₁ ∧ m.cpu.pc = h.address ∧ h.Obeys (c.get 29).toNat m ∧
    Relation.ReflTransGen (fun a b => h.step a b ∨ Interrupt k (c.get 29).toNat a b) m m' ∧
    m'.cpu.pc = k.labels.sysReturn

/-- The handler returns with the registers of the arguments, `HI` and `LO` as
it found them. -/
structure GivesBack (m m' : Machine) : Prop where
  args : ∀ r ∈ ([4, 5, 6, 7] : List Reg), m'.cpu.get r = m.cpu.get r
  hi : m'.cpu.hi = m.cpu.hi
  lo : m'.cpu.lo = m.cpu.lo

/-- Several disturbances are one. -/
theorem disturbs_of_interrupts {top : ℕ} {m m' : Machine} (h : Relation.ReflTransGen (Interrupt k top) m m') :
    Disturbs top m m' := by
  induction h with
  | refl => exact ⟨⟨fun _ _ _ => rfl, rfl, rfl, rfl, rfl⟩, fun _ _ _ => rfl⟩
  | tail _ hstep ih =>
    have hd := interrupt_disturbs hstep
    refine ⟨⟨fun r h26 h27 => ?_, ?_, ?_, ?_, ?_⟩, fun a hle hlt => ?_⟩
    · exact (hd.regs.get r h26 h27).trans (ih.regs.get r h26 h27)
    · exact hd.regs.hi.trans ih.regs.hi
    · exact hd.regs.lo.trans ih.regs.lo
    · exact hd.regs.pc.trans ih.regs.pc
    · exact hd.regs.sr.trans ih.regs.sr
    · have hsp := ih.regs.get 29 (by decide) (by decide)
      exact (hd.stack a (by rw [hsp]; exact hle) hlt).trans (ih.stack a hle hlt)

/-- The registers `_sys_handler` leaves alone on the way in. -/
theorem sysEnter_get (l : Labels) (m : Machine) {r : Reg} (h3 : r ≠ 3) (h26 : r ≠ 26) (h27 : r ≠ 27) (h29 : r ≠ 29) :
    (exec (sysEnter l) m).cpu.get r = m.cpu.get r := by
  simp only [sysEnter, exec_cons, exec_nil, Instr.exec, Cpu.get_setCp0]
  simp only [Cpu.get_set_of_ne _ h3, Cpu.get_set_of_ne _ h26, Cpu.get_set_of_ne _ h27, Cpu.get_set_of_ne _ h29]

theorem sysEnter_hi_lo (l : Labels) (m : Machine) :
    (exec (sysEnter l) m).cpu.hi = m.cpu.hi ∧ (exec (sysEnter l) m).cpu.lo = m.cpu.lo := by
  simp only [sysEnter, exec_cons, exec_nil, Instr.exec, Cpu.set_hi, Cpu.set_lo, Cpu.setCp0_hi, Cpu.setCp0_lo, and_self]

/-- The registers `_sys_handler` leaves alone on the way out. -/
theorem sysLeave_get (m : Machine) {r : Reg} (h26 : r ≠ 26) (h29 : r ≠ 29) :
    (exec sysLeave m).cpu.get r = m.cpu.get r := by
  simp only [sysLeave, exec_cons, exec_nil, Instr.exec, Cpu.get_setCp0]
  simp only [Cpu.get_set_of_ne _ h26, Cpu.get_set_of_ne _ h29, Cpu.get_setCp0]

theorem sysLeave_hi_lo (m : Machine) :
    (exec sysLeave m).cpu.hi = m.cpu.hi ∧ (exec sysLeave m).cpu.lo = m.cpu.lo := by
  simp only [sysLeave, exec_cons, exec_nil, Instr.exec, Cpu.set_hi, Cpu.set_lo, Cpu.setCp0_hi, Cpu.setCp0_lo, and_self]

/-- What the handler of a call by `c` finds: the registers of the caller, but
for those `_sys_handler` uses, and the return address in the frame above. -/
structure Arrived (c : Cpu) (m : Machine) : Prop where
  get : ∀ r, r ≠ 3 → r ≠ 26 → r ≠ 27 → r ≠ 29 → r ≠ 31 → m.cpu.get r = c.get r
  hi : m.cpu.hi = c.hi
  lo : m.cpu.lo = c.lo
  sp : m.cpu.get 29 = c.get 29 - 24
  epc : m.mem (slot (c.get 29 - 24) 5) = c.pc + 4

section Call

variable {h : Handler} {c : Cpu} {mem : Word → Word} {m m' : Machine}

theorem Arrived.of_entering {a : Machine} (pc : Word) (hsys : System.Entering c mem a)
    (hget : ∀ r, r ≠ 3 → r ≠ 26 → r ≠ 27 → r ≠ 29 → a.cpu.get r = c.get r) (hhi : a.cpu.hi = c.hi)
    (hlo : a.cpu.lo = c.lo) : Arrived c { a with cpu := a.cpu.jump pc } :=
  ⟨fun r h3 h26 h27 h29 _ => hget r h3 h26 h27 h29, hhi, hlo, hsys.sp, hsys.savedEpc⟩

theorem arrives_arrived (cr : Word) (c : Cpu) (mem : Word → Word) : Arrived c (arrives k cr c mem) := by
  have he := System.enter_spec (k := k) cr c mem
  obtain ⟨hhi, hlo⟩ := sysEnter_hi_lo k.labels (k.enter cr ⟨c, mem⟩)
  apply Arrived.of_entering k.labels.sysCall (System.entering_sysEnter (k := k) he)
  · intro r h3 h26 h27 h29
    rw [sysEnter_get k.labels _ h3 h26 h27 h29, he.get r h26 h27]
  · rw [hhi, he.hi]
  · rw [hlo, he.lo]

/-- The slot of the return address is in the stack of the call. -/
theorem slot_epc {sp : Word} (h24 : 24 ≤ sp.toNat) : (sp - 24).toNat + 16 ≤ (slot (sp - 24) 5).toNat ∧
    (slot (sp - 24) 5).toNat < sp.toNat := by
  have hlt := sp.isLt
  have hsub : (sp - 24).toNat = sp.toNat - 24 := sub_toNat (n := 24) h24
  rw [slot_toNat (by omega), hsub]
  omega

theorem Serves.arrived (hs : Serves k h c mem m m') : Arrived c m := by
  obtain ⟨cr, m₁, h24, -, hint, rfl, -⟩ := hs
  have ha := arrives_arrived (k := k) cr c mem
  have hd := disturbs_of_interrupts hint
  obtain ⟨hle, hlt⟩ := slot_epc h24
  generalize arrives k cr c mem = a at ha hd
  refine ⟨fun r h3 h26 h27 h29 h31 => ?_, hd.regs.hi.trans ha.hi, hd.regs.lo.trans ha.lo, ?_, ?_⟩
  · show ((m₁.cpu.set 31 _).jump _).get r = _
    rw [Cpu.get_jump, Cpu.get_set_of_ne _ h31, hd.regs.get r h26 h27, ha.get r h3 h26 h27 h29 h31]
  · show ((m₁.cpu.set 31 _).jump _).get 29 = _
    rw [Cpu.get_jump, Cpu.get_set_of_ne _ (by decide), hd.regs.get 29 (by decide) (by decide), ha.sp]
  · show m₁.mem _ = _
    rw [hd.stack _ (by rw [ha.sp]; omega) hlt, ha.epc]

theorem calls_ra (k : System P T) (m : Machine) : (calls k m).cpu.get 31 = k.labels.sysReturn := by
  unfold calls
  rw [Cpu.get_jump, Cpu.get_set_self _ (by decide)]

theorem Serves.preserves (hs : Serves k h c mem m m') : Preserves (c.get 29).toNat m m' := by
  obtain ⟨cr, m₁, -, -, -, rfl, -, hobeys, hrun, hret⟩ := hs
  apply hobeys
  · -- interrupts are disturbances
    refine Relation.ReflTransGen.mono (fun a b hab => ?_) _ _ hrun
    rcases hab with hab | hab
    · exact .inl hab
    · exact .inr (interrupt_disturbs hab)
  · rw [hret, calls_ra]

/-- The program resumes behind its `syscall`, on its stack. -/
theorem Serves.resumed (hs : Serves k h c mem m m') :
    (resumes m').pc = c.pc + 4 ∧ (resumes m').get 29 = c.get 29 := by
  have ha := hs.arrived
  have hp := hs.preserves
  obtain ⟨cr, m₁, h24, -⟩ := hs
  obtain ⟨hle, hlt⟩ := slot_epc h24
  have hl := sysLeave_spec m'
  have hstack := hp.stack (slot (c.get 29 - 24) 5)
  unfold resumes
  generalize exec sysLeave m' = l at hl ⊢
  have hsp := hl.sp
  have hepc := hl.epc
  rw [hp.sp, ha.sp] at hsp hepc
  rw [ha.sp] at hstack
  constructor
  · show l.cpu.epc = _
    rw [hepc, hstack hle hlt, ha.epc]
  · show l.cpu.get 29 = _
    rw [hsp, BitVec.sub_add_cancel]

theorem resumes_get {r : Reg} (h26 : r ≠ 26) (h29 : r ≠ 29) : (resumes m').get r = m'.cpu.get r := by
  have hget := sysLeave_get m' h26 h29
  unfold resumes
  generalize exec sysLeave m' = l at hget ⊢
  exact hget

theorem resumes_hi_lo : (resumes m').hi = m'.cpu.hi ∧ (resumes m').lo = m'.cpu.lo := by
  have hspecial := sysLeave_hi_lo m'
  unfold resumes
  generalize exec sysLeave m' = l at hspecial ⊢
  exact hspecial

/-- A register of a program that is not declared is given back by every
function, is the stack pointer, or is one of the arguments. -/
theorem undeclared_cases : ∀ r ∈ programRegs, r ≠ output → r ∉ clobbers →
    (r ∈ calleeSaved ∨ r = 29 ∨ r ∈ ([4, 5, 6, 7] : List Reg)) ∧
      r ≠ 3 ∧ r ≠ 26 ∧ r ≠ 27 ∧ r ≠ 31 := by decide

theorem argument_cases : ∀ r ∈ ([4, 5, 6, 7] : List Reg), r ∈ programRegs ∧ r ≠ output ∧ r ∉ clobbers ∧
    r ≠ 3 ∧ r ≠ 26 ∧ r ≠ 27 ∧ r ≠ 29 ∧ r ≠ 31 := by decide

/-- In one call, the statement is right exactly when the handler gives back
the registers of the arguments, `HI` and `LO`. -/
theorem Serves.keeps_iff (hs : Serves k h c mem m m') : KeepsUndeclared c (resumes m') ↔ GivesBack m m' := by
  have ha := hs.arrived
  have hp := hs.preserves
  obtain ⟨-, hsp⟩ := hs.resumed
  obtain ⟨hhi, hlo⟩ : (resumes m').hi = m'.cpu.hi ∧ (resumes m').lo = m'.cpu.lo := resumes_hi_lo
  constructor
  · intro hk
    refine ⟨fun r hr => ?_, ?_, ?_⟩
    · obtain ⟨hprog, hout, hclob, h3, h26, h27, h29, h31⟩ := argument_cases r hr
      rw [ha.get r h3 h26 h27 h29 h31, ← hk.regs r hprog hout hclob, resumes_get h26 h29]
    · rw [ha.hi, ← hk.hi, hhi]
    · rw [ha.lo, ← hk.lo, hlo]
  · intro hg
    refine ⟨fun r hprog hout hclob => ?_, ?_, ?_⟩
    · obtain ⟨hr, h3, h26, h27, h31⟩ := undeclared_cases r hprog hout hclob
      rcases hr with hr | rfl | hr
      · have h29 := (calleeSaved_regs r hr).2.2.1
        rw [resumes_get h26 h29, hp.saved r hr, ha.get r h3 h26 h27 h29 h31]
      · exact hsp
      · have h29 := (argument_cases r hr).2.2.2.2.2.2.1
        rw [resumes_get h26 h29, hg.args r hr, ha.get r h3 h26 h27 h29 h31]
    · rw [hhi, hg.hi, ha.hi]
    · rw [hlo, hg.lo, ha.lo]

end Call

/-- The statement is right about a handler: whatever the number and the
arguments of the call, the registers of the program and the interrupts, the
program resumes behind its `syscall` with every register that is not declared
as it was. -/
def Contract (k : System P T) (h : Handler) : Prop :=
  ∀ c mem m m', Serves k h c mem m m' → (resumes m').pc = c.pc + 4 ∧ KeepsUndeclared c (resumes m')

/-- **When the statement is right.** For every handler under the calling
convention: the program resumes, after any call and any interrupts in it, with
the registers it has not declared as they were, exactly when the handler gives
back `$4` to `$7`, `HI` and `LO`, which the convention lets it change. -/
theorem contract_iff (k : System P T) (h : Handler) :
    Contract k h ↔ ∀ c mem m m', Serves k h c mem m m' → GivesBack m m' := by
  unfold Contract
  constructor
  · intro hc c mem m m' hs
    exact hs.keeps_iff.mp (hc c mem m m' hs).2
  · intro hg c mem m m' hs
    exact ⟨hs.resumed.1, hs.keeps_iff.mpr (hg c mem m m' hs)⟩

/-! ### A handler that uses an argument -/

/-- A handler of two instructions, `addiu $4, $4, 1` and `jr $31`: the pointer
to the buffer is advanced in its register. -/
def advances (address : Word) : Handler where
  address := address
  step m m' := m' = { m with cpu := (m.cpu.set 4 (m.cpu.get 4 + 1)).jump (m.cpu.get 31) }

/-- Through a run of it: every register but `$4` and the system's, and the
stack. -/
theorem advances_kept {address : Word} {top : ℕ} {m m' : Machine}
    (hrun : Relation.ReflTransGen (fun a b => (advances address).step a b ∨ Disturbs top a b) m m') :
    (∀ r, r ≠ 4 → r ≠ 26 → r ≠ 27 → m'.cpu.get r = m.cpu.get r) ∧
      ∀ a, (m.cpu.get 29).toNat ≤ a.toNat → a.toNat < top → m'.mem a = m.mem a := by
  induction hrun with
  | refl => exact ⟨fun _ _ _ _ => rfl, fun _ _ _ => rfl⟩
  | tail _ hstep ih =>
    obtain ⟨hget, hmem⟩ := ih
    rcases hstep with rfl | hd
    · refine ⟨fun r h4 h26 h27 => ?_, hmem⟩
      rw [← hget r h4 h26 h27]
      exact Cpu.get_set_of_ne _ h4 _
    · refine ⟨fun r h4 h26 h27 => ?_, fun a hle hlt => ?_⟩
      · rw [hd.regs.get r h26 h27, hget r h4 h26 h27]
      · have hsp := hget 29 (by decide) (by decide) (by decide)
        rw [hd.stack a (by rw [hsp]; exact hle) hlt, hmem a hle hlt]

theorem advances_obeys (address : Word) (top : ℕ) (m : Machine) : (advances address).Obeys top m := by
  intro m' hrun _
  obtain ⟨hget, hmem⟩ := advances_kept hrun
  refine ⟨fun r hr => ?_, hget 29 (by decide) (by decide) (by decide), fun a hle hlt => hmem a (by omega) hlt⟩
  have hne : r ≠ 4 ∧ r ≠ 26 ∧ r ≠ 27 := by
    revert r
    decide
  exact hget r hne.1 hne.2.1 hne.2.2

/-- `_sys_handler` takes the handler from the vector, at the number of the call. -/
theorem sysEnter_target (l : Labels) (m : Machine) : (exec (sysEnter l) m).cpu.get 3 =
    (exec (sysEnter l) m).mem (l.syscallVector + (m.cpu.get 2 &&& 0x1F) <<< 2) := by
  simp only [sysEnter, exec_cons, exec_nil, Instr.exec, Cpu.get_setCp0]
  simp only [Cpu.get_set_self, Cpu.get_set_of_ne, ne_eq, Fin.reduceEq, not_false_eq_true]
  rw [BitVec.add_zero, show BitVec.setWidth 32 (0x1F : BitVec 16) = 0x1F by decide]

theorem arrives_cpu {cr : Word} {c : Cpu} {mem : Word → Word} : (arrives k cr c mem).cpu =
    (exec (sysEnter k.labels) (k.enter cr ⟨c, mem⟩)).cpu.jump k.labels.sysCall := rfl

/-- The handler of a call, when the frame is outside of the vector. -/
theorem arrives_handler {cr : Word} {c : Cpu} {mem : Word → Word} {v : Word}
    (hv : v = k.labels.syscallVector + (c.get 2 &&& 0x1F) <<< 2) (h4 : v ≠ slot (c.get 29 - 24) 4)
    (h5 : v ≠ slot (c.get 29 - 24) 5) : (arrives k cr c mem).cpu.get 3 = mem v := by
  have he := System.enter_spec (k := k) cr c mem
  have hsys := System.entering_sysEnter (k := k) he
  have ht := sysEnter_target k.labels (k.enter cr ⟨c, mem⟩)
  rw [he.get 2 (by decide) (by decide), ← hv, hsys.mem v h4 h5] at ht
  rw [arrives_cpu, Cpu.get_jump, ht]

/-- A program before its `syscall`: number `0x02`, a buffer at `0x400800`. -/
def caller : Cpu where
  gpr r := if r = 2 then 0x02 else if r = 4 then 0x400800 else if r = 29 then 0x400F00 else 0
  hi := 0
  lo := 0
  sr := 0xFF11
  cr := 0
  epc := 0
  pc := 0x500000

/-- The vectors: `_sys_handler`, and the handler of the call. -/
def vectors (a : Word) : Word :=
  if a = 0x80001020 then 0x80000190 else if a = 0x80001048 then 0x80000900 else 0

/-- The program calls it: afterwards `$4` is not what it was. -/
theorem argument_lost : ¬Contract TwoTasks.system (advances 0x80000900) := by
  intro hc
  have hhandler : (arrives TwoTasks.system 0x20 caller vectors).cpu.get 3 = 0x80000900 :=
    arrives_handler (v := 0x80001048) (by decide) (by decide) (by decide)
  obtain ⟨m₁, hm₁⟩ : ∃ m₁, m₁ = arrives TwoTasks.system 0x20 caller vectors := ⟨_, rfl⟩
  obtain ⟨m, hm⟩ : ∃ m, m = calls TwoTasks.system m₁ := ⟨_, rfl⟩
  have hpc : m.cpu.pc = 0x80000900 := by
    rw [hm, ← hhandler, ← hm₁]
    rfl
  have hra : m.cpu.get 31 = TwoTasks.system.labels.sysReturn := by rw [hm, calls_ra]
  have hs : Serves TwoTasks.system (advances 0x80000900) caller vectors m
      { m with cpu := (m.cpu.set 4 (m.cpu.get 4 + 1)).jump (m.cpu.get 31) } := by
    refine ⟨0x20, m₁, by decide, ?_, ?_, hm, hpc, advances_obeys _ _ _, .single (.inl rfl), hra⟩
    · rw [System.enter_pc]
      decide
    · rw [hm₁]
  have hback := hs.keeps_iff.mp (hc _ _ _ _ hs).2
  have h4 : m.cpu.get 4 + 1 = m.cpu.get 4 := by
    have hset := hback.args 4 (by decide)
    rwa [Cpu.get_jump, Cpu.get_set_self _ (by decide)] at hset
  bv_omega

end SysCall
end App
end Smc
