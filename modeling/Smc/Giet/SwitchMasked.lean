/-
# Switches with interrupts masked

Interrupts are masked while `_ctx_switch` and `_task_switch` run, as long as
the system call `0x0D` is made with interrupts disabled: an interrupt sets
`EXL`, `_sys_handler` keeps `IE`, and the `SR` that `_task_switch` restores was
saved in a switch. So no switch is interrupted, the index in
`_current_task_array` is that of the task that runs whenever it is read, and
the registers go to the context they belong to (`Inv`).

`_task_switch` is followed instruction by instruction by what is left of it
(`Switching`). Left alone, a switch does what `System.ctxSwitch` and
`taskSwitch` say (`advances_ctxSwitch`, `advances_taskSwitch`).

A task that makes the call with interrupts enabled can be interrupted between
the update of `_current_task_array` and the saving of its registers
(`tasks_mixed`).

Key definitions: `Masked`, `Switching`, `Inv`.
Key theorems: `inv_move`, `inv_run`, `undisturbed_of_callsMasked`,
`tasks_mixed`.
-/
import Smc.Lib.Guarded
import Smc.Giet.SwitchWindow

namespace Smc
namespace Giet
namespace SwitchWindow

open Mips Relation

/-! ### Masked interrupts -/

/-- Interrupts are masked by this `SR`. -/
def Masked (sr : Word) : Prop := ¬ (sr &&& Cpu.ie = Cpu.ie ∧ sr &&& Cpu.exl = 0)

theorem masked_or_exl (sr : Word) : Masked (sr ||| Cpu.exl) := fun h => Cpu.or_exl_ne sr h.2

theorem masked_of_exl {sr : Word} (h : sr &&& Cpu.exl ≠ 0) : Masked sr := fun h' => h h'.2

/-- `_sys_handler` leaves `IE` as the caller had it. -/
theorem sysEnter_ie (sr : Word) : ((sr ||| Cpu.exl) &&& 0xFFFFFFED) &&& Cpu.ie = sr &&& Cpu.ie := by
  have h : (0xFFFFFFED : Word) &&& Cpu.ie = Cpu.ie := by decide
  have h' : Cpu.exl &&& Cpu.ie = 0#32 := by decide
  calc ((sr ||| Cpu.exl) &&& 0xFFFFFFED) &&& Cpu.ie
      = (sr ||| Cpu.exl) &&& Cpu.ie := by rw [BitVec.and_assoc, h]
    _ = sr &&& Cpu.ie := by rw [BitVec.and_or_distrib_right, h', BitVec.or_zero]

/-! ### `_task_switch`, instruction by instruction -/

section TaskSwitch

variable {Q : Word → Prop} {A B : Set Word} {m : Machine}

/-- `_task_switch` keeps the address of the context in `$27`. -/
theorem saveHead_base (m : Machine) :
    (exec [.addu 27 4 0, .mfc0 26 .sr, .sw 26 27 (4 * 0)] m).cpu.get 27 = m.cpu.get 4 := by
  simp [exec_cons, exec_nil, Instr.exec, Cpu.get_set_self, Cpu.get_set_of_ne]

/-- The first half of `_task_switch` stores to the context in `$4`. -/
theorem guarded_taskSave (hQ : Q m.cpu.sr) (hB : ∀ w < 34, slot (m.cpu.get 4) w ∈ B) : Guarded Q A B taskSave m := by
  unfold taskSave
  set m1 := exec [.addu 27 4 0, .mfc0 26 .sr, .sw 26 27 (4 * 0)] m with hm1
  have hsr : m1.cpu.sr = m.cpu.sr := by simp [hm1, exec_cons, exec_nil, Instr.exec]
  have hbase : m1.cpu.get 27 = m.cpu.get 4 := saveHead_base m
  have hcpu : (exec (stores 27 ctxRegs) m1).cpu = m1.cpu := stores_cpu _ _
  apply guarded_append.mpr
  refine ⟨?_, guarded_append.mpr ⟨?_, ?_⟩⟩
  · simpa [Guarded, Instr.load, Instr.store, Instr.exec, Cpu.get_set_self, Cpu.get_set_of_ne, hQ, slot]
      using hB 0 (by omega)
  · refine guarded_stores (by rwa [hsr]) fun x hx => ?_
    have hx := (ctxRegs_slots.2 x hx).2
    rw [hbase]
    exact hB x.2 (by omega)
  · have h32 := hB 32 (by omega)
    have h33 := hB 33 (by omega)
    rw [← hbase, ← hcpu] at h32 h33
    have hq : Q (exec (stores 27 ctxRegs) m1).cpu.sr := by
      rw [hcpu, hsr]
      exact hQ
    generalize exec (stores 27 ctxRegs) m1 = m2 at h32 h33 hq
    simpa [Guarded, Instr.load, Instr.store, Instr.exec, Cpu.get_set_of_ne, hq, slot] using And.intro h32 h33

/-- The second half loads from the context in `$5`, and has its `SR` from the
third instruction on. -/
theorem guarded_taskRestore (hQ : Q m.cpu.sr) (hQ' : Q (m.mem (slot (m.cpu.get 5) 0)))
    (hA : ∀ w < 34, slot (m.cpu.get 5) w ∈ A) : Guarded Q A B taskRestore m := by
  unfold taskRestore
  set m1 := exec [.addu 27 5 0, .lw 26 27 (4 * 0), .mtc0 26 .sr] m with hm1
  have hsr : m1.cpu.sr = m.mem (slot (m.cpu.get 5) 0) := by
    simp [hm1, exec_cons, exec_nil, Instr.exec, Cpu.get_set_self, slot]
  have hbase : m1.cpu.get 27 = m.cpu.get 5 := by
    simp [hm1, exec_cons, exec_nil, Instr.exec, Cpu.get_set_self, Cpu.get_set_of_ne]
  have h27 : (27 : Reg) ∉ ctxRegs.map Prod.fst := by decide
  have hspecial := loads_special (b := 27) ctxRegs m1
  have hbase' := (loads_get_of_notMem (b := 27) ctxRegs m1 h27).trans hbase
  apply guarded_append.mpr
  refine ⟨?_, guarded_append.mpr ⟨?_, ?_⟩⟩
  · simpa [Guarded, Instr.load, Instr.store, Instr.exec, Cpu.get_set_self, hQ, slot]
      using And.intro (hA 0 (by omega)) hQ'
  · refine guarded_loads (by rwa [hsr]) h27 fun x hx => ?_
    have hx := (ctxRegs_slots.2 x hx).2
    rw [hbase]
    exact hA x.2 (by omega)
  · have h32 := hA 32 (by omega)
    have h33 := hA 33 (by omega)
    rw [← hbase'] at h32 h33
    have hq : Q (exec (loads 27 ctxRegs) m1).cpu.sr := by
      rw [hspecial.sr, hsr]
      exact hQ'
    generalize exec (loads 27 ctxRegs) m1 = m2 at h32 h33 hq
    simpa [Guarded, Instr.load, Instr.store, Instr.exec, Cpu.get_set_of_ne, hq, slot] using And.intro h32 h33

/-- The words of `EPC` and `CR`, which come last. -/
theorem taskSave_special (m : Machine) : (exec taskSave m).mem (slot (m.cpu.get 4) 32) = m.cpu.epc ∧
    (exec taskSave m).mem (slot (m.cpu.get 4) 33) = m.cpu.cr := by
  rw [taskSave, exec_append, exec_append]
  set m1 := exec [.addu 27 4 0, .mfc0 26 .sr, .sw 26 27 (4 * 0)] m with hm1
  have hbase : m1.cpu.get 27 = m.cpu.get 4 := saveHead_base m
  have hspecial : m1.cpu.epc = m.cpu.epc ∧ m1.cpu.cr = m.cpu.cr := by simp [hm1, exec_cons, exec_nil, Instr.exec]
  have hcpu : (exec (stores 27 ctxRegs) m1).cpu = m1.cpu := stores_cpu _ _
  generalize exec (stores 27 ctxRegs) m1 = m2 at hcpu
  have hne : slot (m.cpu.get 4) 32 ≠ slot (m.cpu.get 4) 33 := fun he => by
    have := slot_inj (by omega) (by omega) he
    omega
  have hmem : (exec [.mfc0 26 .epc, .sw 26 27 (4 * 32), .mfc0 26 .cr, .sw 26 27 (4 * 33)] m2).mem =
      Function.update (Function.update m2.mem (slot (m.cpu.get 4) 32) m.cpu.epc) (slot (m.cpu.get 4) 33) m.cpu.cr := by
    simp [exec_cons, exec_nil, Instr.exec, Cpu.getCp0, hcpu, Cpu.get_set_self, Cpu.get_set_of_ne, hbase, hspecial, slot]
  rw [hmem]
  exact ⟨by rw [Function.update_of_ne hne, Function.update_self], Function.update_self _ _ _⟩

end TaskSwitch

/-! ### The invariant -/

section Invariant

variable {P T : ℕ} (k : System P T)

/-- The words of the contexts of `p`. -/
def contextsOf (p : Fin P) : Set Word := { a | ∃ i < T, ∃ w < 64, a = slot (k.context p i) w }

/-- The words of a context that `_task_switch` saves. -/
def savedWords (p : Fin P) (i : ℕ) : Set Word := { a | ∃ w < 34, a = slot (k.context p i) w }

/-- In `_task_switch`, `rest` is left to do: it goes on with interrupts masked,
and it ends with the registers of the task in its own context. -/
structure Switching (p : Fin P) (x : Proc) (mem : Word → Word) (next : BitVec 8) (rest : List Instr) : Prop where
  current : x.current = next
  next_lt : next.toNat < (k.number p).toNat
  next_ne : next.toNat ≠ x.running
  masked : Masked (x.saved x.running).sr
  guarded : Guarded Masked (contextsOf k p) (savedWords k p x.running) rest ⟨x.cpu, mem⟩
  saves : Holds k (exec rest ⟨x.cpu, mem⟩).mem p x.running (x.saved x.running)

/-- What holds at each place of `_ctx_switch`. -/
def At (p : Fin P) (x : Proc) (mem : Word → Word) : Prop :=
  match x.pos with
  | .out => x.current.toNat = x.running
  | .test => Masked x.cpu.sr ∧ x.current.toNat = x.running
  | .current => Masked x.cpu.sr ∧ x.current.toNat = x.running
  | .next curr => Masked x.cpu.sr ∧ curr.toNat = x.running
  | .publish curr next => Masked x.cpu.sr ∧ curr.toNat = x.running ∧ next = nextTaskIndex k p curr
  | .call curr next =>
    Masked x.cpu.sr ∧ curr.toNat = x.running ∧ next = nextTaskIndex k p curr ∧ x.current = next
  | .switch next rest => Switching k p x mem next rest

/-- The switches of a processor with several tasks: no interrupt was taken in
one, and each task that waits has its registers, with interrupts masked, in
its context. -/
structure Orderly (p : Fin P) (x : Proc) (mem : Word → Word) : Prop where
  left : ∀ y ∈ x.left, y = .out
  at_pos : At k p x mem
  waiting : ∀ i < (k.number p).toNat, i ≠ x.running → Holds k mem p i (x.saved i) ∧ Masked (x.saved i).sr

/-- A processor with one task never gets to the read of `_current_task_array`. -/
structure Alone (x : Proc) : Prop where
  pos : x.pos = .out ∨ x.pos = .test
  left : ∀ y ∈ x.left, y = .out ∨ y = .test

structure Inv (p : Fin P) (x : Proc) (mem : Word → Word) : Prop where
  running_lt : x.running < (k.number p).toNat
  fits : x.cpu.Interruptible → k.Fits p x.running (x.cpu.get 29)
  alone : (k.number p).toNat ≤ 1 → Alone x
  orderly : 2 ≤ (k.number p).toNat → Orderly k p x mem

variable {k} {p : Fin P} {x : Proc} {mem mem' : Word → Word}

theorem slot_mem_contextsOf {i w : ℕ} (hi : i < T) (hw : w < 64) : slot (k.context p i) w ∈ contextsOf k p :=
  ⟨i, hi, w, hw, rfl⟩

theorem inContexts_of_mem {a : Word} (h : a ∈ contextsOf k p) : k.InContexts a := by
  obtain ⟨i, hi, w, hw, rfl⟩ := h
  exact k.context_inContexts p hi hw

theorem Inv.running_lt_T (h : Inv k p x mem) : x.running < T := Nat.lt_of_lt_of_le h.running_lt (k.number_le p)

theorem Holds.of_mem {i : ℕ} {c : Cpu} (h : Holds k mem p i c)
    (hm : ∀ w < 34, mem' (slot (k.context p i) w) = mem (slot (k.context p i) w)) : Holds k mem' p i c := by
  refine ⟨(hm 0 (by omega)).trans h.sr, fun y hy => ?_, (hm 32 (by omega)).trans h.epc, (hm 33 (by omega)).trans h.cr⟩
  have hy' := (ctxRegs_slots.2 y hy).2
  exact (hm y.2 (by omega)).trans (h.regs y hy)

theorem Switching.of_mem {next : BitVec 8} {rest : List Instr} (h : Switching k p x mem next rest)
    (hT : x.running < T) (hm : ∀ a ∈ contextsOf k p, mem' a = mem a) : Switching k p x mem' next rest := by
  have hs : SameOn (contextsOf k p) ⟨x.cpu, mem⟩ ⟨x.cpu, mem'⟩ := ⟨rfl, fun a ha => (hm a ha).symm⟩
  obtain ⟨hg, hsame⟩ := h.guarded.congr hs
  refine ⟨h.current, h.next_lt, h.next_ne, h.masked, hg, h.saves.of_mem fun w hw => ?_⟩
  exact (hsame.mem _ (slot_mem_contextsOf hT (by omega))).symm

theorem Orderly.of_mem (h : Orderly k p x mem) (hT : x.running < T) (hm : ∀ a ∈ contextsOf k p, mem' a = mem a) :
    Orderly k p x mem' := by
  refine ⟨h.left, ?_, fun i hi hne => ?_⟩
  · have hat := h.at_pos
    unfold At at hat ⊢
    split <;> rename_i hpos <;> rw [hpos] at hat
    case h_7 => exact hat.of_mem hT hm
    all_goals exact hat
  · obtain ⟨hh, hmask⟩ := h.waiting i hi hne
    have hiT : i < T := Nat.lt_of_lt_of_le hi (k.number_le p)
    exact ⟨hh.of_mem fun w hw => hm _ (slot_mem_contextsOf hiT (by omega)), hmask⟩

/-- What a processor relies on is in its own contexts. -/
theorem Inv.of_mem (h : Inv k p x mem) (hm : ∀ a ∈ contextsOf k p, mem' a = mem a) : Inv k p x mem' :=
  ⟨h.running_lt, h.fits, h.alone, fun hn => (h.orderly hn).of_mem h.running_lt_T hm⟩

end Invariant

/-! ### Entries -/

section Entries

variable {P T : ℕ} {k : System P T} {p : Fin P} {i : ℕ} {c : Cpu} {mem : Word → Word} {cr a : Word}

theorem interrupted_spec : k.Interrupted c mem (interrupted k cr c mem) := System.intCall_spec (System.enter_spec cr c mem)

/-- An interrupt saves registers on the stack of the task. -/
theorem interrupted_mem (hi : i < T) (hf : k.Fits p i (c.get 29)) (ha : k.InContexts a) :
    (interrupted k cr c mem).mem a = mem a := by
  apply interrupted_spec.mem a
  rintro j - hj rfl
  exact (hf.inStack_slot hj).1.not_inContexts hi ha

theorem called_sr : (called k cr c mem).cpu.sr = (c.sr ||| Cpu.exl) &&& 0xFFFFFFED := by
  unfold called
  rw [Cpu.jump_sr, Cpu.set_sr, (sysEnter_spec k.labels _).sr, (System.enter_spec cr c mem).sr]

theorem called_sp : (called k cr c mem).cpu.get 29 = c.get 29 - 24 := by
  have he := System.entering_sysEnter (k := k) (System.enter_spec (k := k) cr c mem)
  unfold called
  generalize exec (sysEnter k.labels) (k.enter cr ⟨c, mem⟩) = m at he ⊢
  rw [Cpu.get_jump, Cpu.get_set_of_ne _ (by decide), he.sp]

/-- So does `_sys_handler`. -/
theorem called_mem (hi : i < T) (hf : k.Fits p i (c.get 29)) (ha : k.InContexts a) :
    (called k cr c mem).mem a = mem a := by
  have hlo := hf.1
  have hhi := hf.2
  have hlt := (c.get 29).isLt
  have h24 : 24 ≤ (c.get 29).toNat := by omega
  have hsub : (c.get 29 - 24).toNat = (c.get 29).toNat - 24 := sub_toNat (n := 24) h24
  have hin : ∀ j, j < 6 → k.InStack p i (slot (c.get 29 - 24) j) := by
    intro j hj
    rw [System.InStack, slot_toNat (by omega), hsub]
    omega
  have he := System.entering_sysEnter (k := k) (System.enter_spec (k := k) cr c mem)
  unfold called
  generalize exec (sysEnter k.labels) (k.enter cr ⟨c, mem⟩) = m at he ⊢
  apply he.mem a
  · rintro rfl
    exact (hin 4 (by omega)).not_inContexts hi ha
  · rintro rfl
    exact (hin 5 (by omega)).not_inContexts hi ha

end Entries

/-! ### What a step keeps -/

section Steps

variable {P T : ℕ} {k : System P T} {p : Fin P} {x x' : Proc} {mem mem' : Word → Word}

theorem nextTaskIndex_toNat (curr : BitVec 8) :
    (nextTaskIndex k p curr).toNat = (curr.toNat + 1) % (k.number p).toNat := by
  have hpos := k.number_pos p
  have hlt : (curr.toNat + 1) % (k.number p).toNat < (k.number p).toNat := Nat.mod_lt _ (by omega)
  have h256 := (k.number p).isLt
  rw [nextTaskIndex, BitVec.toNat_ofNat]
  exact Nat.mod_eq_of_lt (by omega)

/-- Where interrupts can be taken, a processor with several tasks is not
switching. -/
theorem Orderly.pos_eq_out (h : Orderly k p x mem) (hi : x.cpu.Interruptible) : x.pos = .out := by
  have hat := h.at_pos
  unfold At at hat
  split at hat
  case h_1 hpos => exact hpos
  case h_7 => exact absurd hi hat.guarded.now
  all_goals exact absurd hi hat.1

theorem inv_runs (hI : Inv k p x mem) {m : Machine} (h : Runs k p x mem m) : Inv k p { x with cpu := m.cpu } m.mem := by
  have hm : ∀ a ∈ contextsOf k p, m.mem a = mem a := fun a ha => h.contexts a (inContexts_of_mem ha)
  refine Inv.of_mem ⟨hI.running_lt, h.fits, fun hn => ⟨(hI.alone hn).pos, (hI.alone hn).left⟩, fun hn => ?_⟩ hm
  obtain ⟨hleft, hat, hwait⟩ := hI.orderly hn
  refine ⟨hleft, ?_, hwait⟩
  unfold At at hat ⊢
  dsimp only
  rcases h.compiled with hpos | ⟨hpos, hsr⟩
  · rw [hpos] at hat ⊢
    exact hat
  · rw [hsr]
    split <;> rename_i hp <;> rw [hp] at hat
    case h_7 => exact absurd hp (hpos _ _)
    all_goals exact hat

theorem inv_interrupt (hI : Inv k p x mem) (cr interruptIndex : Word) (hi : x.cpu.Interruptible) :
    Inv k p { x with
      cpu := (interrupted k cr x.cpu mem).cpu
      pos := served k interruptIndex
      left := x.pos :: x.left } (interrupted k cr x.cpu mem).mem := by
  have hmask : Masked (interrupted k cr x.cpu mem).cpu.sr := by
    rw [interrupted_spec.sr]
    exact masked_or_exl _
  have hm : ∀ a ∈ contextsOf k p, (interrupted k cr x.cpu mem).mem a = mem a := fun a ha =>
    interrupted_mem hI.running_lt_T (hI.fits hi) (inContexts_of_mem ha)
  refine Inv.of_mem ⟨hI.running_lt, fun h => absurd h hmask, fun hn => ?_, fun hn => ?_⟩ hm
  · obtain ⟨hpos, hleft⟩ := hI.alone hn
    refine ⟨?_, List.forall_mem_cons.mpr ⟨hpos, hleft⟩⟩
    unfold served
    split_ifs
    · exact .inr rfl
    · exact .inl rfl
  · have hout := (hI.orderly hn).pos_eq_out hi
    obtain ⟨hleft, hat, hwait⟩ := hI.orderly hn
    refine ⟨List.forall_mem_cons.mpr ⟨hout, hleft⟩, ?_, hwait⟩
    unfold At at hat ⊢
    rw [hout] at hat
    unfold served
    split_ifs
    · exact ⟨hmask, hat⟩
    · exact hat

theorem inv_ctxSwitchCall (hI : Inv k p x mem) (cr : Word) (hpos : x.pos = .out)
    (hs : k.Fits p x.running (x.cpu.get 29) ∧ k.Fits p x.running (x.cpu.get 29 - 24))
    (hie : 2 ≤ (k.number p).toNat → x.cpu.sr &&& Cpu.ie = 0) :
    Inv k p { x with cpu := (called k cr x.cpu mem).cpu, pos := .test } (called k cr x.cpu mem).mem := by
  have hm : ∀ a ∈ contextsOf k p, (called k cr x.cpu mem).mem a = mem a := fun a ha =>
    called_mem hI.running_lt_T hs.1 (inContexts_of_mem ha)
  refine Inv.of_mem ⟨hI.running_lt, fun _ => ?_, fun hn => ⟨.inr rfl, (hI.alone hn).left⟩, fun hn => ?_⟩ hm
  · dsimp only
    rw [called_sp]
    exact hs.2
  · obtain ⟨hleft, hat, hwait⟩ := hI.orderly hn
    refine ⟨hleft, ?_, hwait⟩
    unfold At at hat ⊢
    rw [hpos] at hat
    refine ⟨fun hi => ?_, hat⟩
    have hne : (0 : Word) ≠ Cpu.ie := by decide
    dsimp only at hi
    rw [called_sr, sysEnter_ie, hie hn] at hi
    exact hne hi.1

theorem inv_resume (hI : Inv k p x mem) {y : Pos} {m : Machine} (hpos : x.pos = .out) (hy : y ∈ x.left)
    (h : Runs k p x mem m) : Inv k p { x with cpu := m.cpu, pos := y, left := x.left.erase y } m.mem := by
  have hrun := inv_runs hI h
  have hsub : ∀ z, z ∈ x.left.erase y → z ∈ x.left := fun z hz => List.mem_of_mem_erase hz
  refine ⟨hI.running_lt, hrun.fits, fun hn => ?_, fun hn => ?_⟩
  · obtain ⟨-, hleft⟩ := hI.alone hn
    exact ⟨hleft y hy, fun z hz => hleft z (hsub z hz)⟩
  · -- nothing but tasks and handlers was interrupted
    obtain ⟨hleft, hat, hwait⟩ := hrun.orderly hn
    refine ⟨fun z hz => hleft z (hsub z hz), ?_, hwait⟩
    unfold At at hat ⊢
    dsimp only at hat ⊢
    rw [hpos] at hat
    rw [hleft y hy]
    exact hat

/-- `_task_switch` masks interrupts all along, if the caller did and the next
task's `SR` does. -/
theorem guarded_switch {c : Cpu} {i j : ℕ} (h4 : c.get 4 = k.context p i) (h5 : c.get 5 = k.context p j) (hi : i < T)
    (hj : j < T) (hne : j ≠ i) (hc : Masked c.sr) (hj0 : Masked (mem (slot (k.context p j) 0))) :
    Guarded Masked (contextsOf k p) (savedWords k p i) (taskSave ++ taskRestore) ⟨c, mem⟩ := by
  have hs := taskSave_spec ⟨c, mem⟩
  have h5' : (exec taskSave ⟨c, mem⟩).cpu.get 5 = k.context p j := (hs.get 5 (by decide) (by decide)).trans h5
  refine guarded_append.mpr ⟨guarded_taskSave hc fun w hw => ⟨w, hw, congrArg (slot · w) h4⟩, ?_⟩
  generalize exec taskSave ⟨c, mem⟩ = m at hs h5'
  apply guarded_taskRestore
  · rw [hs.special.sr]
    exact hc
  · rw [h5', hs.mem]
    · exact hj0
    · intro w hw he
      rw [h4] at he
      obtain ⟨⟨-, hji⟩, -⟩ := k.context_slot_inj hj hi (by omega) (by omega) he
      exact hne hji
  · intro w hw
    rw [h5']
    exact slot_mem_contextsOf hj (by omega)

/-- It saves the caller's registers. -/
theorem holds_switch {c : Cpu} {i : ℕ} (h4 : c.get 4 = k.context p i) :
    Holds k (exec (taskSave ++ taskRestore) ⟨c, mem⟩).mem p i c := by
  have hs := taskSave_spec ⟨c, mem⟩
  have hspecial := taskSave_special ⟨c, mem⟩
  rw [exec_append, (taskRestore_spec _).mem]
  generalize exec taskSave ⟨c, mem⟩ = m at hs hspecial
  dsimp only at hspecial
  rw [h4] at hspecial
  refine ⟨?_, fun y hy => ?_, hspecial.1, hspecial.2⟩
  · rw [← h4]
    exact hs.sr
  · rw [← h4]
    exact hs.regs y hy

/-- From the read of `_current_task_array` on, there are several tasks. -/
theorem Inv.several (hI : Inv k p x mem) (hout : x.pos ≠ .out) (htest : x.pos ≠ .test) : 2 ≤ (k.number p).toNat := by
  by_contra hn
  rcases (hI.alone (by omega)).pos with h | h
  · exact hout h
  · exact htest h

theorem inv_call (hI : Inv k p x mem) (hn : 2 ≤ (k.number p).toNat) {curr next : BitVec 8} (hmask : Masked x.cpu.sr)
    (hcurr : curr.toNat = x.running) (hnext : next = nextTaskIndex k p curr) (hcurrent : x.current = next)
    (h4 : x.cpu.get 4 = k.context p curr.toNat) (h5 : x.cpu.get 5 = k.context p next.toNat) :
    Inv k p { x with
      pos := .switch next (taskSave ++ taskRestore)
      saved := Function.update x.saved x.running x.cpu } mem := by
  obtain ⟨hleft, -, hwait⟩ := hI.orderly hn
  have hlt : next.toNat < (k.number p).toNat := by
    rw [hnext, nextTaskIndex_toNat]
    exact Nat.mod_lt _ (by omega)
  have hne : next.toNat ≠ x.running := by
    rw [hnext, nextTaskIndex_toNat, hcurr]
    exact System.succ_mod_ne hI.running_lt (by omega)
  obtain ⟨hholds, hmask'⟩ := hwait next.toNat hlt hne
  have hltT : next.toNat < T := Nat.lt_of_lt_of_le hlt (k.number_le p)
  rw [hcurr] at h4
  refine ⟨hI.running_lt, hI.fits, fun h1 => absurd hn (by omega), fun _ => ⟨hleft, ?_, fun i hi hi' => ?_⟩⟩
  · show Switching k p _ mem next (taskSave ++ taskRestore)
    refine ⟨hcurrent, hlt, hne, ?_, ?_, ?_⟩
    · dsimp only
      rw [Function.update_self]
      exact hmask
    · rw [← hholds.sr] at hmask'
      exact guarded_switch h4 h5 hI.running_lt_T hltT hne hmask hmask'
    · dsimp only
      rw [Function.update_self]
      exact holds_switch h4
  · dsimp only at hi' ⊢
    rw [Function.update_of_ne hi']
    exact hwait i hi hi'

theorem inv_instr (hI : Inv k p x mem) (hn : 2 ≤ (k.number p).toNat) {next : BitVec 8} {i : Instr} {rest : List Instr}
    (hs : Switching k p x mem next (i :: rest)) :
    Inv k p { x with cpu := (i.exec ⟨x.cpu, mem⟩).cpu, pos := .switch next rest } (i.exec ⟨x.cpu, mem⟩).mem := by
  obtain ⟨hleft, -, hwait⟩ := hI.orderly hn
  obtain ⟨hcurrent, hlt, hne, hmask, ⟨-, -, hstore, hguard⟩, hsaves⟩ := hs
  refine ⟨hI.running_lt, fun h => absurd h hguard.now, fun h1 => absurd hn (by omega), fun _ =>
    ⟨hleft, ⟨hcurrent, hlt, hne, hmask, hguard, hsaves⟩, fun j hj hj' => ?_⟩⟩
  obtain ⟨hholds, hmask'⟩ := hwait j hj hj'
  have hjT := Nat.lt_of_lt_of_le hj (k.number_le p)
  refine ⟨hholds.of_mem fun w hw => Instr.exec_mem_of_ne fun b hb he => ?_, hmask'⟩
  -- the instruction stores to the context of the task that runs
  obtain ⟨v, hv, rfl⟩ := hstore b hb
  obtain ⟨⟨-, hji⟩, -⟩ := k.context_slot_inj hjT hI.running_lt_T (by omega) (by omega) he
  exact hj' hji

theorem inv_jr (hI : Inv k p x mem) (hn : 2 ≤ (k.number p).toNat) {next : BitVec 8}
    (hs : Switching k p x mem next []) :
    Inv k p { x with cpu := x.cpu.jump (x.cpu.get 31), pos := .out, running := next.toNat } mem := by
  obtain ⟨hleft, -, hwait⟩ := hI.orderly hn
  obtain ⟨hcurrent, hlt, hne, hmask, hguard, hsaves⟩ := hs
  refine ⟨hlt, fun h => absurd h hguard.now, fun h1 => absurd hn (by omega), fun _ =>
    ⟨hleft, congrArg BitVec.toNat hcurrent, fun i hi hi' => ?_⟩⟩
  by_cases hr : i = x.running
  · subst hr
    exact ⟨hsaves, hmask⟩
  · exact hwait i hi hr

/-- A statement of `_ctx_switch` that goes on to `y`. -/
theorem Inv.goTo (hI : Inv k p x mem) (hn : 2 ≤ (k.number p).toNat) {y : Pos} {current : BitVec 8}
    (hat : At k p { x with current := current, pos := y } mem) :
    Inv k p { x with current := current, pos := y } mem :=
  ⟨hI.running_lt, hI.fits, fun h1 => absurd hn (by omega), fun _ =>
    ⟨(hI.orderly hn).left, hat, (hI.orderly hn).waiting⟩⟩

theorem inv_test (hI : Inv k p x mem) (hpos : x.pos = .test) :
    Inv k p { x with pos := if (k.number p).toNat ≤ 1 then .out else .current } mem := by
  by_cases hn : (k.number p).toNat ≤ 1
  · rw [if_pos hn]
    exact ⟨hI.running_lt, hI.fits, fun _ => ⟨.inl rfl, (hI.alone hn).left⟩, fun h2 => absurd hn (by omega)⟩
  · rw [if_neg hn]
    have hat := (hI.orderly (by omega)).at_pos
    unfold At at hat
    rw [hpos] at hat
    exact hI.goTo (by omega) hat

theorem inv_advance (hI : Inv k p x mem) (h : advance k p x mem = some (x', mem')) : Inv k p x' mem' := by
  have hat : x.pos ≠ .out → x.pos ≠ .test → 2 ≤ (k.number p).toNat ∧ At k p x mem := fun h1 h2 =>
    ⟨hI.several h1 h2, (hI.orderly (hI.several h1 h2)).at_pos⟩
  unfold At at hat
  unfold advance at h
  split at h <;> rename_i hpos <;> rw [hpos] at hat
  case h_1 => cases h
  case h_2 =>
    cases h
    exact inv_test hI hpos
  case h_3 =>
    obtain ⟨hn, hmask, hcurrent⟩ := hat (by simp) (by simp)
    cases h
    exact hI.goTo hn ⟨hmask, hcurrent⟩
  case h_4 =>
    obtain ⟨hn, hmask, hcurr⟩ := hat (by simp) (by simp)
    cases h
    exact hI.goTo hn ⟨hmask, hcurr, rfl⟩
  case h_5 =>
    obtain ⟨hn, hmask, hcurr, hnext⟩ := hat (by simp) (by simp)
    cases h
    exact hI.goTo hn ⟨hmask, hcurr, hnext, rfl⟩
  case h_6 =>
    obtain ⟨hn, hmask, hcurr, hnext, hcurrent⟩ := hat (by simp) (by simp)
    split_ifs at h with hargs
    cases h
    exact inv_call hI hn hmask hcurr hnext hcurrent hargs.1 hargs.2
  case h_7 =>
    obtain ⟨hn, hs⟩ := hat (by simp) (by simp)
    cases h
    exact inv_instr hI hn hs
  case h_8 =>
    obtain ⟨hn, hs⟩ := hat (by simp) (by simp)
    cases h
    exact inv_jr hI hn hs

/-- **One step of a processor keeps its invariant.** -/
theorem inv_move {e : Event} (hI : Inv k p x mem)
    (hC : e = .ctxSwitchCall → 2 ≤ (k.number p).toNat → x.cpu.sr &&& Cpu.ie = 0) (h : Move k p e x mem x' mem') :
    Inv k p x' mem' := by
  cases h with
  | run m h => exact inv_runs hI h
  | advance h => exact inv_advance hI h
  | interrupt cr interruptIndex hcr hi => exact inv_interrupt hI cr interruptIndex hi
  | ctxSwitchCall cr hcr hpos hx hs => exact inv_ctxSwitchCall hI cr hpos hs (hC rfl)
  | resume y m hpos hy h => exact inv_resume hI hpos hy h

/-- It writes no context of another processor. -/
theorem move_mem {e : Event} {q : Fin P} (hI : Inv k p x mem) (h : Move k p e x mem x' mem') (hq : q ≠ p) :
    ∀ a ∈ contextsOf k q, mem' a = mem a := by
  intro a ha
  have hin := inContexts_of_mem ha
  cases h with
  | run m h => exact h.contexts a hin
  | interrupt cr interruptIndex hcr hi => exact interrupted_mem hI.running_lt_T (hI.fits hi) hin
  | ctxSwitchCall cr hcr hpos hx hs => exact called_mem hI.running_lt_T hs.1 hin
  | resume y m hpos hy h => exact h.contexts a hin
  | advance h =>
    unfold advance at h
    split at h <;> rename_i hpos
    case h_1 => cases h
    case h_6 =>
      split_ifs at h
      cases h
      rfl
    case h_7 =>
      have hat := (hI.orderly (hI.several (by simp [hpos]) (by simp [hpos]))).at_pos
      unfold At at hat
      rw [hpos] at hat
      cases h
      refine Instr.exec_mem_of_ne fun b hb he => ?_
      obtain ⟨j, hj, w, hw, rfl⟩ := ha
      obtain ⟨v, hv, rfl⟩ := hat.guarded.2.2.1 b hb
      exact hq (k.context_slot_inj hj hI.running_lt_T hw (by omega) he).1.1
    all_goals
      cases h
      rfl

end Steps

/-! ### Switches that nothing interrupts -/

section Advances

variable {P T : ℕ} (k : System P T)

/-- `_ctx_switch` and `_task_switch` go on, with nothing in between. -/
def Advances (p : Fin P) : Proc × (Word → Word) → Proc × (Word → Word) → Prop :=
  ReflTransGen fun s s' => advance k p s.1 s.2 = some s'

variable {k} {p : Fin P} {x : Proc} {mem : Word → Word}

theorem Advances.head {s s' : Proc × (Word → Word)} (h : advance k p x mem = some s) (h' : Advances k p s s') :
    Advances k p (x, mem) s' := ReflTransGen.head (a := (x, mem)) h h'

/-- The statement after the system call or the interrupt. -/
theorem advance_test (hpos : x.pos = .test) (hn : 2 ≤ (k.number p).toNat) :
    advance k p x mem = some ({ x with pos := .current }, mem) := by
  unfold advance
  rw [hpos]
  dsimp only
  rw [if_neg (by omega)]

/-- The statements of `_ctx_switch` choose and publish the task that
`System.ctxSwitch` does. -/
theorem advances_ctxSwitch (mem : Word → Word) (hpos : x.pos = .test) (hn : 2 ≤ (k.number p).toNat) :
    let next := nextTaskIndex k p x.current
    k.ctxSwitch p x.current = some (next, k.context p x.current.toNat, k.context p next.toNat) ∧
      Advances k p (x, mem) ({ x with current := next, pos := .call x.current next }, mem) := by
  refine ⟨?_, ?_⟩
  · rw [System.ctxSwitch, if_neg (by omega)]
    rfl
  · apply Advances.head (advance_test hpos hn)
    apply Advances.head rfl
    apply Advances.head rfl
    apply Advances.head rfl
    exact .refl

theorem advances_block {next : BitVec 8} (rest : List Instr) (hpos : x.pos = .switch next rest) :
    Advances k p (x, mem) ({ x with cpu := (exec rest ⟨x.cpu, mem⟩).cpu, pos := .switch next [] },
      (exec rest ⟨x.cpu, mem⟩).mem) := by
  induction rest generalizing x mem with
  | nil =>
    have hx : ({ x with cpu := x.cpu, pos := .switch next [] } : Proc) = x := by rw [← hpos]
    rw [exec_nil]
    dsimp only
    rw [hx]
    exact .refl
  | cons i rest ih =>
    have h1 : advance k p x mem =
        some ({ x with cpu := (i.exec ⟨x.cpu, mem⟩).cpu, pos := .switch next rest }, (i.exec ⟨x.cpu, mem⟩).mem) := by
      unfold advance
      rw [hpos]
    exact Advances.head h1 (ih rfl)

theorem taskSwitch_mem (m : Machine) : (taskSwitch m).mem = (exec (taskSave ++ taskRestore) m).mem := by
  unfold taskSwitch
  rw [exec_append]

/-- The instructions of `_task_switch` are `taskSwitch`. -/
theorem advances_taskSwitch (mem : Word → Word) {curr next : BitVec 8} (hpos : x.pos = .call curr next)
    (h4 : x.cpu.get 4 = k.context p curr.toNat) (h5 : x.cpu.get 5 = k.context p next.toNat) :
    Advances k p (x, mem)
      ({ x with
          cpu := (taskSwitch ⟨x.cpu, mem⟩).cpu
          pos := .out
          running := next.toNat
          saved := Function.update x.saved x.running x.cpu }, (taskSwitch ⟨x.cpu, mem⟩).mem) := by
  have h1 : advance k p x mem =
      some ({ x with
        pos := .switch next (taskSave ++ taskRestore)
        saved := Function.update x.saved x.running x.cpu }, mem) := by
    unfold advance
    rw [hpos]
    dsimp only
    rw [if_pos ⟨h4, h5⟩]
  apply Advances.head h1
  apply (advances_block _ rfl).tail
  rw [exec_append]
  rfl

/-- The system with processor `p` at `s`. -/
def State.put (σ : State P) (p : Fin P) (s : Proc × (Word → Word)) : State P := ⟨Function.update σ.proc p s.1, s.2⟩

@[simp] theorem State.put_proc (σ : State P) (p : Fin P) (s : Proc × (Word → Word)) : (σ.put p s).proc p = s.1 :=
  Function.update_self _ _ _

theorem Move.step {e : Event} {x' : Proc} {mem' : Word → Word} (σ : State P) (h : Move k p e x mem x' mem') :
    Step k p e (σ.put p (x, mem)) (σ.put p (x', mem')) := by
  have hm : Move k p e ((σ.put p (x, mem)).proc p) (σ.put p (x, mem)).mem x' mem' := by
    rw [State.put_proc]
    exact h
  have hs := Step.move hm
  rwa [State.put, Function.update_idem] at hs

/-- Uninterrupted switches are runs of the system. -/
theorem Advances.run {C : Fin P → Event → State P → Prop} {s s' : Proc × (Word → Word)} (σ : State P)
    (hC : ∀ σ, C p .code σ) (h : Advances k p s s') : Run k C (σ.put p s) (σ.put p s') := by
  induction h with
  | refl => exact .refl
  | tail _ hs ih => exact ih.tail ⟨p, .code, hC _, Move.step σ (.advance hs)⟩

/-- A switch can run to its end. It saves the registers of the task that runs
in the context of the task that `_current_task_array` names. -/
theorem run_switch {C : Fin P → Event → State P → Prop} (σ : State P) (hC : ∀ σ, C p .code σ) (hpos : x.pos = .test)
    (hn : 2 ≤ (k.number p).toNat) (hmask : Masked x.cpu.sr) :
    ∃ x' mem' c, Run k C (σ.put p (x, mem)) (σ.put p (x', mem')) ∧ x'.pos = .out ∧
      x'.running = (nextTaskIndex k p x.current).toNat ∧ x'.saved = Function.update x.saved x.running c ∧
      c.sr = x.cpu.sr ∧ Holds k mem' p x.current.toNat c := by
  obtain ⟨-, hadv⟩ := advances_ctxSwitch mem hpos hn
  set next := nextTaskIndex k p x.current
  -- the compiled code puts the arguments in their registers
  set c := (x.cpu.set 4 (k.context p x.current.toNat)).set 5 (k.context p next.toNat) with hc
  have hsr : c.sr = x.cpu.sr := by rw [hc, Cpu.set_sr, Cpu.set_sr]
  have h4 : c.get 4 = k.context p x.current.toNat := by
    rw [hc, Cpu.get_set_of_ne _ (by decide), Cpu.get_set_self _ (by decide)]
  have h5 : c.get 5 = k.context p next.toNat := Cpu.get_set_self _ (by decide) _
  have hruns : Runs k p { x with current := next, pos := .call x.current next } mem ⟨c, mem⟩ := by
    refine ⟨.inr ⟨fun _ _ => by simp, hsr⟩, fun hi => ?_, fun _ _ => rfl⟩
    unfold Cpu.Interruptible at hi
    rw [hsr] at hi
    exact absurd hi hmask
  have hargs : Move k p .code { x with current := next, pos := .call x.current next } mem
      { x with cpu := c, current := next, pos := .call x.current next } mem := .run _ hruns
  have hcall := (hadv.run σ hC).tail ⟨p, .code, hC _, hargs.step σ⟩
  have hswitch := advances_taskSwitch mem (x := { x with cpu := c, current := next, pos := .call x.current next }) rfl h4 h5
  have hholds : Holds k (exec (taskSave ++ taskRestore) ⟨c, mem⟩).mem p x.current.toNat c := holds_switch h4
  rw [← taskSwitch_mem] at hholds
  exact ⟨_, _, c, hcall.trans (hswitch.run σ hC), rfl, rfl, rfl, hsr, hholds⟩

end Advances

/-! ### Whole runs -/

section Runs

variable {P T : ℕ} {k : System P T} {σ σ' : State P}

theorem ctxRegs_same : ∀ y ∈ ctxRegs, y.2 = y.1.val ∧ y.1 ≠ 0 := by decide

theorem holds_initialCpu (mem : Word → Word) (p : Fin P) (i : ℕ) : Holds k mem p i (initialCpu k mem p i) := by
  refine ⟨rfl, fun y hy => ?_, rfl, rfl⟩
  obtain ⟨h1, h2⟩ := ctxRegs_same y hy
  rw [h1, Cpu.get, if_neg h2]
  rfl

theorem inv_start {σ₀ : Giet.State P} (hb : k.Boot σ₀) (p : Fin P) :
    Inv k p ((start k σ₀).proc p) (start k σ₀).mem := by
  have h0 : (σ₀.current p).toNat = 0 := by
    rw [hb.current p]
    rfl
  refine ⟨?_, fun _ => ?_, fun _ => ⟨.inl rfl, by simp [start]⟩, fun _ => ⟨by simp [start], rfl, fun i hi hne => ?_⟩⟩
  · show (σ₀.current p).toNat < _
    rw [h0]
    exact k.number_pos p
  · show k.Fits p (σ₀.current p).toNat _
    rw [h0]
    exact hb.fits p
  · change i ≠ (σ₀.current p).toNat at hne
    rw [h0] at hne
    exact ⟨holds_initialCpu _ _ _, masked_of_exl (hb.initial p i (Nat.pos_of_ne_zero hne) hi).sr⟩

theorem inv_step {p : Fin P} {e : Event} (hI : ∀ q, Inv k q (σ.proc q) σ.mem) (hC : CallsMasked k p e σ)
    (h : Step k p e σ σ') (q : Fin P) : Inv k q (σ'.proc q) σ'.mem := by
  cases h with
  | move h =>
    rename_i x mem
    show Inv k q (Function.update σ.proc p x q) mem
    by_cases hq : q = p
    · subst hq
      rw [Function.update_self]
      exact inv_move (hI q) hC h
    · rw [Function.update_of_ne hq]
      exact (hI q).of_mem (move_mem (hI p) h hq)

theorem inv_run {σ₀ : Giet.State P} (hb : k.Boot σ₀) (h : Run k (CallsMasked k) (start k σ₀) σ) :
    ∀ p, Inv k p (σ.proc p) σ.mem := by
  induction h with
  | refl => exact inv_start hb
  | tail _ hs ih =>
    obtain ⟨p, e, hC, hstep⟩ := hs
    exact inv_step ih hC hstep

theorem Inv.undisturbed {p : Fin P} {x : Proc} {mem : Word → Word} (hI : Inv k p x mem)
    (hn : 2 ≤ (k.number p).toNat) : Undisturbed k p x mem := by
  have ho := hI.orderly hn
  refine ⟨fun hw hi => ?_, fun y hy hw => ?_, fun i hi hne => (ho.waiting i hi hne).1⟩
  · rw [ho.pos_eq_out hi] at hw
    exact hw
  · rw [ho.left y hy] at hw
    exact hw

theorem and_ie_eq {w : Word} (h : w &&& Cpu.ie ≠ 0) : w &&& Cpu.ie = Cpu.ie := by
  have hbit : w &&& Cpu.ie = BitVec.setWidth 32 (BitVec.ofBool (w.getLsbD 0)) := BitVec.and_one_eq_setWidth_ofBool_getLsbD
  rw [hbit] at h ⊢
  cases hb : w.getLsbD 0
  · rw [hb] at h
    exact absurd (by decide) h
  · decide

/-- A system call made with interrupts enabled enters `_ctx_switch` with
interrupts enabled. -/
theorem called_interruptible (cr : Word) {c : Cpu} (mem : Word → Word) (h : c.sr &&& Cpu.ie ≠ 0) :
    (called k cr c mem).cpu.Interruptible := by
  unfold Cpu.Interruptible
  rw [called_sr, sysEnter_ie]
  exact ⟨and_ie_eq h, System.sysEnter_sr _⟩

/-- One statement later it is in the window. -/
theorem disturbed_of_not_callsMasked {p : Fin P} {e : Event} (h : Step k p e σ σ') (hC : ¬ CallsMasked k p e σ) :
    ∃ σ'', Step k p .code σ' σ'' ∧ ¬ Undisturbed k p (σ''.proc p) σ''.mem := by
  unfold CallsMasked at hC
  push Not at hC
  obtain ⟨rfl, hn, hie⟩ := hC
  cases h with
  | move h =>
    cases h with
    | ctxSwitchCall cr hcr hpos hx hs =>
      have hm := called_interruptible (k := k) cr σ.mem hie
      generalize called k cr (σ.proc p).cpu σ.mem = m at hm
      refine ⟨σ.put p _, Move.step σ (.advance (advance_test rfl hn)), fun hu => ?_⟩
      rw [State.put_proc] at hu
      exact hu.masked trivial hm

/-- **Context switches are not interrupted**, and the registers in a task's
context are its own, in every run in which the system call is made with
interrupts disabled; a call made with interrupts enabled is in the window,
with interrupts enabled, one statement later. -/
theorem undisturbed_of_callsMasked {σ₀ : Giet.State P} (hb : k.Boot σ₀) :
    (∀ σ, Run k (CallsMasked k) (start k σ₀) σ → ∀ p, 2 ≤ (k.number p).toNat →
      Undisturbed k p (σ.proc p) σ.mem) ∧
    ∀ σ σ' p e, Run k (fun _ _ _ => True) (start k σ₀) σ → Step k p e σ σ' → ¬ CallsMasked k p e σ →
      ∃ σ'', Step k p .code σ' σ'' ∧ ¬ Undisturbed k p (σ''.proc p) σ''.mem := by
  refine ⟨fun σ h p hn => ?_, fun σ σ' p e _ hstep hC => ?_⟩
  · exact (inv_run hb h p).undisturbed hn
  · exact disturbed_of_not_callsMasked hstep hC

end Runs

/-! ### Two tasks -/

/-- Two tasks: the first one is interrupted, and the switch runs to its end. -/
theorem undisturbed_twoTasks : ∃ σ, Run TwoTasks.system (CallsMasked TwoTasks.system)
    (start TwoTasks.system TwoTasks.booted) σ ∧ (σ.proc 0).running = 1 ∧
    Undisturbed TwoTasks.system 0 (σ.proc 0) σ.mem := by
  set k := TwoTasks.system
  set σ₀ := start k TwoTasks.booted
  have hn : 2 ≤ (k.number 0).toNat := by decide
  set m := interrupted k 0 (σ₀.proc 0).cpu σ₀.mem with hm
  have hirq : Move k 0 .interrupt (σ₀.proc 0) σ₀.mem { σ₀.proc 0 with cpu := m.cpu, pos := .test, left := [.out] } m.mem :=
    .interrupt 0 0 (by decide) ⟨by decide, by decide⟩
  have hmask : Masked m.cpu.sr := by
    rw [hm, interrupted_spec.sr]
    exact masked_or_exl _
  obtain ⟨x', mem', c, hrun, -, hrunning, -⟩ := run_switch (C := CallsMasked k) σ₀ (fun _ h => by cases h)
    (x := { σ₀.proc 0 with cpu := m.cpu, pos := .test, left := [.out] }) rfl hn hmask
  have hstart : σ₀ = σ₀.put 0 (σ₀.proc 0, σ₀.mem) := by simp [State.put]
  have hall : Run k (CallsMasked k) σ₀ (σ₀.put 0 (x', mem')) := by
    nth_rewrite 1 [hstart]
    refine .head ⟨0, .interrupt, fun h => ?_, hirq.step σ₀⟩ hrun
    cases h
  refine ⟨_, hall, ?_, (undisturbed_of_callsMasked TwoTasks.boot_booted).1 _ hall 0 hn⟩
  rw [State.put_proc, hrunning, nextTaskIndex_toNat]
  rfl

/-- The registers of a task that makes the system call. -/
def yields : Proc := { (start TwoTasks.system TwoTasks.booted).proc 0 with cpu := (TwoTasks.booted.cpu 0).set 2 0x0D }

/-- **A task that yields is interrupted in the middle of the switch**, when it
has interrupts enabled. The switch of this interrupt saves its registers in the
context of the other task. -/
theorem tasks_mixed : TwoTasks.system.Boot TwoTasks.booted ∧ ∃ σ σ',
    Run TwoTasks.system (fun _ _ _ => True) (start TwoTasks.system TwoTasks.booted) σ ∧ (σ.proc 0).pos.InWindow ∧ (σ.proc 0).cpu.Interruptible ∧ Run TwoTasks.system (fun _ _ _ => True) σ σ' ∧
    (σ'.proc 0).running = 0 ∧ Holds TwoTasks.system σ'.mem 0 1 ((σ'.proc 0).saved 0) ∧
    ¬ Holds TwoTasks.system σ'.mem 0 1 ((σ'.proc 0).saved 1) := by
  set k := TwoTasks.system
  set σ₀ := start k TwoTasks.booted
  have hn : 2 ≤ (k.number 0).toNat := by decide
  -- the system call, with interrupts enabled
  have hset : Move k 0 .code (σ₀.proc 0) σ₀.mem yields σ₀.mem := by
    refine .run ⟨_, σ₀.mem⟩ ⟨.inl rfl, fun _ => ?_, fun _ _ => rfl⟩
    unfold System.Fits
    decide
  set m := called k 0x20 yields.cpu σ₀.mem with hm
  have hcall : Move k 0 .ctxSwitchCall yields σ₀.mem { yields with cpu := m.cpu, pos := .test } m.mem := by
    refine .ctxSwitchCall 0x20 (by decide) rfl (by decide) ?_
    unfold System.Fits
    decide
  have hsr : m.cpu.sr = 0xFF01 := by
    rw [hm, called_sr]
    decide
  have hint : m.cpu.Interruptible := by
    unfold Cpu.Interruptible
    rw [hsr]
    decide
  -- the next task is published, and then there is an interrupt
  set x : Proc := { yields with cpu := m.cpu, current := 1, pos := .call 0 1 }
  have hadv : Advances k 0 ({ yields with cpu := m.cpu, pos := .test }, m.mem) (x, m.mem) :=
    (advances_ctxSwitch m.mem rfl hn).2
  set m' := interrupted k 0 m.cpu m.mem with hm'
  have hirq : Move k 0 .interrupt x m.mem { x with cpu := m'.cpu, pos := .test, left := [.call 0 1] } m'.mem :=
    .interrupt 0 0 (by decide) hint
  have hsr' : m'.cpu.sr = 0xFF03 := by
    rw [hm', interrupted_spec.sr, hsr]
    decide
  have hmask : Masked m'.cpu.sr := by
    rw [hsr']
    unfold Masked
    decide
  -- the switch of the interrupt takes the published task for the one that runs
  obtain ⟨x', mem', c, hrun, -, hrunning, hsaved, hcsr, hholds⟩ :=
    run_switch (C := fun _ _ _ => True) σ₀ (fun _ => trivial)
      (x := { x with cpu := m'.cpu, pos := .test, left := [.call 0 1] }) rfl hn hmask
  have hstart : σ₀ = σ₀.put 0 (σ₀.proc 0, σ₀.mem) := by simp [State.put]
  refine ⟨TwoTasks.boot_booted, σ₀.put 0 (x, m.mem), σ₀.put 0 (x', mem'), ?_, ?_, ?_, ?_, ?_, ?_, ?_⟩
  · nth_rewrite 1 [hstart]
    refine .trans (.head ⟨0, .code, trivial, hset.step σ₀⟩ (.single ?_)) (hadv.run σ₀ fun _ => trivial)
    exact ⟨0, .ctxSwitchCall, trivial, hcall.step σ₀⟩
  · rw [State.put_proc]
    trivial
  · rw [State.put_proc]
    exact hint
  · exact .head ⟨0, .interrupt, trivial, hirq.step σ₀⟩ hrun
  · rw [State.put_proc, hrunning, nextTaskIndex_toNat]
    show ((1 : BitVec 8).toNat + 1) % (2 : BitVec 8).toNat = 0
    decide
  · rw [State.put_proc, hsaved]
    exact hholds
  · rw [State.put_proc, hsaved]
    intro h
    have h1 : c.sr = 0xFF13 := hholds.sr.symm.trans h.sr
    rw [hcsr, hsr'] at h1
    exact absurd h1 (by decide)

end SwitchWindow
end Giet
end Smc
