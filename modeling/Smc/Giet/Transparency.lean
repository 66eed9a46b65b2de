/-
# Context switching is transparent

`Inv` holds in every state of every run: a timer interrupt keeps it by
`TimerHandler`, and what a task does in user code or in a system call changes
nothing of what is kept of the others. So a task that was interrupted finds its
registers again whatever ran in between, and a system call returns to its own
caller.

Key definitions: `Boot`, `Switched`.
Key theorems: `inv_step`, `inv_run`, `switching_transparent`.
-/
import Smc.Giet.TimerHandler

namespace Smc
namespace Giet

open Mips
open Relation (ReflTransGen)

namespace System

variable {P T : ℕ} {k : System P T} {σ σ' : State P} {p : Fin P}

/-! ### Timer interrupts -/

theorem timer_served (hI : k.Inv σ) (p : Fin P) {cr : Word} (hcr : cr &&& 0x3c = 0) :
    ∃ r, k.timer p cr σ = some (σ.switchTo p r) ∧ k.Served σ p r := by
  have hpc : (k.enter cr ⟨σ.cpu p, σ.mem⟩).cpu.pc = k.labels.intHandler := by
    have h0 : k.labels.causeVector + (0 : Word) = k.labels.causeVector := by simp
    rw [enter_pc, hcr, h0]
    exact hI.table _ _ k.causeInt
  obtain ⟨r, hr, hs⟩ := demux_served hI (intCall_spec (enter_spec cr (σ.cpu p) σ.mem))
  refine ⟨r, ?_, hs⟩
  simp only [timer]
  rw [if_pos hpc, hr]
  rfl

theorem inv_switchTo (hI : k.Inv σ) {r : BitVec 8 × Machine} (h : k.Served σ p r) : k.Inv (σ.switchTo p r) := by
  have hother : ∀ q j, j < T → q ≠ p → k.Untouched q j σ.mem r.2.mem := fun q j hj hq =>
    h.untouched q j hj (fun hc => hq hc.1) (fun hc => hq hc.1)
  refine ⟨fun q => ?_, fun a v hav => ?_, fun q => ?_, fun q j hj hne => ?_⟩
  · by_cases hq : q = p
    · subst hq
      simp only [State.switchTo, Function.update_self, h.next]
      exact Nat.mod_lt _ (k.number_pos q)
    · simp only [State.switchTo, Function.update_of_ne hq]
      exact hI.current_lt q
  · exact (h.table a (by rw [hav]; exact Option.some_ne_none v)).trans (hI.table a v hav)
  · by_cases hq : q = p
    · subst hq
      simp only [State.switchTo, Function.update_self]
      exact h.running
    · simp only [State.switchTo, Function.update_of_ne hq]
      exact (hI.running q).of_mem fun a ha _ => (hother q _ (hI.current_lt_T q) hq).stack a ha
  · have hjT : j < T := lt_of_lt_of_le hj (k.number_le q)
    by_cases hq : q = p
    · subst hq
      simp only [State.switchTo, Function.update_self] at hne ⊢
      by_cases hcur : j = (σ.current q).toNat
      · subst hcur
        rw [if_pos ⟨trivial, rfl⟩]
        exact h.waiting hne.symm
      · rw [if_neg fun hc => hcur hc.2]
        exact (hI.waiting q j hj hcur).of_untouched
          (h.untouched q j hjT (fun hc => hcur hc.2) (fun hc => hne hc.2))
    · simp only [State.switchTo, Function.update_of_ne hq] at hne ⊢
      rw [if_neg fun hc => hq hc.1]
      exact (hI.waiting q j hj hne).of_untouched (hother q j hjT hq)

/-! ### The task that runs -/

/-- What the running task does leaves what is kept of the others. -/
theorem Inv.of_advance (hI : k.Inv σ) {m : Machine} {call : Option Cpu}
    (htable : ∀ a, k.table a ≠ none → m.mem a = σ.mem a)
    (hother : ∀ q j, j < T → ¬ (q = p ∧ j = (σ.current p).toNat) → k.Untouched q j σ.mem m.mem)
    (hrun : k.Running m.mem p (σ.current p).toNat m.cpu call) : k.Inv (σ.advance p m call) := by
  refine ⟨hI.current_lt, fun a v hav => ?_, fun q => ?_, fun q j hj hne => ?_⟩
  · exact (htable a (by rw [hav]; exact Option.some_ne_none v)).trans (hI.table a v hav)
  · by_cases hq : q = p
    · subst hq
      simp only [State.advance, Function.update_self, and_self, if_true]
      exact hrun
    · have hn : ¬ (q = p ∧ (σ.current q).toNat = (σ.current p).toNat) := fun hc => hq hc.1
      simp only [State.advance, Function.update_of_ne hq, if_neg hn]
      exact (hI.running q).of_mem fun a ha _ => (hother q _ (hI.current_lt_T q) hn).stack a ha
  · have hn : ¬ (q = p ∧ j = (σ.current p).toNat) := by
      rintro ⟨rfl, hc⟩
      exact hne hc
    simp only [State.advance, if_neg hn]
    exact (hI.waiting q j hj hne).of_untouched (hother q j (lt_of_lt_of_le hj (k.number_le q)) hn)

theorem inv_task (hI : k.Inv σ) {m : Machine} (h : k.Allowed σ p m) :
    k.Inv (σ.advance p m (σ.calling p (σ.current p).toNat)) := by
  have hr := hI.running p
  refine hI.of_advance h.table (fun q j hj hne => ⟨fun a ha => h.others q j a hj ha hne, fun w hw => ?_⟩)
    ⟨h.fits, h.exl, fun c hc => ?_, h.callReturn⟩
  · exact h.contexts _ (k.context_inContexts q hj (by omega))
  · have hlo := hr.fits.1
    exact (hr.kept c hc).of_mem (by omega) (h.callSp c hc) (h.callMem c hc)

theorem sysEnter_sr (w : Word) : (w &&& 0xFFFFFFED) &&& Cpu.exl = 0 := by
  rw [BitVec.and_assoc]
  have h : (0xFFFFFFED : Word) &&& Cpu.exl = 0 := by decide
  rw [h]
  exact BitVec.and_zero

/-- What `_sys_handler` makes of a call by `c`. -/
structure Entering (c : Cpu) (mem : Word → Word) (m : Machine) : Prop where
  sp : m.cpu.get 29 = c.get 29 - 24
  exl : m.cpu.sr &&& Cpu.exl = 0
  savedSr : m.mem (slot (c.get 29 - 24) 4) = c.sr ||| Cpu.exl
  savedEpc : m.mem (slot (c.get 29 - 24) 5) = c.pc + 4
  mem : ∀ a, a ≠ slot (c.get 29 - 24) 4 → a ≠ slot (c.get 29 - 24) 5 → m.mem a = mem a

theorem entering_sysEnter {c : Cpu} {mem : Word → Word} {m : Machine} (h : Entered c mem m) :
    Entering c mem (exec (sysEnter k.labels) m) := by
  have hm := sysEnter_spec k.labels m
  generalize exec (sysEnter k.labels) m = m' at hm
  obtain ⟨hsp, hsr, hsavedSr, hsavedEpc, hmem⟩ := hm
  rw [h.get 29 (by decide) (by decide)] at hsp hsavedSr hsavedEpc hmem
  refine ⟨hsp, ?_, ?_, ?_, fun a h4 h5 => ?_⟩
  · rw [hsr]
    exact sysEnter_sr _
  · rw [hsavedSr, h.sr]
  · rw [hsavedEpc, h.epc]
  · rw [hmem a h4 h5, h.mem]

theorem syscall_entering {cr : Word} (h : k.syscall p cr σ = some σ') : ∃ m, Entering (σ.cpu p) σ.mem m ∧
    σ' = σ.advance p { m with cpu := m.cpu.jump k.labels.sysCall } (some (σ.cpu p)) := by
  have he := entering_sysEnter (k := k) (enter_spec (k := k) cr (σ.cpu p) σ.mem)
  simp only [syscall] at h
  generalize exec (sysEnter k.labels) (k.enter cr ⟨σ.cpu p, σ.mem⟩) = m at he h
  split_ifs at h
  exact ⟨m, he, (Option.some.inj h).symm⟩

/-- The frame of `_sys_handler` is in the caller's stack. -/
theorem Entering.kept {m : Machine} {i : ℕ} {c : Cpu} {mem : Word → Word} (h : Entering c mem m)
    (hf : k.Fits p i (c.get 29)) (hexl : c.sr &&& Cpu.exl = 0) (h24 : 24 ≤ (c.get 29).toNat) :
    k.CallKept m.mem p i c (m.cpu.get 29) := by
  refine ⟨?_, hf.2, hexl, h.savedSr, h.savedEpc⟩
  have hsub : (c.get 29 - 24).toNat = (c.get 29).toNat - 24 := sub_toNat (n := 24) h24
  rw [h.sp, hsub]
  omega

theorem Entering.writes {m : Machine} {i : ℕ} {c : Cpu} {mem : Word → Word} (h : Entering c mem m)
    (hk : k.CallKept m.mem p i c (m.cpu.get 29)) (hf : k.Fits p i (c.get 29)) :
    k.Writes p i (c.get 29) mem m.mem := by
  have hin : ∀ j, 4 ≤ j → j < 6 →
      k.InStack p i (slot (c.get 29 - 24) j) ∧ (slot (c.get 29 - 24) j).toNat < (c.get 29).toNat := by
    intro j h4 h6
    have hj := hk.slots h6
    have hlo := hf.1
    have hhi := hf.2
    rw [InStack, hj]
    omega
  intro a ha _
  apply h.mem a
  · rintro rfl
    exact ha (hin 4 (by omega) (by omega))
  · rintro rfl
    exact ha (hin 5 (by omega) (by omega))

theorem inv_syscall (hI : k.Inv σ) {cr : Word}
    (hs : k.Fits p (σ.current p).toNat ((σ.cpu p).get 29 - 24) ∧ 24 ≤ ((σ.cpu p).get 29).toNat)
    (h : k.syscall p cr σ = some σ') : k.Inv σ' := by
  have hr := hI.running p
  have hT := hI.current_lt_T p
  obtain ⟨m, he, rfl⟩ := syscall_entering h
  have hk := he.kept hr.fits hr.exl hs.2
  have hw := he.writes hk hr.fits
  refine hI.of_advance (fun a ha => hw.table hT ha) (fun q j hj hne => hw.untouched hT hj hne) ⟨?_, he.exl, ?_, ?_⟩
  · rw [Cpu.get_jump, he.sp]
    exact hs.1
  · rintro c ⟨⟩
    exact hk
  · rintro c ⟨⟩ -
    exact he.sp

/-- The registers with which a system call of `c` returns. -/
structure Returns (c c' : Cpu) : Prop where
  pc : c'.pc = c.pc + 4
  sr : c'.sr = c.sr
  sp : c'.get 29 = c.get 29

theorem sysret_returns (hI : k.Inv σ) {c : Cpu} (hc : σ.calling p (σ.current p).toNat = some c)
    (hpc : (σ.cpu p).pc = k.labels.sysReturn) :
    ∃ m, sysret p σ = σ.advance p m none ∧ Returns c m.cpu ∧ m.mem = σ.mem := by
  have hr := hI.running p
  have hk := hr.kept c hc
  have hl := sysLeave_spec ⟨σ.cpu p, σ.mem⟩
  simp only [sysret]
  generalize exec sysLeave ⟨σ.cpu p, σ.mem⟩ = m at hl
  obtain ⟨hsp, hsr, hepc, hmem⟩ := hl
  simp only [hr.atReturn c hc hpc] at hsp hsr hepc hmem
  refine ⟨_, rfl, ⟨?_, ?_, ?_⟩, hmem⟩
  · show m.cpu.epc = c.pc + 4
    rw [hepc, hk.epc]
  · show m.cpu.sr &&& ~~~Cpu.exl = c.sr
    rw [hsr, hk.sr, Cpu.unmask hk.exl]
  · show m.cpu.get 29 = c.get 29
    rw [hsp, BitVec.sub_add_cancel]

theorem inv_sysret (hI : k.Inv σ) {c : Cpu} (hc : σ.calling p (σ.current p).toNat = some c)
    (hpc : (σ.cpu p).pc = k.labels.sysReturn) : k.Inv (sysret p σ) := by
  obtain ⟨m, hm, ⟨-, hsr, hsp⟩, hmem⟩ := sysret_returns hI hc hpc
  have hr := hI.running p
  have hk := hr.kept c hc
  rw [hm]
  refine hI.of_advance (fun _ _ => by rw [hmem]) (fun q j _ _ => ?_) ⟨?_, ?_, ?_, ?_⟩
  · rw [hmem]
    exact ⟨fun _ _ => rfl, fun _ _ => rfl⟩
  · rw [hsp]
    have hlo := hr.fits.1
    have hb := hk.below
    exact ⟨by omega, hk.inStack⟩
  · rw [hsr]
    exact hk.exl
  · rintro c' ⟨⟩
  · rintro c' ⟨⟩

/-! ### Runs -/

theorem inv_step (hI : k.Inv σ) (h : k.Step σ σ') : k.Inv σ' := by
  cases h with
  | task p m h => exact inv_task hI h
  | timer p cr hcr hi h =>
    obtain ⟨r, hr, hs⟩ := timer_served hI p hcr
    rw [hr] at h
    cases h
    exact inv_switchTo hI hs
  | syscall p cr hcr hc hx hs h => exact inv_syscall hI hs h
  | sysret p c hc hpc => exact inv_sysret hI hc hpc

/-- The state when the boot code gives the processors to their first tasks. -/
structure Boot (k : System P T) (σ : State P) : Prop where
  current : ∀ p, σ.current p = 0
  ticks : ∀ p, σ.ticks p = 0
  suspended : ∀ p i, σ.suspended p i = none
  calling : ∀ p i, σ.calling p i = none
  table : ∀ a v, k.table a = some v → σ.mem a = v
  fits : ∀ p, k.Fits p 0 ((σ.cpu p).get 29)
  exl : ∀ p, (σ.cpu p).sr &&& Cpu.exl = 0
  initial : ∀ p i, 0 < i → i < (k.number p).toNat → k.Initial σ.mem p i

theorem Boot.inv (h : k.Boot σ) : k.Inv σ := by
  refine ⟨fun p => ?_, h.table, fun p => ⟨?_, h.exl p, ?_, ?_⟩, fun p i hi hne => ?_⟩
  · rw [h.current p]
    exact k.number_pos p
  · rw [h.current p]
    exact h.fits p
  · rw [h.calling]
    rintro c ⟨⟩
  · rw [h.calling]
    rintro c ⟨⟩
  · rw [h.current p] at hne
    rw [h.suspended, h.calling]
    exact ⟨rfl, h.initial p i (Nat.pos_of_ne_zero hne) hi⟩

theorem inv_run {σ₀ : State P} (hb : k.Boot σ₀) (h : ReflTransGen k.Step σ₀ σ) : k.Inv σ := by
  induction h with
  | refl => exact hb.inv
  | tail _ hs ih => exact inv_step ih hs

/-- The tasks of `p` run in turn. -/
def Cyclic (k : System P T) (σ : State P) : Prop := ∀ p, (σ.current p).toNat = σ.ticks p % (k.number p).toNat

theorem cyclic_step (hI : k.Inv σ) (hc : k.Cyclic σ) (h : k.Step σ σ') : k.Cyclic σ' := by
  cases h with
  | task p m h => exact hc
  | timer p cr hcr hi h =>
    obtain ⟨r, hr, hs⟩ := timer_served hI p hcr
    rw [hr] at h
    cases h
    intro q
    by_cases hq : q = p
    · subst hq
      simp only [State.switchTo, Function.update_self]
      calc r.1.toNat = ((σ.current q).toNat + 1) % (k.number q).toNat := hs.next
        _ = (σ.ticks q % (k.number q).toNat + 1) % (k.number q).toNat := by rw [hc q]
        _ = (σ.ticks q + 1) % (k.number q).toNat := Nat.mod_add_mod _ _ _
    · simp only [State.switchTo, Function.update_of_ne hq]
      exact hc q
  | syscall p cr hcr hcall hx hs h =>
    obtain ⟨m, -, rfl⟩ := syscall_entering h
    exact hc
  | sysret p c hcall hpc => exact hc

theorem cyclic_run {σ₀ : State P} (hb : k.Boot σ₀) (h : ReflTransGen k.Step σ₀ σ) : k.Cyclic σ := by
  induction h with
  | refl =>
    intro p
    rw [hb.current, hb.ticks, Nat.zero_mod]
    rfl
  | tail hr hs ih => exact cyclic_step (inv_run hb hr) ih hs

/-! ### Transparency -/

/-- From `σ` on, other tasks than `i` run on `p`. -/
def Away (k : System P T) (p : Fin P) (i : BitVec 8) : State P → State P → Prop :=
  ReflTransGen fun σ σ' => k.Step σ σ' ∧ σ'.current p ≠ i

/-- What is noted of a task stays until it runs again. -/
theorem suspended_step {i : ℕ} (hI : k.Inv σ) (h : k.Step σ σ') (hi : (σ.current p).toNat ≠ i) :
    σ'.suspended p i = σ.suspended p i := by
  cases h with
  | task q m h => rfl
  | timer q cr hcr hint h =>
    obtain ⟨r, hr, -⟩ := timer_served hI q hcr
    rw [hr] at h
    cases h
    refine if_neg ?_
    rintro ⟨rfl, hc⟩
    exact hi hc.symm
  | syscall q cr hcr hcall hx hs h =>
    obtain ⟨m, -, rfl⟩ := syscall_entering h
    rfl
  | sysret q c hcall hpc => rfl

theorem away_spec {i : BitVec 8} (hI : k.Inv σ) (hi : σ.current p ≠ i) (h : k.Away p i σ σ') :
    k.Inv σ' ∧ σ'.current p ≠ i ∧ σ'.suspended p i.toNat = σ.suspended p i.toNat := by
  induction h with
  | refl => exact ⟨hI, hi, rfl⟩
  | tail _ hs ih =>
    obtain ⟨hI', hi', hsus⟩ := ih
    have hne : ∀ {w : BitVec 8}, w ≠ i → w.toNat ≠ i.toNat := fun hw h => hw (BitVec.eq_of_toNat_eq h)
    exact ⟨inv_step hI' hs.1, hs.2, (suspended_step hI' hs.1 (hne hi')).trans hsus⟩

/-- What a timer interrupt on `p` does, as far as tasks and contexts go. -/
structure Switched (k : System P T) (p : Fin P) (σ σ' : State P) : Prop where
  next : (σ'.current p).toNat = ((σ.current p).toNat + 1) % (k.number p).toNat
  resumed : ∀ c, σ'.suspended p (σ'.current p).toNat = some c → SameRegs c (σ'.cpu p)
  cpus : ∀ q, q ≠ p → σ'.cpu q = σ.cpu q
  context : ∀ q j w, j < T → w < 64 → q ≠ p ∨ 34 ≤ w →
    σ'.mem (slot (k.context q j) w) = σ.mem (slot (k.context q j) w)

theorem Served.switched {r : BitVec 8 × Machine} (h : k.Served σ p r) : k.Switched p σ (σ.switchTo p r) := by
  refine ⟨?_, fun c hc => ?_, fun q hq => Function.update_of_ne hq _ _, h.context⟩
  · simp only [State.switchTo, Function.update_self]
    exact h.next
  · simp only [State.switchTo, Function.update_self] at hc ⊢
    by_cases hr : r.1.toNat = (σ.current p).toNat
    · rw [if_pos ⟨trivial, hr⟩] at hc
      cases hc
      exact h.same hr
    · rw [if_neg fun he => hr he.2] at hc
      exact h.resumed hr c hc

/-- Switching is transparent on `p` in `σ`. -/
structure Transparent (k : System P T) (p : Fin P) (σ : State P) : Prop where
  /-- `_current_task_array` is in range -/
  current_lt : (σ.current p).toNat < (k.number p).toNat
  /-- the tasks run in turn -/
  cyclic : (σ.current p).toNat = σ.ticks p % (k.number p).toNat
  /-- the timer's interrupt is served to its end -/
  switches : ∀ cr, cr &&& 0x3c = 0 → ∃ σ', k.timer p cr σ = some σ' ∧ k.Switched p σ σ'
  /-- when the task that runs now is switched to again, it goes on as it is -/
  resumes : ∀ cr cr' σ₁ σ₂ σ₃, cr &&& 0x3c = 0 → cr' &&& 0x3c = 0 → k.timer p cr σ = some σ₁ →
    σ₁.current p ≠ σ.current p → k.Away p (σ.current p) σ₁ σ₂ → k.timer p cr' σ₂ = some σ₃ →
    σ₃.current p = σ.current p → SameRegs (σ.cpu p) (σ₃.cpu p)
  /-- a system call in progress returns to its caller -/
  returns : ∀ c, σ.calling p (σ.current p).toNat = some c → (σ.cpu p).pc = k.labels.sysReturn →
    Returns c ((sysret p σ).cpu p)

/-- **Context switching is transparent**, in every state that a run of tasks,
system calls and timer interrupts reaches. -/
theorem switching_transparent {σ₀ : State P} (hb : k.Boot σ₀) (h : ReflTransGen k.Step σ₀ σ) (p : Fin P) :
    k.Transparent p σ := by
  have hI := inv_run hb h
  refine ⟨hI.current_lt p, cyclic_run hb h p, fun cr hcr => ?_, ?_, fun c hc hpc => ?_⟩
  · obtain ⟨r, hr, hs⟩ := timer_served hI p hcr
    exact ⟨_, hr, hs.switched⟩
  · intro cr cr' σ₁ σ₂ σ₃ hcr hcr' h₁ hne haway h₃ hback
    obtain ⟨r, hr, hs⟩ := timer_served hI p hcr
    rw [hr] at h₁
    cases h₁
    obtain ⟨hI₂, hne₂, hsus⟩ := away_spec (inv_switchTo hI hs) hne haway
    obtain ⟨r', hr', hs'⟩ := timer_served hI₂ p hcr'
    rw [hr'] at h₃
    cases h₃
    -- what was noted at the interrupt is what the next one gives back
    have hnote : (σ₂.switchTo p r').suspended p (σ.current p).toNat = some (σ.cpu p) := by
      have hother : ¬ (p = p ∧ (σ.current p).toNat = (σ₂.current p).toNat) := fun he =>
        hne₂ (BitVec.eq_of_toNat_eq he.2).symm
      calc (σ₂.switchTo p r').suspended p (σ.current p).toNat
          = σ₂.suspended p (σ.current p).toNat := if_neg hother
        _ = (σ.switchTo p r).suspended p (σ.current p).toNat := hsus
        _ = some (σ.cpu p) := if_pos ⟨rfl, rfl⟩
    rw [← hback] at hnote
    exact hs'.switched.resumed _ hnote
  · obtain ⟨m, hm, hret, -⟩ := sysret_returns hI hc hpc
    rw [hm]
    simp only [State.advance, Function.update_self]
    exact hret

end System

/-! ### Two tasks -/

namespace TwoTasks

/-- One function in the place of the three: a frame of 24 bytes with the return
address on top. -/
def isr : IsrCode where
  frame := 24
  ret := 0x80000700
  down x m :=
    { cpu := (((m.cpu.set 4 x.1).set 5 x.2).set 31 0x80000700).set 29 (m.cpu.get 29 - 24)
      mem := Function.update m.mem (m.cpu.get 29 - 4) (m.cpu.get 31) }
  up m := { m with cpu := (m.cpu.set 29 (m.cpu.get 29 + 24)).jump (m.mem (m.cpu.get 29 + 20)) }
  pass m := { m with cpu := m.cpu.jump (m.cpu.get 31) }
  down_called x m h := by
    have h4 : 4 ≤ (m.cpu.get 29).toNat := by omega
    have hsub : (m.cpu.get 29 - 4).toNat = (m.cpu.get 29).toNat - 4 := sub_toNat (n := 4) h4
    refine ⟨?_, ?_, ?_, ?_, ?_, fun a ha => ?_⟩
    · simp [Cpu.get_set_self, Cpu.get_set_of_ne]
    · simp [Cpu.get_set_self, Cpu.get_set_of_ne]
    · simp [Cpu.get_set_self, Cpu.get_set_of_ne]
    · exact Cpu.get_set_self _ (by decide) _
    · simp
    · refine Function.update_of_ne ?_ _ _
      rintro rfl
      refine ha ⟨?_, ?_⟩ <;> omega
  up_returned x m m' h hr := by
    have h4 : 4 ≤ (m.cpu.get 29).toNat := by omega
    have hsub : (m.cpu.get 29 - 4).toNat = (m.cpu.get 29).toNat - 4 := sub_toNat (n := 4) h4
    have hsp : m'.cpu.get 29 = m.cpu.get 29 - 24 := hr.sp.trans (Cpu.get_set_self _ (by decide) _)
    have haddr : m.cpu.get 29 - 24 + 20 = m.cpu.get 29 - 4 := by bv_omega
    refine ⟨fun r hmem => ?_, ?_, ?_, ?_, fun _ _ => rfl⟩
    · have hne : r ≠ 4 ∧ r ≠ 5 ∧ r ≠ 31 ∧ r ≠ 29 := by
        revert r
        decide
      rw [Cpu.get_jump, Cpu.get_set_of_ne _ hne.2.2.2, hr.saved r hmem, Cpu.get_set_of_ne _ hne.2.2.2,
        Cpu.get_set_of_ne _ hne.2.2.1, Cpu.get_set_of_ne _ hne.2.1, Cpu.get_set_of_ne _ hne.1]
    · rw [Cpu.get_jump, Cpu.get_set_self _ (by decide), hsp, BitVec.sub_add_cancel]
    · rw [Cpu.jump_pc, hsp, haddr, hr.mem _ ⟨by omega, by omega⟩]
      exact Function.update_self _ _ _
    · rw [Cpu.jump_sr, Cpu.set_sr]
  pass_returned m _ := ⟨fun _ _ => rfl, rfl, rfl, rfl, fun _ _ => rfl⟩

def labels : Labels where
  causeVector := 0x80001000
  syscallVector := 0x80001040
  intHandler := 0x80000200
  sysHandler := 0x80000190
  intDemux := 0x80000800
  restore := 0x80000270
  sysCall := 0x800001C8
  sysReturn := 0x800001CC

def table (a : Word) : Option Word :=
  if a = 0x80001000 then some 0x80000200 else if a = 0x80001020 then some 0x80000190 else none

theorem table_eq_none {a : Word} (h : a.toNat < 0x80001000 ∨ 0x80002000 ≤ a.toNat) : table a = none := by
  have h1 : a ≠ 0x80001000 := by
    rintro rfl
    simp at h
  have h2 : a ≠ 0x80001020 := by
    rintro rfl
    simp at h
  rw [table, if_neg h1, if_neg h2]

/-- One processor with two tasks, each with a page of stack. -/
def system : System 1 2 where
  labels := labels
  isr := isr
  number _ := 2
  number_pos _ := by decide
  number_le _ := by decide
  interruptVector _ := .isrSwitch
  timerIndex := 0
  timer_switches := by decide
  contexts := 0x80002000
  contexts_fit := by decide
  table := table
  causeInt := by decide
  causeSys := by decide
  stackLo _ i := 0x400000 + 0x1000 * i
  stackHi _ i := 0x401000 + 0x1000 * i
  stub := 0x80000600
  launch := Cpu.eret
  stub_ne := by decide
  launch_sp _ := rfl
  launch_exl c := by
    have h : ~~~Cpu.exl &&& Cpu.exl = 0 := by decide
    rw [Cpu.eret, BitVec.and_assoc, h]
    exact BitVec.and_zero
  stacks_disjoint p i q j a hi hj h1 h2 h3 h4 := ⟨Subsingleton.elim p q, by omega⟩
  stacks_contexts p i a hi h1 h2 := .inl (by simp; omega)
  stacks_table p i a hi h1 h2 := table_eq_none (.inl (by omega))
  contexts_table a h _ := table_eq_none (.inr h)

/-- The first task runs; the other has its initial context. -/
def booted : State 1 where
  cpu _ :=
    { gpr := fun r => if r = 29 then 0x401000 else 0
      hi := 0, lo := 0, sr := 0xFF11, cr := 0, epc := 0, pc := 0x500000 }
  mem a :=
    if a = 0x80001000 then 0x80000200
    else if a = 0x80001020 then 0x80000190
    else if a = 0x80002100 then 0xFF13
    else if a = 0x80002174 then 0x402000
    else if a = 0x8000217C then 0x80000600
    else if a = 0x80002180 then 0x600000
    else 0
  current _ := 0
  ticks _ := 0
  suspended _ _ := none
  calling _ _ := none

theorem boot_booted : system.Boot booted := by
  refine ⟨fun _ => rfl, fun _ => rfl, fun _ _ => rfl, fun _ _ => rfl, fun a v h => ?_, fun p => ?_, fun p => ?_,
    fun p i h0 h2 => ?_⟩
  · change table a = some v at h
    simp only [table] at h
    split_ifs at h with h1 h2
    · cases h
      simp [booted, h1]
    · cases h
      simp [booted, h2]
  · revert p
    unfold System.Fits
    decide
  · revert p
    decide
  · have hi : i = 1 := by
      change i < 2 at h2
      omega
    subst hi
    obtain rfl : p = 0 := Subsingleton.elim p 0
    refine ⟨by decide, by decide, ?_, ?_⟩ <;> decide

end TwoTasks

/-- Two tasks: after two interrupts the first one goes on as it was. -/
theorem switching_transparent_twoTasks : ∃ σ₁ σ₂, TwoTasks.system.timer 0 0 TwoTasks.booted = some σ₁ ∧
    σ₁.current 0 = 1 ∧ TwoTasks.system.timer 0 0 σ₁ = some σ₂ ∧ σ₂.current 0 = 0 ∧
    SameRegs (TwoTasks.booted.cpu 0) (σ₂.cpu 0) := by
  have h₀ := System.switching_transparent TwoTasks.boot_booted .refl 0
  obtain ⟨σ₁, hσ₁, hs₁⟩ := h₀.switches 0 (by decide)
  have hstep : TwoTasks.system.Step TwoTasks.booted σ₁ := .timer 0 0 (by decide) ⟨by decide, by decide⟩ hσ₁
  have h₁ := System.switching_transparent TwoTasks.boot_booted (.single hstep) 0
  obtain ⟨σ₂, hσ₂, hs₂⟩ := h₁.switches 0 (by decide)
  have hc₁ : σ₁.current 0 = 1 := BitVec.eq_of_toNat_eq hs₁.next
  have hc₂ : σ₂.current 0 = 0 := by
    apply BitVec.eq_of_toNat_eq
    rw [hs₂.next, hc₁]
    rfl
  have hne : σ₁.current 0 ≠ TwoTasks.booted.current 0 := by
    rw [hc₁]
    decide
  exact ⟨σ₁, σ₂, hσ₁, hc₁, hσ₂, hc₂,
    h₀.resumes 0 0 σ₁ σ₁ σ₂ (by decide) (by decide) hσ₁ hne .refl hσ₂ hc₂⟩

end Giet
end Smc
