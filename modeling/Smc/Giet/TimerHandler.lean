/-
# One timer interrupt

What a timer interrupt does in a state that satisfies `Inv`: it is served to
its end, the next task goes on with the registers it had when it was
interrupted (`SameRegs`), and the interrupted one waits. Memory is written on
the stacks of the two tasks, below their stack pointers, and in the saved words
of one context (`Writes`).

Key definitions: `SameRegs`, `Writes`, `Served`.
Key theorem: `demux_served`.
-/
import Smc.Giet.TasksKept

namespace Smc
namespace Giet

open Mips

/-! ### Registers -/

/-- A register of a task is saved by `_int_handler`, or given back by the
functions it calls. -/
theorem reg_cases : ∀ r : Reg, r ≠ 26 → r ≠ 27 →
    r = 0 ∨ r = 29 ∨ r ∈ intRegs.map Prod.fst ∨ r ∈ calleeSaved := by decide

theorem calleeSaved_regs : ∀ r ∈ calleeSaved,
    r ≠ 26 ∧ r ≠ 27 ∧ r ≠ 29 ∧ r ≠ 31 ∧ r ∉ intRegs.map Prod.fst ∧ (r, r.val) ∈ ctxRegs := by decide

/-- The same registers, as far as a task can tell: `$26` and `$27` are the
system's. -/
structure SameRegs (c c' : Cpu) : Prop where
  get : ∀ r, r ≠ 26 → r ≠ 27 → c'.get r = c.get r
  hi : c'.hi = c.hi
  lo : c'.lo = c.lo
  pc : c'.pc = c.pc
  sr : c'.sr = c.sr

namespace System

variable {P T : ℕ} {k : System P T}

/-! ### Entry and exit -/

/-- An exception of a task with registers `c` has reached its handler. -/
structure Entered (c : Cpu) (mem : Word → Word) (m : Machine) : Prop where
  get : ∀ r, r ≠ 26 → r ≠ 27 → m.cpu.get r = c.get r
  hi : m.cpu.hi = c.hi
  lo : m.cpu.lo = c.lo
  sr : m.cpu.sr = c.sr ||| Cpu.exl
  epc : m.cpu.epc = c.pc
  mem : m.mem = mem

theorem enter_spec (cr : Word) (c : Cpu) (mem : Word → Word) : Entered c mem (k.enter cr ⟨c, mem⟩) := by
  have hs := giet_special k.labels ⟨c.trap cr, mem⟩
  have hm := giet_mem k.labels ⟨c.trap cr, mem⟩
  have hg := fun r => giet_get k.labels ⟨c.trap cr, mem⟩ (r := r)
  unfold enter
  dsimp only
  generalize exec (giet k.labels) ⟨c.trap cr, mem⟩ = m at hs hm hg
  exact ⟨hg, hs.hi, hs.lo, hs.sr, hs.epc, hm⟩

theorem enter_pc (cr : Word) (c : Cpu) (mem : Word → Word) :
    (k.enter cr ⟨c, mem⟩).cpu.pc = mem (k.labels.causeVector + (cr &&& 0x3c)) := by
  have ht := giet_target k.labels ⟨c.trap cr, mem⟩
  unfold enter
  dsimp only
  generalize exec (giet k.labels) ⟨c.trap cr, mem⟩ = m at ht
  exact ht

/-- `_int_demux` is called in `m` for an interrupt of a task with registers `c`. -/
structure Interrupted (k : System P T) (c : Cpu) (mem : Word → Word) (m : Machine) : Prop where
  sp : m.cpu.get 29 = c.get 29 - 100
  ra : m.cpu.get 31 = k.labels.restore
  saved : ∀ r ∈ calleeSaved, m.cpu.get r = c.get r
  sr : m.cpu.sr = c.sr ||| Cpu.exl
  framed : Framed m.mem (c.get 29 - 100) (c.trap 0)
  mem : ∀ a, (∀ i, 4 ≤ i → i < 25 → a ≠ slot (c.get 29 - 100) i) → m.mem a = mem a

theorem intCall_spec {c : Cpu} {mem : Word → Word} {m : Machine} (h : Entered c mem m) :
    k.Interrupted c mem (k.intCall m) := by
  have hs := intSave_spec k.labels m
  unfold intCall
  generalize exec (intSave k.labels) m = m' at hs
  obtain ⟨hsp, hget, hspecial, hframed, hmem⟩ := hs
  rw [h.get 29 (by decide) (by decide)] at hsp hframed hmem
  refine ⟨?_, ?_, fun r hr => ?_, ?_, ⟨fun x hx => ?_, ?_, ?_, ?_⟩, fun a ha => ?_⟩
  · rw [Cpu.get_jump, Cpu.get_set_of_ne _ (by decide), hsp]
  · rw [Cpu.get_jump, Cpu.get_set_self _ (by decide)]
  · obtain ⟨h26, h27, h29, h31, -, -⟩ := calleeSaved_regs r hr
    rw [Cpu.get_jump, Cpu.get_set_of_ne _ h31, hget r h26 h27 h29, h.get r h26 h27]
  · rw [Cpu.jump_sr, Cpu.set_sr, hspecial.sr, h.sr]
  · obtain ⟨-, h26, h27, -⟩ := intRegs_regs.2 x.1 (List.mem_map_of_mem hx)
    exact (hframed.regs x hx).trans (h.get x.1 h26 h27)
  · exact hframed.lo.trans h.lo
  · exact hframed.hi.trans h.hi
  · exact hframed.epc.trans h.epc
  · exact (hmem a ha).trans (congrFun h.mem a)

/-- From `restore` on, `_int_handler` gives a task the registers in its frame
and those the C functions kept. -/
theorem intReturn_spec {c : Cpu} {u : Machine} (hexl : c.sr &&& Cpu.exl = 0) (hpc : u.cpu.pc = k.labels.restore)
    (hsp : u.cpu.get 29 = c.get 29 - 100) (hsaved : ∀ r ∈ calleeSaved, u.cpu.get r = c.get r)
    (hsr : u.cpu.sr = c.sr ||| Cpu.exl) (hframed : Framed u.mem (c.get 29 - 100) (c.trap 0)) :
    ∃ v, k.intReturn u = some v ∧ SameRegs c v.cpu ∧ v.mem = u.mem := by
  have hr := intRestore_spec u
  unfold intReturn
  rw [if_pos hpc]
  generalize exec intRestore u = m' at hr
  obtain ⟨hsp', hregs, hget, hlo, hhi, hepc, hsr', hmem⟩ := hr
  rw [hsp] at hsp' hregs hlo hhi hepc
  refine ⟨_, rfl, ⟨fun r h26 h27 => ?_, ?_, ?_, ?_, ?_⟩, hmem⟩
  · show m'.cpu.get r = c.get r
    rcases reg_cases r h26 h27 with rfl | rfl | hr | hr
    · rfl
    · rw [hsp', BitVec.sub_add_cancel]
    · obtain ⟨x, hx, rfl⟩ := List.mem_map.mp hr
      exact (hregs x hx).trans (hframed.regs x hx)
    · obtain ⟨-, -, h29, -, hnot, -⟩ := calleeSaved_regs r hr
      exact (hget r hnot h26 h27 h29).trans (hsaved r hr)
  · exact hhi.trans hframed.hi
  · exact hlo.trans hframed.lo
  · exact hepc.trans hframed.epc
  · show m'.cpu.sr &&& ~~~Cpu.exl = c.sr
    rw [hsr', hsr, Cpu.unmask hexl]

/-! ### What is written -/

/-- Between `mem` and `mem'` only task `i` of `p` was written: its stack below
`sp`, and the saved words of its context. -/
def Writes (k : System P T) (p : Fin P) (i : ℕ) (sp : Word) (mem mem' : Word → Word) : Prop :=
  ∀ a, ¬ (k.InStack p i a ∧ a.toNat < sp.toNat) → (∀ w < 34, a ≠ slot (k.context p i) w) → mem' a = mem a

section Writes

variable {p q : Fin P} {i j : ℕ} {sp : Word} {mem mem' mem'' : Word → Word}

theorem Writes.trans (h : k.Writes p i sp mem mem') (h' : k.Writes p i sp mem' mem'') : k.Writes p i sp mem mem'' :=
  fun a ha hc => (h' a ha hc).trans (h a ha hc)

theorem Writes.above (h : k.Writes p i sp mem mem') (hi : i < T) {a : Word} (ha : k.InStack p i a)
    (hsp : sp.toNat ≤ a.toNat) : mem' a = mem a := by
  apply h a
  · rintro ⟨-, hlt⟩
    omega
  · rintro w hw rfl
    exact ha.not_inContexts hi (k.context_inContexts p hi (by omega))

theorem Writes.table (h : k.Writes p i sp mem mem') (hi : i < T) {a : Word} (ha : k.table a ≠ none) :
    mem' a = mem a := by
  apply h a
  · rintro ⟨hs, -⟩
    exact ha (k.stacks_table p i a hi hs.1 hs.2)
  · rintro w hw rfl
    obtain ⟨h1, h2⟩ := k.context_inContexts p hi (show w < 64 by omega)
    exact ha (k.contexts_table _ h1 h2)

theorem Writes.context (h : k.Writes p i sp mem mem') (hi : i < T) (hj : j < T) {w : ℕ} (hw : w < 64)
    (hne : ¬ (q = p ∧ j = i) ∨ 34 ≤ w) : mem' (slot (k.context q j) w) = mem (slot (k.context q j) w) := by
  apply h
  · rintro ⟨hs, -⟩
    exact hs.not_inContexts hi (k.context_inContexts q hj hw)
  · intro v hv he
    obtain ⟨hqj, rfl⟩ := k.context_slot_inj hj hi hw (by omega) he
    rcases hne with hne | hne
    · exact hne hqj
    · omega

theorem Writes.untouched (h : k.Writes p i sp mem mem') (hi : i < T) (hj : j < T) (hne : ¬ (q = p ∧ j = i)) :
    k.Untouched q j mem mem' := by
  refine ⟨fun a ha => h a ?_ ?_, fun w hw => h.context hi hj (by omega) (.inl hne)⟩
  · rintro ⟨hs, -⟩
    exact hne (k.stacks_disjoint q j p i a.toNat hj hi ha.1 ha.2 hs.1 hs.2)
  · rintro w hw rfl
    exact ha.not_inContexts hj (k.context_inContexts p hi (by omega))

end Writes

section Chain

variable {p : Fin P} {i : ℕ} {c : Cpu} {mem : Word → Word} {m m' u : Machine}

/-- The handler and the C functions write below the stack pointer of the task. -/
theorem Interrupted.writes (h : k.Interrupted c mem m) (hf : k.Fits p i (c.get 29)) :
    k.Writes p i (c.get 29) mem m.mem := by
  intro a ha _
  apply h.mem a
  rintro j - hj rfl
  exact ha (hf.inStack_slot hj)

theorem writes_of_frame (hf : k.Fits p i (c.get 29))
    (h : ∀ a, ¬ InFrame k.isr.frame (c.get 29 - 100) a → m'.mem a = m.mem a) :
    k.Writes p i (c.get 29) m.mem m'.mem := by
  intro a ha _
  apply h a
  intro hin
  exact ha (hf.inStack_inFrame hin)

theorem Fits.frame_le (hf : k.Fits p i (c.get 29)) : k.isr.frame ≤ (c.get 29 - 100).toNat := by
  rw [hf.frame_toNat]
  have := hf.1
  omega

/-- Once `_int_demux` has returned, the task goes on as it was. -/
theorem intReturn_of_returned (hf : k.Fits p i (c.get 29)) (hexl : c.sr &&& Cpu.exl = 0)
    (hsp : m.cpu.get 29 = c.get 29 - 100) (hra : m.cpu.get 31 = k.labels.restore)
    (hsaved : ∀ r ∈ calleeSaved, m.cpu.get r = c.get r) (hsr : m'.cpu.sr = c.sr ||| Cpu.exl)
    (hframed : Framed m'.mem (c.get 29 - 100) (c.trap 0)) (hret : Returned k.isr.frame m m' u) :
    ∃ v, k.intReturn u = some v ∧ SameRegs c v.cpu ∧ k.Writes p i (c.get 29) m'.mem v.mem := by
  obtain ⟨hu, hsp', hpc, hsr', hmem⟩ := hret
  rw [hsp] at hmem
  have hframed' : Framed u.mem (c.get 29 - 100) (c.trap 0) :=
    hframed.of_mem fun j h4 hj => hmem _ (hf.not_inFrame_slot h4 hj)
  obtain ⟨v, hv, hregs, hvm⟩ := intReturn_spec hexl (hpc.trans hra) (hsp'.trans hsp)
    (fun r hr => (hu r hr).trans (hsaved r hr)) (hsr'.trans hsr) hframed'
  refine ⟨v, hv, hregs, ?_⟩
  rw [hvm]
  exact writes_of_frame hf hmem

end Chain

/-! ### A switch -/

section Switch

variable {p : Fin P} {i : ℕ} {c : Cpu} {mem : Word → Word} {m u : Machine} {x : Word × Word}

/-- `_task_switch`, called from the middle of an interrupt, leaves the task
suspended. -/
theorem suspended_of_taskSwitch (hi : i < T) (hf : k.Fits p i (c.get 29)) (h : k.Interrupted c mem m)
    (hx : x.1 = k.context p i) : k.Suspended (taskSwitch (k.isr.down x m)).mem p i c m x ∧
      k.Writes p i (c.get 29) mem (taskSwitch (k.isr.down x m)).mem := by
  have hd := k.isr.down_called x m (by rw [h.sp]; exact hf.frame_le)
  have ht := taskSwitch_spec (k.isr.down x m)
  have hdm := hd.mem
  rw [h.sp] at hdm
  have htm := ht.mem
  rw [hd.arg0, hx] at htm
  -- the stack is not in the contexts
  have hstack : ∀ a, k.InStack p i a → (taskSwitch (k.isr.down x m)).mem a = (k.isr.down x m).mem a := by
    intro a ha
    apply htm
    rintro w hw rfl
    exact ha.not_inContexts hi (k.context_inContexts p hi (by omega))
  refine ⟨⟨h.sp, h.ra, h.saved, ?_, fun a ha => ?_, ?_, fun y hy => ?_⟩, ?_⟩
  · refine h.framed.of_mem fun j h4 hj => ?_
    rw [hstack _ (hf.inStack_slot hj).1, hdm _ (hf.not_inFrame_slot h4 hj)]
  · exact hstack a (hf.inStack_inFrame ha).1
  · rw [← hx, ← hd.arg0, ht.savedSr, hd.sr, h.sr]
  · rw [← hx, ← hd.arg0, ht.savedRegs y hy]
  · exact ((h.writes hf).trans (writes_of_frame hf hdm)).trans fun a _ hc => htm a hc

/-- The registers of `u` are those of a context of `p`. -/
structure Loaded (k : System P T) (p : Fin P) (i : ℕ) (u : Machine) : Prop where
  regs : ∀ y ∈ ctxRegs, u.cpu.get y.1 = u.mem (slot (k.context p i) y.2)
  sr : u.cpu.sr = u.mem (slot (k.context p i) 0)
  pc : u.cpu.pc = u.mem (slot (k.context p i) 31)

theorem loaded_taskSwitch (hx : x.2 = k.context p i) (hd : Called k.isr.frame k.isr.ret x m u) :
    k.Loaded p i (taskSwitch u) := by
  obtain ⟨hregs, hsr, hpc, -⟩ := taskSwitch_spec u
  rw [hd.arg1, hx] at hregs hsr hpc
  exact ⟨hregs, hsr, hpc⟩

/-- A suspended task goes on as it was. -/
theorem resume_suspended (hu : k.Loaded p i u) (hf : k.Fits p i (c.get 29)) (hexl : c.sr &&& Cpu.exl = 0)
    (hs : k.Suspended u.mem p i c m x) :
    ∃ v, k.resume u = some v ∧ SameRegs c v.cpu ∧ k.Writes p i (c.get 29) u.mem v.mem := by
  have hle : k.isr.frame ≤ (m.cpu.get 29).toNat := by
    rw [hs.sp]
    exact hf.frame_le
  have hd := k.isr.down_called x m hle
  have hregs : ∀ y ∈ ctxRegs, u.cpu.get y.1 = (k.isr.down x m).cpu.get y.1 := fun y hy =>
    (hu.regs y hy).trans (hs.ctxRegs y hy)
  have hsr : u.cpu.sr = c.sr ||| Cpu.exl := hu.sr.trans hs.ctxSr
  have hpc : u.cpu.pc = k.isr.ret := by
    rw [hu.pc, hs.ctxRegs (31, 31) (by decide), hd.ra]
  have hres : Resumable k.isr.frame k.isr.ret m (k.isr.down x m) u := by
    refine ⟨fun r hr => ?_, hregs (29, 29) (by decide), hpc, fun a ha => ?_⟩
    · obtain ⟨-, -, -, -, -, hmem⟩ := calleeSaved_regs r hr
      exact hregs _ hmem
    · rw [hs.sp] at ha
      exact hs.frame a ha
  have hmask : ¬ (u.cpu.sr &&& Cpu.exl = 0) := by
    rw [hsr]
    exact Cpu.or_exl_ne _
  unfold resume
  rw [if_neg hmask, if_pos hpc]
  exact intReturn_of_returned hf hexl hs.sp hs.ra hs.saved hsr hs.framed (k.isr.up_returned x m u hle hres)

/-- A task that has not run yet is launched. -/
theorem resume_initial (hu : k.Loaded p i u) (hs : k.Initial u.mem p i) :
    k.resume u = some { u with cpu := k.launch u.cpu } ∧ k.Fits p i ((k.launch u.cpu).get 29) := by
  have hpc : u.cpu.pc = k.stub := hu.pc.trans hs.ra
  constructor
  · unfold resume
    rw [if_neg (by rw [hu.sr]; exact hs.sr), hpc, if_neg k.stub_ne, if_pos rfl]
  · rw [k.launch_sp, hu.regs (29, 29) (by decide)]
    exact hs.sp

end Switch

theorem Running.of_sameRegs {mem : Word → Word} {p : Fin P} {i : ℕ} {c c' : Cpu} {call : Option Cpu}
    (h : k.Running mem p i c call) (hc : SameRegs c c') : k.Running mem p i c' call := by
  have h29 := hc.get 29 (by decide) (by decide)
  refine ⟨?_, ?_, ?_, ?_⟩
  · rw [h29]
    exact h.fits
  · rw [hc.sr]
    exact h.exl
  · rw [h29]
    exact h.kept
  · rw [h29, hc.pc]
    exact h.atReturn

theorem Running.of_writes {mem mem' : Word → Word} {p : Fin P} {i : ℕ} {c : Cpu} {call : Option Cpu}
    (h : k.Running mem p i c call) (hi : i < T) (hw : k.Writes p i (c.get 29) mem mem') : k.Running mem' p i c call :=
  h.of_mem fun _ ha hsp => hw.above hi ha hsp

/-- A task that waits goes on as it was, or is launched. -/
theorem resume_waiting {p : Fin P} {i : ℕ} {u : Machine} {susp call : Option Cpu} (hi : i < T) (hu : k.Loaded p i u)
    (hw : k.Waiting u.mem p i susp call) : ∃ v sp, k.resume u = some v ∧ k.Running v.mem p i v.cpu call ∧
      (∀ c, susp = some c → SameRegs c v.cpu) ∧ k.Writes p i sp u.mem v.mem := by
  cases susp with
  | some c =>
    obtain ⟨hrun, m, x, hsus⟩ := hw
    obtain ⟨v, hv, hregs, hw'⟩ := resume_suspended hu hrun.fits hrun.exl hsus
    refine ⟨v, c.get 29, hv, (hrun.of_writes hi hw').of_sameRegs hregs, ?_, hw'⟩
    rintro c' ⟨⟩
    exact hregs
  | none =>
    obtain ⟨rfl, hinit⟩ := hw
    obtain ⟨hv, hfits⟩ := resume_initial hu hinit
    refine ⟨_, 0, hv, ⟨hfits, k.launch_exl _, ?_, ?_⟩, ?_, fun a _ _ => rfl⟩
    · rintro c' ⟨⟩
    · rintro c' ⟨⟩
    · rintro c' ⟨⟩

/-! ### The interrupt -/

/-- What a timer interrupt on `p` makes of `σ`: the task that runs next, and
the machine it runs on. -/
structure Served (k : System P T) (σ : State P) (p : Fin P) (r : BitVec 8 × Machine) : Prop where
  next : r.1.toNat = ((σ.current p).toNat + 1) % (k.number p).toNat
  running : k.Running r.2.mem p r.1.toNat r.2.cpu (σ.calling p r.1.toNat)
  waiting : r.1.toNat ≠ (σ.current p).toNat →
    k.Waiting r.2.mem p (σ.current p).toNat (some (σ.cpu p)) (σ.calling p (σ.current p).toNat)
  same : r.1.toNat = (σ.current p).toNat → SameRegs (σ.cpu p) r.2.cpu
  resumed : r.1.toNat ≠ (σ.current p).toNat → ∀ c, σ.suspended p r.1.toNat = some c → SameRegs c r.2.cpu
  untouched : ∀ q j, j < T → ¬ (q = p ∧ j = (σ.current p).toNat) → ¬ (q = p ∧ j = r.1.toNat) →
    k.Untouched q j σ.mem r.2.mem
  context : ∀ q j w, j < T → w < 64 → q ≠ p ∨ 34 ≤ w →
    r.2.mem (slot (k.context q j) w) = σ.mem (slot (k.context q j) w)
  table : ∀ a, k.table a ≠ none → r.2.mem a = σ.mem a

section Demux

variable {σ : State P} {p : Fin P} {m : Machine}

theorem Inv.current_lt_T (h : k.Inv σ) (p : Fin P) : (σ.current p).toNat < T :=
  (h.current_lt p).trans_le (k.number_le p)

theorem serve_eq (p : Fin P) (current : BitVec 8) : k.serve p current = k.ctxSwitch p current := by
  rw [serve, k.timer_switches]

/-- With one task the interrupt returns to it. -/
theorem demux_alone (hI : k.Inv σ) (hm : k.Interrupted (σ.cpu p) σ.mem m) (hn : (k.number p).toNat ≤ 1) :
    ∃ r, k.demux p (σ.current p) m = some r ∧ k.Served σ p r := by
  have hr := hI.running p
  have hT := hI.current_lt_T p
  have hcur := hI.current_lt p
  have hpass := k.isr.pass_returned m (by rw [hm.sp]; exact hr.fits.frame_le)
  obtain ⟨v, hv, hregs, hw⟩ := intReturn_of_returned hr.fits hr.exl hm.sp hm.ra hm.saved hm.sr hm.framed hpass
  have hw' := (hm.writes hr.fits).trans hw
  refine ⟨(σ.current p, v), ?_, ?_, ?_, fun hne => absurd rfl hne, fun _ => hregs, fun hne => absurd rfl hne, ?_, ?_, ?_⟩
  · rw [demux, serve_eq, ctxSwitch, if_pos hn]
    simp [hv]
  · have h1 : (k.number p).toNat = 1 := by omega
    show (σ.current p).toNat = _
    rw [h1, Nat.mod_one]
    omega
  · exact (hr.of_writes hT hw').of_sameRegs hregs
  · intro q j hj hne _
    exact hw'.untouched hT hj hne
  · intro q j w hj hw hne
    refine hw'.context hT hj hw (hne.imp_left fun hq => ?_)
    rintro ⟨rfl, -⟩
    exact hq rfl
  · intro a ha
    exact hw'.table hT ha

theorem succ_mod_ne {i n : ℕ} (hi : i < n) (hn : ¬ n ≤ 1) : (i + 1) % n ≠ i := by
  rcases Nat.lt_or_ge (i + 1) n with h | h
  · rw [Nat.mod_eq_of_lt h]
    omega
  · have h1 : i + 1 = n := by omega
    rw [h1, Nat.mod_self]
    omega

/-- With several tasks it returns to the next one. -/
theorem demux_switch (hI : k.Inv σ) (hm : k.Interrupted (σ.cpu p) σ.mem m) (hn : ¬ (k.number p).toNat ≤ 1) :
    ∃ r, k.demux p (σ.current p) m = some r ∧ k.Served σ p r := by
  have hr := hI.running p
  have hT := hI.current_lt_T p
  set n := (k.number p).toNat with hnum
  set i := (σ.current p).toNat with hi
  set next := BitVec.ofNat 8 ((i + 1) % n) with hnext
  have hlt : (i + 1) % n < n := Nat.mod_lt _ (by omega)
  have hnat : next.toNat = (i + 1) % n := by
    rw [hnext, BitVec.toNat_ofNat]
    have := (k.number p).isLt
    exact Nat.mod_eq_of_lt (by omega)
  have hne : next.toNat ≠ i := by
    rw [hnat]
    exact succ_mod_ne (hI.current_lt p) hn
  have hjT : next.toNat < T := by
    have := k.number_le p
    omega
  set x : Word × Word := (k.context p i, k.context p next.toNat) with hx
  have hd := k.isr.down_called x m (by rw [hm.sp]; exact hr.fits.frame_le)
  -- first half: the interrupted task is suspended
  obtain ⟨hsus, hw⟩ := suspended_of_taskSwitch hT hr.fits hm (x := x) rfl
  have hload := loaded_taskSwitch (p := p) (i := next.toNat) rfl hd
  set u := taskSwitch (k.isr.down x m) with hu
  -- second half: the next one goes on
  have hother : ¬ (p = p ∧ next.toNat = i) := fun h => hne h.2
  have hwait := (hI.waiting p next.toNat (by omega) hne).of_untouched (hw.untouched hT hjT hother)
  obtain ⟨v, sp, hv, hrun, hregs, hw'⟩ := resume_waiting hjT hload hwait
  have hback : k.Untouched p i u.mem v.mem := hw'.untouched hjT hT fun h => hne h.2.symm
  refine ⟨(next, v), ?_, hnat, hrun, fun _ => ⟨?_, m, x, ?_⟩, fun h => absurd h hne, fun _ => hregs, ?_, ?_, ?_⟩
  · rw [demux, serve_eq, ctxSwitch, if_neg hn]
    simp only [← hi, ← hnum, ← hnext, ← hx, ← hu, hv, Option.map_some]
  · exact (hr.of_writes hT hw).of_mem fun a ha _ => hback.stack a ha
  · exact hsus.of_untouched hr.fits hback
  · intro q j hj h1 h2
    exact (hw.untouched hT hj h1).trans (hw'.untouched hjT hj h2)
  · intro q j w hj hw64 hq
    have hq' : ∀ l, ¬ (q = p ∧ j = l) ∨ 34 ≤ w := by
      intro l
      refine hq.imp_left fun hq => ?_
      rintro ⟨rfl, -⟩
      exact hq rfl
    exact (hw'.context hjT hj hw64 (hq' _)).trans (hw.context hT hj hw64 (hq' _))
  · intro a ha
    exact (hw'.table hjT ha).trans (hw.table hT ha)

/-- A timer interrupt is served to its end. -/
theorem demux_served (hI : k.Inv σ) (hm : k.Interrupted (σ.cpu p) σ.mem m) :
    ∃ r, k.demux p (σ.current p) m = some r ∧ k.Served σ p r := by
  by_cases hn : (k.number p).toNat ≤ 1
  · exact demux_alone hI hm hn
  · exact demux_switch hI hm hn

end Demux

end System
end Giet
end Smc
