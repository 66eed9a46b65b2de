/-
# Transfers of the block device end

The calls of `Smc/Giet/Ioc.lean` wait in two places: for `_ioc_lock`, and in
`_ioc_completed` for `_ioc_done`. In a fair run (`Fair`: tasks and interrupt
routines go on, a task whose call has returned 0 calls `_ioc_completed`, the
device ends its transfers) neither waits in vain, but for one case: without
hardware cache coherence the loop that invalidates the buffer runs with the lock
held, and it does not end if its index comes round (`Stuck`).

A task that has the lock completes its own transfer, unless it is in such a loop
(`completes_iff`): every stage of the server waits for one action, which comes,
and all others only bring the completion nearer (`advance`). A task that wants
the lock need not be the next one to get it, but someone gets it. Only a call
whose buffer's end comes round can get stuck, and only if blocks are no whole
lines (`Stuck.comesRound`); without such calls a transfer is completed
(`device_serves`).

Key definitions: `Stuck`, `Fair`, `Awaits`, `Wants`, `Completes`.
Key theorems: `completes_iff`, `device_serves`.
-/
import Smc.Giet.Ioc
import Smc.Lib.Temporal

namespace Smc
namespace Giet
namespace Ioc

open Drivers

variable {T Q : Type} [DecidableEq T] [DecidableEq Q] {k : Setup} {s : State T Q} {g g' : Stage T Q} {t : T}

/-! ### The way to the completion -/

/-- How many steps the server is from its completion. -/
def Stage.left : Stage T Q → ℕ
  | .free => 0
  | .held _ => 7
  | .running _ => 6
  | .ended _ _ => 5
  | .loading _ _ _ => 4
  | .storing _ _ _ => 3
  | .signalled _ _ => 2
  | .cleared _ _ => 1

omit [DecidableEq T] [DecidableEq Q] in
theorem Stage.left_le (g : Stage T Q) : g.left ≤ 7 := by
  cases g <;> simp [Stage.left]

/-- How many accesses and calls the task is from it, at most. -/
def Pc.left : Pc → ℕ
  | .invalidating i size writes => (size.toNat - i.toNat) + writes.length + 6
  | .configuring writes => writes.length + 6
  | .started => 6
  | .waiting => 5
  | .readStatus => 4
  | .rereadStatus => 3
  | .clearDone _ => 2
  | .clearLock _ => 1
  | .outside | .checking _ | .ll _ _ | .sc _ _ => 0

def left (s : State T Q) (g : Stage T Q) (t : T) : ℕ := g.left + (s.task t).left

/-- The action that the transfer of task `t` waits for. -/
def Awaits (t : T) (pc : Pc) : Stage T Q → Act T Q → Prop
  | .free, _ => False
  | .held _, a | .cleared _ _, a => ∃ scOk, a = .access t scOk
  | .running _, a => ∃ status, a = .ends status
  | .ended _ _, a => ∃ q, a = .isr q
  | .loading _ q _, a | .storing _ q _, a => a = .isr q
  | .signalled _ _, a => if pc = .started then a = .complete t else ∃ scOk, a = .access t scOk

omit [DecidableEq T] in
/-- What is awaited can happen in the stage. -/
theorem Awaits.cases {pc : Pc} {a : Act T Q} (h : Awaits t pc g a) :
    (∃ scOk, a = .access t scOk) ∨ (a = .complete t ∧ pc = .started) ∨
      (∃ status, a = .ends status ∧ g.device = .busy) ∨
      ∃ q, a = .isr q ∧ (g.isr q ≠ .out ∨ ∃ status, g.device = .ended status) := by
  cases g with
  | free => exact h.elim
  | held u | cleared u st => exact .inl h
  | running u =>
    obtain ⟨status, rfl⟩ := h
    exact .inr (.inr (.inl ⟨status, rfl, rfl⟩))
  | ended u st =>
    obtain ⟨q, rfl⟩ := h
    exact .inr (.inr (.inr ⟨q, rfl, .inr ⟨st, rfl⟩⟩))
  | loading u q st | storing u q st =>
    obtain rfl : a = .isr q := h
    refine .inr (.inr (.inr ⟨q, rfl, .inl ?_⟩))
    rw [Stage.isr, Function.update_self]
    exact Isr.noConfusion
  | signalled u st =>
    unfold Awaits at h
    split_ifs at h with hpc
    · exact .inr (.inl ⟨h, hpc⟩)
    · exact .inl h

omit [DecidableEq T] in
theorem Follows.holds (h : Follows s g) (ho : g.owner = some t) : (s.task t).holds = true :=
  ((h.place t).1 ho).holds

omit [DecidableEq T] in
/-- A task other than the owner is at no access of the transfer. -/
theorem Follows.holds_of_ne (h : Follows s g) (ho : g.owner = some t) {u : T} (hu : u ≠ t) :
    (s.task u).holds = false :=
  (h.place u).2 (by rw [ho]; exact fun he => hu (Option.some.inj he).symm)

omit [DecidableEq Q] in
theorem access_task_of_ne {u : T} (hu : t ≠ u) (scOk : Bool) : (access k s u scOk).task t = s.task t := by
  unfold access
  split
  all_goals first
    | rfl
    | exact Function.update_of_ne hu _ _
    | split <;> first
      | rfl
      | exact Function.update_of_ne hu _ _

/-- A store-conditional to a lock that is taken fails. -/
theorem follows_sc_taken {u : T} {size : Word} {ws : List (IocReg × Word)} {scOk : Bool} (h : Follows s g)
    (hpc : s.task u = .sc size ws) (ho : g.owner = some t) : Follows (access k s u scOk) g := by
  have hne : g.owner ≠ some u := h.owner_ne (by rw [hpc]; rfl)
  have hs : s.lock.scSucceeds u () scOk = false := by
    by_contra hs
    have hval := (h.linked u size ws hpc).val_of_succeeds (Bool.eq_true_of_not_eq_false hs)
    rw [h.lock, Stage.lock_eq_zero] at hval
    rw [hval] at ho
    cases ho
  simp only [access, hpc, hs, Bool.false_eq_true, ↓reduceIte]
  constructor
  · rw [State.goTo, Mem.sc_val_of_fails 1 hs]
    exact h.lock
  · exact h.done
  · exact h.device
  · exact h.isr
  · exact h.status
  · exact h.place_goTo (.inl rfl) (Stage.place_of_ne hne rfl)
  · apply h.linked_goTo
    · exact fun u hu hl => hl.of_sc
    · intro size' ws' he
      cases he
  · exact h.programs_goTo (Pc.programs_of_writes rfl (h.programs u ws (congrArg Pc.writes hpc)))

/-- The other tasks do not touch the transfer. -/
theorem follows_access_of_ne {u : T} {scOk : Bool} (h : Follows s g) (ho : g.owner = some t) (hu : u ≠ t) :
    Follows (access k s u scOk) g := by
  have hout := h.holds_of_ne ho hu
  cases hpc : s.task u with
  | outside => simpa only [access, hpc] using h
  | checking c => exact follows_checking h hpc
  | ll size ws => exact follows_ll h hpc
  | sc size ws => exact follows_sc_taken h hpc ho
  | invalidating i size ws | configuring ws | started | waiting | readStatus | rereadStatus | clearDone ret | clearLock ret =>
    rw [hpc] at hout
    cases hout

/-- The transfer of task `t` comes nearer to its completion, or it is as it was. -/
def Advances (k : Setup) (s : State T Q) (g : Stage T Q) (t : T) (a : Act T Q) : Prop :=
  (∃ ret, .completed t ret ∈ events s a) ∨
  ∃ g', Follows (next k s a) g' ∧ g'.owner = some t ∧
    (left (next k s a) g' t < left s g t ∨
      (g' = g ∧ (next k s a).task t = s.task t ∧ ¬ Awaits t (s.task t) g a))

/-- A step after which the task still has the lock. -/
theorem advances_of_lt {a : Act T Q} (hf : Follows (next k s a) g') (hh : ((next k s a).task t).holds = true)
    (hlt : left (next k s a) g' t < left s g t) : Advances k s g t a :=
  .inr ⟨g', hf, hf.owner_of_holds hh, .inl hlt⟩

/-- A step that changes nothing of the transfer. -/
theorem advances_of_same {a : Act T Q} (ho : g.owner = some t) (hf : Follows (next k s a) g)
    (ht : (next k s a).task t = s.task t) (ha : ¬ Awaits t (s.task t) g a) : Advances k s g t a :=
  .inr ⟨g, hf, ho, .inr ⟨rfl, ht, ha⟩⟩

/-! ### The loop of `_dcache_buf_invalidate` -/

/-- The task is in a loop that does not end: its last index comes round. -/
def Stuck (k : Setup) (pc : Pc) : Prop :=
  ∃ i size writes, pc = .invalidating i size writes ∧ 2 ^ 32 < size.toNat + (Dcache.lineSize k.config).toNat

/-- Indices are below the size, and go up in lines from 0. -/
def Loops (k : Setup) (s : State T Q) : Prop :=
  ∀ t i size ws, s.task t = .invalidating i size ws → i < size ∧ (Dcache.lineSize k.config).toNat ∣ i.toNat

theorem lineSize_pos (config : Word) : 0 < (Dcache.lineSize config).toNat := by
  obtain ⟨r, -, hr⟩ := Dcache.lineSize_toNat config
  rw [hr]
  exact Nat.two_pow_pos r

/-- The index goes up, or comes round to 0: it stays one of a line. -/
theorem lineSize_dvd_add {config i : Word} (h : (Dcache.lineSize config).toNat ∣ i.toNat) :
    (Dcache.lineSize config).toNat ∣ (i + Dcache.lineSize config).toNat := by
  obtain ⟨r, hr, hL⟩ := Dcache.lineSize_toNat config
  rw [BitVec.toNat_add, Nat.dvd_mod_iff]
  · exact Nat.dvd_add h dvd_rfl
  · rw [hL]
    exact pow_dvd_pow 2 (by omega)

omit [DecidableEq T] in
/-- The routine touches no task, and not the lock. -/
theorem isrIoc_frame (s : State T Q) (q : Q) : (isrIoc s q).task = s.task ∧ (isrIoc s q).lock = s.lock := by
  unfold isrIoc
  split
  · split <;> exact ⟨rfl, rfl⟩
  · exact ⟨rfl, rfl⟩
  · exact ⟨rfl, rfl⟩

/-- What a step makes of the place of a task. -/
theorem task_of_next (a : Act T Q) : (next k s a).task t = s.task t ∨
    (∃ c, a = .call t c ∧ s.task t = .outside ∧ (next k s a).task t = .checking c) ∨
    (a = .complete t ∧ s.task t = .started ∧ (next k s a).task t = .waiting) ∨ ∃ scOk, a = .access t scOk := by
  cases a with
  | call u c =>
    by_cases hu : t = u
    · subst hu
      by_cases hpc : s.task t = .outside
      · have hnext : next k s (.call t c) = s.goTo t (.checking c) := if_pos hpc
        refine .inr (.inl ⟨c, rfl, hpc, ?_⟩)
        rw [hnext]
        exact Function.update_self _ _ _
      · have hnext : next k s (.call t c) = s := if_neg hpc
        exact .inl (by rw [hnext])
    · refine .inl ?_
      simp only [next]
      split_ifs
      · exact Function.update_of_ne hu _ _
      · rfl
  | complete u =>
    by_cases hu : t = u
    · subst hu
      by_cases hpc : s.task t = .started
      · have hnext : next k s (.complete t : Act T Q) = s.goTo t .waiting := if_pos hpc
        refine .inr (.inr (.inl ⟨rfl, hpc, ?_⟩))
        rw [hnext]
        exact Function.update_self _ _ _
      · have hnext : next k s (.complete t : Act T Q) = s := if_neg hpc
        exact .inl (by rw [hnext])
    · refine .inl ?_
      simp only [next]
      split_ifs
      · exact Function.update_of_ne hu _ _
      · rfl
  | access u scOk =>
    by_cases hu : t = u
    · exact .inr (.inr (.inr ⟨scOk, by rw [hu]⟩))
    · exact .inl (access_task_of_ne hu scOk)
  | ends st =>
    refine .inl ?_
    simp only [next]
    split_ifs <;> rfl
  | isr q => exact .inl (congrFun (isrIoc_frame s q).1 t)

/-- How a task comes into a pass of the loop. -/
theorem invalidating_of_next {a : Act T Q} {i size : Word} {ws : List (IocReg × Word)}
    (h : (next k s a).task t = .invalidating i size ws) : s.task t = .invalidating i size ws ∨
      (∃ j, s.task t = .invalidating j size ws ∧ i = j + Dcache.lineSize k.config ∧ i < size) ∨
      (s.task t = .sc size ws ∧ i = 0 ∧ i < size) := by
  have hloop : ∀ {j size' ws'}, Pc.loop j size' ws' = .invalidating i size ws →
      j = i ∧ size' = size ∧ ws' = ws ∧ i < size := by
    intro j size' ws' he
    unfold Pc.loop at he
    split_ifs at he with hlt
    cases he
    exact ⟨rfl, rfl, rfl, hlt⟩
  rcases task_of_next (k := k) (s := s) (t := t) a with hsame | ⟨c, -, -, hc⟩ | ⟨-, -, hc⟩ | ⟨scOk, rfl⟩
  · exact .inl (hsame.symm.trans h)
  · cases hc.symm.trans h
  · cases hc.symm.trans h
  · right
    have h' : (access k s t scOk).task t = .invalidating i size ws := h
    have hgo : ∀ {s' : State T Q} {pc : Pc}, (s'.goTo t pc).task t = .invalidating i size ws →
        pc = .invalidating i size ws := fun hgo => (Function.update_self _ _ _).symm.trans hgo
    cases hpc : s.task t with
    | sc size' ws' =>
      simp only [access, hpc] at h'
      have hpc' := hgo h'
      split_ifs at hpc'
      obtain ⟨rfl, rfl, rfl, hlt⟩ := hloop hpc'
      exact .inr ⟨rfl, rfl, hlt⟩
    | invalidating j size' ws' =>
      simp only [access, hpc] at h'
      obtain ⟨rfl, rfl, rfl, hlt⟩ := hloop (hgo h')
      exact .inl ⟨j, rfl, rfl, hlt⟩
    | configuring ws' =>
      cases ws' with
      | nil =>
        simp only [access, hpc] at h'
        cases hgo h'
      | cons w ws' =>
        simp only [access, hpc] at h'
        have hpc' := hgo h'
        split_ifs at hpc'
    | checking c =>
      simp only [access, hpc] at h'
      split at h' <;> cases hgo h'
    | outside | started =>
      simp only [access, hpc] at h'
      cases h'
    | waiting =>
      simp only [access, hpc] at h'
      split_ifs at h'
      · cases hpc.symm.trans h'
      · cases hgo h'
    | ll size' ws' | readStatus =>
      simp only [access, hpc] at h'
      have hpc' := hgo h'
      split_ifs at hpc'
    | rereadStatus | clearDone ret | clearLock ret =>
      simp only [access, hpc] at h'
      cases hgo h'

theorem Loops.next (hl : Loops k s) (a : Act T Q) : Loops k (next k s a) := by
  intro t i size ws h
  rcases invalidating_of_next h with hsame | ⟨j, hj, rfl, hlt⟩ | ⟨-, rfl, hlt⟩
  · exact hl t i size ws hsame
  · exact ⟨hlt, lineSize_dvd_add (hl t j size ws hj).2⟩
  · exact ⟨hlt, dvd_zero _⟩

/-- A task that has the lock and whose loop ends does not get into another. -/
theorem not_stuck_next {a : Act T Q} (hh : (s.task t).holds = true) (hst : ¬ Stuck k (s.task t)) :
    ¬ Stuck k ((next k s a).task t) := by
  rintro ⟨i, size, ws, h, hfar⟩
  rcases invalidating_of_next h with hsame | ⟨j, hj, -, -⟩ | ⟨hsc, -, -⟩
  · exact hst ⟨i, size, ws, hsame, hfar⟩
  · exact hst ⟨j, size, ws, hj, hfar⟩
  · rw [hsc] at hh
    cases hh

/-- The index after a pass of a loop that comes round: it is a multiple of the
line, so below 2^32 it is below the size. -/
theorem add_lineSize_lt {config i size : Word} (hi : i < size) (hdvd : (Dcache.lineSize config).toNat ∣ i.toNat)
    (hfar : 2 ^ 32 < size.toNat + (Dcache.lineSize config).toNat) : i + Dcache.lineSize config < size := by
  obtain ⟨r, hr, hL⟩ := Dcache.lineSize_toNat config
  obtain ⟨m, hm⟩ := hdvd
  obtain ⟨c, hc⟩ : (Dcache.lineSize config).toNat ∣ 2 ^ 32 := by
    rw [hL]
    exact pow_dvd_pow 2 (by omega)
  have hlt : i.toNat < size.toNat := hi
  have hi32 : i.toNat < 2 ^ 32 := i.isLt
  have hmc : m + 1 ≤ c := by
    rw [hm, hc] at hi32
    exact Nat.lt_of_mul_lt_mul_left hi32
  rw [BitVec.lt_def, BitVec.toNat_add]
  rcases Nat.eq_or_lt_of_le hmc with heq | hless
  · -- the index comes round to 0
    have hround : i.toNat + (Dcache.lineSize config).toNat = 2 ^ 32 := by
      rw [hm, ← Nat.mul_succ, hc, ← heq]
    rw [hround, Nat.mod_self]
    omega
  · have hle : i.toNat + (Dcache.lineSize config).toNat + (Dcache.lineSize config).toNat ≤ 2 ^ 32 := by
      rw [hm, ← Nat.mul_succ, ← Nat.mul_succ, hc]
      exact Nat.mul_le_mul_left _ hless
    rw [Nat.mod_eq_of_lt (by have := lineSize_pos config; omega)]
    omega

/-- A loop whose index comes round goes on for ever. -/
theorem Stuck.next (h : Stuck k (s.task t)) (hl : Loops k s) (a : Act T Q) : Stuck k ((next k s a).task t) := by
  obtain ⟨i, size, ws, hpc, hfar⟩ := h
  rcases task_of_next (k := k) (s := s) (t := t) a with hsame | ⟨c, -, hc, -⟩ | ⟨-, hc, -⟩ | ⟨scOk, rfl⟩
  · exact ⟨i, size, ws, hsame.trans hpc, hfar⟩
  · cases hpc.symm.trans hc
  · cases hpc.symm.trans hc
  · obtain ⟨hi, hdvd⟩ := hl t i size ws hpc
    refine ⟨i + Dcache.lineSize k.config, size, ws, ?_, hfar⟩
    have htask : (access k s t scOk).task t = .loop (i + Dcache.lineSize k.config) size ws := by
      simp only [access, hpc]
      exact Function.update_self _ _ _
    show (access k s t scOk).task t = _
    rw [htask, Pc.loop, if_pos (add_lineSize_lt hi hdvd hfar)]

/-! ### The accesses of the task -/

theorem advances_configuring {ws : List (IocReg × Word)} {scOk : Bool} (h : Follows s g)
    (hpc : s.task t = .configuring ws) : Advances k s g t (.access t scOk) := by
  have hg := h.held (.inr ⟨ws, hpc⟩)
  cases ws with
  | nil => exact absurd rfl (h.programs t [] (congrArg Pc.writes hpc)).1
  | cons w ws =>
    obtain ⟨r, v⟩ := w
    have hstep : ∃ g', Follows (access k s t scOk) g' ∧ Serves g (events s (.access t scOk)) g' :=
      follows_configuring h hpc
    obtain ⟨g', hf, -⟩ := hstep
    have htask : (access k s t scOk).task t = if ws = [] then .started else .configuring ws := by
      simp only [access, hpc]
      exact Function.update_self _ _ _
    have hholds : ((access k s t scOk).task t).holds = true := by
      rw [htask]
      split_ifs <;> rfl
    have hf' : Follows (next k s (.access t scOk)) g' := hf
    apply advances_of_lt hf' hholds
    show g'.left + ((access k s t scOk).task t).left < g.left + (s.task t).left
    have hle := g'.left_le
    have hseven : g.left = 7 := by rw [hg]; rfl
    rw [htask, hpc, hseven]
    split_ifs with hws
    · show g'.left + 6 < 7 + ((r, v) :: ws).length + 6
      rw [List.length_cons]
      omega
    · show g'.left + (ws.length + 6) < 7 + (((r, v) :: ws).length + 6)
      rw [List.length_cons]
      omega

/-- An access after which the stage is the same. -/
theorem advances_goTo {pc : Pc} {scOk : Bool} (hf : Follows (access k s t scOk) g)
    (htask : (access k s t scOk).task t = pc) (hh : pc.holds = true) (hlt : pc.left < (s.task t).left) :
    Advances k s g t (.access t scOk) := by
  have hf' : Follows (next k s (.access t scOk)) g := hf
  apply advances_of_lt hf'
  · show ((access k s t scOk).task t).holds = true
    rw [htask]
    exact hh
  · show g.left + ((access k s t scOk).task t).left < g.left + (s.task t).left
    rw [htask]
    exact Nat.add_lt_add_left hlt _

theorem Pc.loop_holds (i size : Word) (ws : List (IocReg × Word)) : (Pc.loop i size ws).holds = true := by
  unfold Pc.loop
  split_ifs <;> rfl

/-- A pass of the loop that does not come round. -/
theorem advances_invalidating {i size : Word} {ws : List (IocReg × Word)} {scOk : Bool} (h : Follows s g)
    (hpc : s.task t = .invalidating i size ws) (hl : Loops k s) (hst : ¬ Stuck k (s.task t)) :
    Advances k s g t (.access t scOk) := by
  obtain ⟨hi, -⟩ := hl t i size ws hpc
  have hnear : size.toNat + (Dcache.lineSize k.config).toNat ≤ 2 ^ 32 :=
    not_lt.mp fun hlt => hst ⟨i, size, ws, hpc, hlt⟩
  have hpos := lineSize_pos k.config
  have hlt : i.toNat < size.toNat := hi
  have hnext : (i + Dcache.lineSize k.config).toNat = i.toNat + (Dcache.lineSize k.config).toNat := by
    rw [BitVec.toNat_add, Nat.mod_eq_of_lt (by omega)]
  have htask : (access k s t scOk).task t = .loop (i + Dcache.lineSize k.config) size ws := by
    simp only [access, hpc]
    exact Function.update_self _ _ _
  apply advances_goTo (follows_invalidating h hpc) htask (Pc.loop_holds _ size ws)
  rw [hpc]
  unfold Pc.loop
  split_ifs with hnew
  · show size.toNat - (i + Dcache.lineSize k.config).toNat + ws.length + 6 < size.toNat - i.toNat + ws.length + 6
    omega
  · show ws.length + 6 < size.toNat - i.toNat + ws.length + 6
    omega

/-- A task that polls waits for the device or the routine. -/
theorem advances_polling {scOk : Bool} (h : Follows s g) (ho : g.owner = some t) (hsame : access k s t scOk = s)
    (hpoll : s.task t = .started ∨ (s.task t = .waiting ∧ s.iocDone = 0)) : Advances k s g t (.access t scOk) := by
  have hf : Follows (next k s (.access t scOk)) g := by
    show Follows (access k s t scOk) g
    rw [hsame]
    exact h
  apply advances_of_same ho hf
  · exact congrArg (fun s => s.task t) hsame
  · have hfits := (h.place t).1 ho
    rcases hpoll with hpc | ⟨hpc, hd⟩ <;> rw [hpc] at hfits ⊢
    · cases g with
      | free => exact id
      | held u => rcases hfits with ⟨i, size, ws, hws⟩ | ⟨ws, hws⟩ <;> cases hws
      | cleared u st => cases hfits
      | running u | ended u st | loading u q st | storing u q st | signalled u st => simp [Awaits]
    · cases g with
      | free => exact id
      | held u => rcases hfits with ⟨i, size, ws, hws⟩ | ⟨ws, hws⟩ <;> cases hws
      | cleared u st => cases hfits
      | signalled u st =>
        rw [h.done] at hd
        exact absurd hd (by decide : (1 : BitVec 8) ≠ 0)
      | running u | ended u st | loading u q st | storing u q st => simp [Awaits]

/-- The access that takes the signal back. -/
theorem advances_clearDone {ret : Word} {scOk : Bool} (h : Follows s g) (hpc : s.task t = .clearDone ret) :
    Advances k s g t (.access t scOk) := by
  obtain ⟨st, rfl⟩ := h.signalled (by rw [hpc]; rfl) (.inr (.inr ⟨ret, hpc⟩))
  have hstep : ∃ g', Follows (access k s t scOk) g' ∧ Serves (.signalled t st) [] g' := follows_clearDone h hpc
  obtain ⟨g', hf, -⟩ := hstep
  have htask : (access k s t scOk).task t = .clearLock ret := by
    simp only [access, hpc]
    exact Function.update_self _ _ _
  have howner : g'.owner = some t := hf.owner_of_holds (by rw [htask]; rfl)
  have hfits := (hf.place t).1 howner
  rw [htask] at hfits
  refine .inr ⟨g', hf, howner, .inl ?_⟩
  show g'.left + ((access k s t scOk).task t).left < 2 + (s.task t).left
  rw [htask, hpc]
  cases g' with
  | cleared u st' =>
    show 1 + 1 < 2 + 2
    decide
  | free => exact hfits.elim
  | held u => rcases hfits with ⟨i, size, ws, hws⟩ | ⟨ws, hws⟩ <;> cases hws
  | running u | ended u st | loading u q st | storing u q st => rcases hfits with h | h <;> cases h
  | signalled u st => rcases hfits with h | h | h | ⟨h, -⟩ | h <;> cases h

theorem advances_access (h : Follows s g) (ho : g.owner = some t) (hl : Loops k s) (hst : ¬ Stuck k (s.task t))
    (scOk : Bool) : Advances k s g t (.access t scOk) := by
  have hholds := h.holds ho
  cases hpc : s.task t with
  | outside | checking c | ll size ws | sc size ws =>
    rw [hpc] at hholds
    cases hholds
  | invalidating i size ws => exact advances_invalidating h hpc hl hst
  | configuring ws => exact advances_configuring h hpc
  | started => exact advances_polling h ho (by simp only [access, hpc]) (.inl hpc)
  | waiting =>
    by_cases hd : s.iocDone = 0
    · exact advances_polling h ho (by simp only [access, hpc, if_pos hd]) (.inr ⟨hpc, hd⟩)
    · have htask : (access k s t scOk).task t = .readStatus := by
        simp only [access, hpc, if_neg hd]
        exact Function.update_self _ _ _
      exact advances_goTo (follows_waiting h hpc) htask rfl (by rw [hpc]; decide)
  | readStatus =>
    have htask : (access k s t scOk).task t =
        if s.iocStatus ≠ code .readSuccess then .rereadStatus else .clearDone 0 := by
      simp only [access, hpc]
      exact Function.update_self _ _ _
    apply advances_goTo (follows_readStatus h hpc) htask
    · split_ifs <;> rfl
    · rw [hpc]
      split_ifs <;> decide
  | rereadStatus =>
    have htask : (access k s t scOk).task t = .clearDone (if s.iocStatus ≠ code .writeSuccess then 1 else 0) := by
      simp only [access, hpc]
      exact Function.update_self _ _ _
    exact advances_goTo (follows_rereadStatus h hpc) htask rfl (by rw [hpc]; exact Nat.lt_succ_self 2)
  | clearDone ret => exact advances_clearDone h hpc
  | clearLock ret =>
    -- the completion is seen
    refine .inl ⟨ret, ?_⟩
    simp only [events, hpc, List.mem_singleton]

/-! ### All steps -/

/-- A step with no part in the transfer. -/
theorem advances_frame {a : Act T Q} (h : Follows s g) (ho : g.owner = some t) (hs : next k s a = s)
    (ha : ¬ Awaits t (s.task t) g a) : Advances k s g t a := by
  apply advances_of_same ho
  · rw [hs]
    exact h
  · rw [hs]
  · exact ha

theorem advances_ends (h : Follows s g) (ho : g.owner = some t) (status : IocStatus) :
    Advances k s g t (.ends status) := by
  have hh := h.holds ho
  by_cases hd : s.device = .busy
  · have hnext : next k s (.ends status) = { s with device := .ended status } := if_pos hd
    have hstep : ∃ g', Follows (next k s (.ends status)) g' ∧ Serves g (events s (.ends status)) g' := follows_ends h
    obtain ⟨g', hf, -⟩ := hstep
    apply advances_of_lt hf
    · rw [hnext]
      exact hh
    · have hdev := hf.device
      rw [hnext] at hdev
      show g'.left + ((next k s (.ends status)).task t).left < g.left + (s.task t).left
      rw [hnext]
      rw [h.device] at hd
      have h6 : g.left = 6 := by cases g <;> simp_all [Stage.device, Stage.left]
      have h5 : g'.left = 5 := by cases g' <;> simp_all [Stage.device, Stage.left]
      show g'.left + (s.task t).left < g.left + (s.task t).left
      omega
  · have hsame : next k s (.ends status) = s := if_neg hd
    apply advances_frame h ho hsame
    intro ha
    rcases ha.cases with ⟨b, hb⟩ | ⟨hb, -⟩ | ⟨st, -, hbusy⟩ | ⟨q, hb, -⟩
    · cases hb
    · cases hb
    · exact hd (h.device.trans hbusy)
    · cases hb

theorem advances_isr (h : Follows s g) (ho : g.owner = some t) (q : Q) : Advances k s g t (.isr q) := by
  have hh := h.holds ho
  have htask : (isrIoc s q).task t = s.task t := congrFun (isrIoc_frame s q).1 t
  have hholds : ((isrIoc s q).task t).holds = true := by rw [htask]; exact hh
  obtain ⟨g', hf, -⟩ := follows_isr (q := q) h
  have hf' : Follows (next k s (.isr q)) g' := hf
  have hlt : g'.left < g.left → Advances k s g t (.isr q) := by
    intro hlt
    apply advances_of_lt hf' hholds
    show g'.left + ((isrIoc s q).task t).left < g.left + (s.task t).left
    rw [htask]
    exact Nat.add_lt_add_right hlt _
  have hisr : (isrIoc s q).isr q = g'.isr q := congrFun hf.isr q
  cases hq : s.isr q with
  | out =>
    cases hd : s.device with
    | idle | busy =>
      have hsame : next k s (.isr q) = s := by simp only [next, isrIoc, hq, hd]
      apply advances_frame h ho hsame
      intro ha
      rw [h.device] at hd
      rw [h.isr] at hq
      rcases ha.cases with ⟨b, hb⟩ | ⟨hb, -⟩ | ⟨st, hb, -⟩ | ⟨r, hb, hr | ⟨st, hr⟩⟩
      · cases hb
      · cases hb
      · cases hb
      · rw [← Act.isr.inj hb] at hr
        exact hr hq
      · rw [hr] at hd
        cases hd
    | ended status =>
      have hstep : (isrIoc s q).isr q = .storeStatus status := by
        simp only [isrIoc, hq, hd]
        exact Function.update_self _ _ _
      obtain ⟨u, rfl⟩ := Stage.loading_of_isr (hisr.symm.trans hstep)
      rw [h.device] at hd
      apply hlt
      cases g <;> simp_all [Stage.device, Stage.left]
  | storeStatus status =>
    have hstep : (isrIoc s q).isr q = .storeDone := by
      simp only [isrIoc, hq]
      exact Function.update_self _ _ _
    obtain ⟨u, st, rfl⟩ := Stage.storing_of_isr (hisr.symm.trans hstep)
    obtain ⟨v, rfl⟩ := Stage.loading_of_isr (h.isr ▸ hq)
    exact hlt (by show 3 < 4; decide)
  | storeDone =>
    obtain ⟨v, st, rfl⟩ := Stage.storing_of_isr (h.isr ▸ hq)
    have hdone : g'.done = 1 := by
      rw [← hf.done]
      simp only [isrIoc, hq]
    apply hlt
    cases g' <;> simp_all [Stage.done, Stage.left]

/-- A call begins, and is not in the lock. -/
theorem follows_call (h : Follows s g) (u : T) (c : Call) : Follows (next k s (.call u c)) g := by
  simp only [next]
  split_ifs with hpc
  · exact h.goTo (Stage.place_of_ne (h.owner_ne (by rw [hpc]; rfl)) rfl) (fun size ws => Pc.noConfusion)
      (Pc.programs_of_none rfl)
  · exact h

/-- The owner calls `_ioc_completed`. -/
theorem follows_complete {u : T} (h : Follows s g) (ho : g.owner = some u) (hpc : s.task u = .started) :
    Follows (s.goTo u .waiting) g := by
  have hfits := (h.place u).1 ho
  rw [hpc] at hfits
  refine h.goTo (Stage.place_of_eq ho ?_) (fun size ws => Pc.noConfusion) (Pc.programs_of_none rfl)
  cases g <;> simp_all [Stage.Fits]

/-- **Every step brings the transfer nearer to its completion, or it is none
that the transfer waits for**, unless its task is in a loop that does not end. -/
theorem advance (h : Follows s g) (ho : g.owner = some t) (hl : Loops k s) (hst : ¬ Stuck k (s.task t))
    (a : Act T Q) : Advances k s g t a := by
  have hh := h.holds ho
  cases a with
  | call u c =>
    have hf : Follows (next k s (.call u c)) g := follows_call h u c
    have ht : (next k s (.call u c)).task t = s.task t := by
      simp only [next]
      split_ifs with hpc
      · have hne : t ≠ u := by
          intro he
          rw [he, hpc] at hh
          cases hh
        exact Function.update_of_ne hne _ _
      · rfl
    apply advances_of_same ho hf ht
    intro ha
    rcases ha.cases with ⟨b, hb⟩ | ⟨hb, -⟩ | ⟨st, hb, -⟩ | ⟨q, hb, -⟩ <;> cases hb
  | complete u =>
    by_cases hpc : s.task u = .started
    · have hu : t = u := by
        have howner := h.owner_of_holds (show (s.task u).holds = true by rw [hpc]; rfl)
        exact Option.some.inj (ho.symm.trans howner)
      rw [hu] at ho ⊢
      have hnext : next k s (.complete u) = s.goTo u .waiting := if_pos hpc
      have hf : Follows (next k s (.complete u)) g := by
        rw [hnext]
        exact follows_complete h ho hpc
      have htask : (next k s (.complete u)).task u = .waiting := by
        rw [hnext]
        exact Function.update_self _ _ _
      apply advances_of_lt hf
      · rw [htask]
        rfl
      · show g.left + ((next k s (.complete u)).task u).left < g.left + (s.task u).left
        rw [htask, hpc]
        exact Nat.lt_succ_self _
    · have hsame : next k s (.complete u) = s := if_neg hpc
      apply advances_frame h ho hsame
      intro ha
      rcases ha.cases with ⟨b, hb⟩ | ⟨hb, hst⟩ | ⟨st, hb, -⟩ | ⟨q, hb, -⟩
      · cases hb
      · rw [Act.complete.inj hb] at hpc
        exact hpc hst
      · cases hb
      · cases hb
  | access u scOk =>
    by_cases hu : u = t
    · rw [hu]
      exact advances_access h ho hl hst scOk
    · have hf : Follows (next k s (.access u scOk)) g := follows_access_of_ne h ho hu
      apply advances_of_same ho hf (access_task_of_ne (Ne.symm hu) scOk)
      intro ha
      rcases ha.cases with ⟨b, hb⟩ | ⟨hb, -⟩ | ⟨st, hb, -⟩ | ⟨q, hb, -⟩
      · exact hu (Act.access.inj hb).1
      · cases hb
      · cases hb
      · cases hb
  | ends status => exact advances_ends h ho status
  | isr q => exact advances_isr h ho q

/-! ### Fair runs -/

/-- Tasks go on, and a store-conditional fails only if the lock was written
since; a task whose call has returned 0 calls `_ioc_completed`; the device ends
its transfers; some processor takes its interrupt, and none stops in the
routine. -/
structure Fair (a : ℕ → Act T Q) : Prop where
  access : ∀ t, Temporal.Recurs fun i => ∃ scOk, a i = .access t scOk
  sc : ∀ i t, a i ≠ .access t false
  complete : ∀ t, Temporal.Recurs fun i => a i = .complete t
  ends : Temporal.Recurs fun i => ∃ status, a i = .ends status
  isr : ∀ q i, a i = .isr q → Temporal.Recurs fun j => a j = .isr q
  served : ∃ q, Temporal.Recurs fun i => a i = .isr q

section Fair

variable {status : BitVec 8} {a : ℕ → Act T Q}

omit [DecidableEq Q] in
theorem access_isr (s : State T Q) (u : T) (scOk : Bool) : (access k s u scOk).isr = s.isr := by
  unfold access
  split
  all_goals first
    | rfl
    | split <;> rfl

theorem isr_of_ne {q : Q} {act : Act T Q} (ha : act ≠ .isr q) : (next k s act).isr q = s.isr q := by
  cases act with
  | call u c =>
    simp only [next]
    split_ifs <;> rfl
  | complete u =>
    simp only [next]
    split_ifs <;> rfl
  | access u scOk => exact congrFun (access_isr s u scOk) q
  | ends st =>
    simp only [next]
    split_ifs <;> rfl
  | isr r =>
    have hne : q ≠ r := fun he => ha (by rw [he])
    show (isrIoc s r).isr q = s.isr q
    unfold isrIoc
    split
    · split
      · exact Function.update_of_ne hne _ _
      · rfl
    · exact Function.update_of_ne hne _ _
    · exact Function.update_of_ne hne _ _

/-- A processor in the routine has entered it. -/
theorem exists_isr {q : Q} (i : ℕ) (h : (run k status a i).isr q ≠ .out) : ∃ j, a j = .isr q := by
  induction i with
  | zero => exact absurd rfl h
  | succ i ih =>
    by_cases ha : a i = .isr q
    · exact ⟨i, ha⟩
    · have hsame : (run k status a (i + 1)).isr q = (run k status a i).isr q := isr_of_ne ha
      exact ih (by rwa [← hsame])

/-- What a transfer waits for comes. -/
theorem recurs_awaits (hfair : Fair a) {i : ℕ} (h : Follows (run k status a i) g) (ho : g.owner = some t) :
    Temporal.Recurs fun j => Awaits t ((run k status a i).task t) g (a j) := by
  cases g with
  | free => cases ho
  | held u | cleared u st => exact hfair.access t
  | running u => exact hfair.ends
  | ended u st =>
    obtain ⟨q, hq⟩ := hfair.served
    intro m
    obtain ⟨j, hj, hqj⟩ := hq m
    exact ⟨j, hj, q, hqj⟩
  | loading u q st | storing u q st =>
    have hin : (run k status a i).isr q ≠ .out := by
      rw [h.isr, Stage.isr, Function.update_self]
      exact Isr.noConfusion
    obtain ⟨j, hj⟩ := exists_isr i hin
    exact hfair.isr q j hj
  | signalled u st =>
    unfold Awaits
    split_ifs
    · exact hfair.complete t
    · exact hfair.access t

theorem loops_run (i : ℕ) : Loops k (run k status a i) := by
  induction i with
  | zero => intro t i size ws h; cases h
  | succ i ih => exact ih.next (a i)

/-- Task `t` has the lock from `i` to `j`. -/
def Keeps (k : Setup) (status : BitVec 8) (a : ℕ → Act T Q) (t : T) (i j : ℕ) : Prop :=
  i ≤ j ∧ ∀ m, i ≤ m → m ≤ j → ((run k status a m).task t).holds = true

theorem Keeps.succ {i j : ℕ} (h : Keeps k status a t i j) (hh : ((run k status a (j + 1)).task t).holds = true) :
    Keeps k status a t i (j + 1) := by
  refine ⟨h.1.trans (Nat.le_succ j), fun m him hmj => ?_⟩
  rcases Nat.le_succ_iff.mp hmj with hle | rfl
  · exact h.2 m him hle
  · exact hh

/-- Task `t` is `m` steps from its completion, and has had the lock from `i` on. -/
def Nears (k : Setup) (status : BitVec 8) (a : ℕ → Act T Q) (t : T) (i m j : ℕ) : Prop :=
  Keeps k status a t i j ∧ ¬ Stuck k ((run k status a j).task t) ∧
    ∃ g, Follows (run k status a j) g ∧ g.owner = some t ∧ left (run k status a j) g t = m

/-- Task `t` completes its own transfer: it is the last that has started and
ended, and the call returns its result. -/
def Completes (k : Setup) (status : BitVec 8) (a : ℕ → Act T Q) (t : T) (j : ℕ) : Prop :=
  ∃ l st, trace k status a j = l ++ [.started t, .ended st] ∧
    events (run k status a j) (a j) = [.completed t (result st)]

omit [DecidableEq T] [DecidableEq Q] in
/-- A completion is seen when the task clears the lock. -/
theorem clearLock_of_completed {act : Act T Q} {ret : Word} (h : .completed t ret ∈ events s act) :
    s.task t = .clearLock ret ∧ events s act = [.completed t ret] := by
  cases act with
  | call u c | complete u | isr q => cases h
  | ends st =>
    simp only [events] at h
    split_ifs at h <;> simp_all
  | access u scOk =>
    simp only [events] at h ⊢
    split at h <;> simp_all

/-- The call returns the result of the transfer that the server has served. -/
theorem completes_of_completed {j : ℕ} {ret : Word} (h : .completed t ret ∈ events (run k status a j) (a j)) :
    Completes k status a t j := by
  obtain ⟨hpc, hevents⟩ := clearLock_of_completed h
  obtain ⟨g, rs, hf, htrace⟩ := follows_run (k := k) status a j
  have howner : g.owner = some t := hf.owner_of_holds (by rw [hpc]; rfl)
  have hfits := (hf.place t).1 howner
  rw [hpc] at hfits
  obtain ⟨st, rfl, rfl⟩ : ∃ st, g = .cleared t st ∧ ret = result st := by
    cases g <;> simp_all [Stage.owner, Stage.Fits]
  exact ⟨_, st, htrace, hevents⟩

theorem leadsTo_completes (hfair : Fair a) (t : T) (i m : ℕ) :
    Temporal.LeadsTo (Nears k status a t i m) fun j => Keeps k status a t i j ∧ Completes k status a t j := by
  induction m using Nat.strong_induction_on with
  | _ m ih =>
    intro n hn
    obtain ⟨hkeeps, hst, g, hf, ho, hm⟩ := hn
    -- until the action comes, the stage and the task's place are the same
    have hstep : Temporal.LeadsTo
        (fun j => Keeps k status a t i j ∧ Follows (run k status a j) g ∧
          (run k status a j).task t = (run k status a n).task t)
        fun j => (Keeps k status a t i j ∧ Completes k status a t j) ∨ ∃ m' < m, Nears k status a t i m' j := by
      apply Temporal.LeadsTo.of_unless (recurs_awaits hfair hf ho)
      intro j hj
      obtain ⟨hkj, hfj, hpc⟩ := hj
      have hleft : left (run k status a j) g t = m := by
        rw [← hm, left, left, hpc]
      have hstj : ¬ Stuck k ((run k status a j).task t) := by rwa [hpc]
      have hst' : ¬ Stuck k ((run k status a (j + 1)).task t) := not_stuck_next (hfj.holds ho) hstj
      rcases advance (k := k) hfj ho (loops_run j) hstj (a j) with ⟨ret, hc⟩ | ⟨g', hf', ho', hlt | ⟨hg, htask, hnot⟩⟩
      · exact .inl ⟨j, le_rfl, .inl ⟨hkj, completes_of_completed hc⟩⟩
      · exact .inl ⟨j + 1, Nat.le_succ j, .inr ⟨_, hleft ▸ hlt, hkj.succ (hf'.holds ho'), hst', g', hf', ho', rfl⟩⟩
      · have hkj' := hkj.succ (hf'.holds ho')
        rw [hg] at hf'
        rw [hpc] at htask hnot
        exact .inr ⟨⟨hkj', hf', htask⟩, hnot⟩
    obtain ⟨j, hij, hc | ⟨m', hlt, hj⟩⟩ := hstep n ⟨hkeeps, hf, rfl⟩
    · exact ⟨j, hij, hc⟩
    · obtain ⟨l, hjl, hc⟩ := ih m' hlt j hj
      exact ⟨l, hij.trans hjl, hc⟩

/-- A task that is stuck stays so. -/
theorem stuck_run {i j : ℕ} (hij : i ≤ j) (h : Stuck k ((run k status a i).task t)) :
    Stuck k ((run k status a j).task t) := by
  induction j, hij using Nat.le_induction with
  | base => exact h
  | succ j _ ih => exact ih.next (loops_run j) (a j)

theorem completes_of_holds (hfair : Fair a) {i : ℕ} (hh : ((run k status a i).task t).holds = true)
    (hst : ¬ Stuck k ((run k status a i).task t)) :
    ∃ j, Keeps k status a t i j ∧ Completes k status a t j := by
  obtain ⟨g, -, hf, -⟩ := follows_run (k := k) status a i
  have hkeeps : Keeps k status a t i i := by
    refine ⟨le_rfl, fun m him hmi => ?_⟩
    rwa [← Nat.le_antisymm him hmi]
  obtain ⟨j, -, hj⟩ := leadsTo_completes hfair t i _ i ⟨hkeeps, hst, g, hf, hf.owner_of_holds hh, rfl⟩
  exact ⟨j, hj⟩

/-- **A task that has the lock completes its transfer, unless it is stuck.** In
every fair run of any tasks and processors, for a task between taking and
releasing `_ioc_lock`: it keeps the lock until `_ioc_completed` returns it the
result of its own transfer, if and only if it is not in a loop of
`_dcache_buf_invalidate` that does not end. -/
theorem completes_iff (hfair : Fair a) {i : ℕ} (hh : ((run k status a i).task t).holds = true) :
    (∃ j, Keeps k status a t i j ∧ Completes k status a t j) ↔ ¬ Stuck k ((run k status a i).task t) := by
  constructor
  · rintro ⟨j, hkeeps, l, st, -, hc⟩ hst
    obtain ⟨i', size, ws, hpc, -⟩ := stuck_run hkeeps.1 hst
    have hclear := (clearLock_of_completed (by rw [hc]; exact List.mem_singleton_self _)).1
    cases hpc.symm.trans hclear
  · exact completes_of_holds hfair hh

/-- Two tasks read blocks, on one processor, taking turns. -/
def twoReaders (i : ℕ) : Act Bool Unit :=
  if i % 8 = 0 then .call true (.iocRead 0 0x1000 1)
  else if i % 8 = 1 then .call false (.iocRead 1 0x2000 1)
  else if i % 8 = 2 then .access true true
  else if i % 8 = 3 then .access false true
  else if i % 8 = 4 then .complete true
  else if i % 8 = 5 then .complete false
  else if i % 8 = 6 then .ends .readSuccess
  else .isr ()

theorem recurs_turn {P : Act Bool Unit → Prop} (r : ℕ) (hr : r < 8) (hP : P (twoReaders r)) :
    Temporal.Recurs fun i => P (twoReaders i) := by
  intro t
  refine ⟨8 * t + r, by omega, ?_⟩
  have hturn : twoReaders (8 * t + r) = twoReaders r := by
    unfold twoReaders
    rw [show (8 * t + r) % 8 = r % 8 by omega]
  show P (twoReaders (8 * t + r))
  rwa [hturn]

theorem fair_twoReaders : Fair twoReaders where
  access t := by
    cases t with
    | false => exact recurs_turn (P := fun x => ∃ scOk, x = .access false scOk) 3 (by decide) ⟨true, rfl⟩
    | true => exact recurs_turn (P := fun x => ∃ scOk, x = .access true scOk) 2 (by decide) ⟨true, rfl⟩
  sc i t h := by
    unfold twoReaders at h
    split_ifs at h <;> cases h
  complete t := by
    cases t with
    | false => exact recurs_turn (P := fun x => x = .complete false) 5 (by decide) rfl
    | true => exact recurs_turn (P := fun x => x = .complete true) 4 (by decide) rfl
  ends := recurs_turn (P := fun x => ∃ status, x = .ends status) 6 (by decide) ⟨.readSuccess, rfl⟩
  isr q _ _ := recurs_turn (P := fun x => x = .isr q) 7 (by decide) rfl
  served := ⟨(), recurs_turn (P := fun x => x = .isr ()) 7 (by decide) rfl⟩

/-- A disk of blocks of 512 bytes, with caches of lines of 16 bytes that are not
coherent. -/
def disk : Setup where
  board := ⟨0x96000000, 512⟩
  noHardCc := true
  config := 0xC00
  overrun d _ := d

/-- Task `true` is in the loop, which has 32 passes. -/
theorem completes_twoReaders : ∃ j, Keeps disk 0 twoReaders true 19 j ∧ Completes disk 0 twoReaders true j := by
  have hpc : (run disk 0 twoReaders 19).task true = .invalidating 0 512 (iocConfig .read 0 0x1000 1) := by decide
  refine (completes_iff fair_twoReaders (by rw [hpc]; rfl)).mpr ?_
  rw [hpc]
  rintro ⟨i, size, ws, he, hfar⟩
  obtain ⟨-, rfl, -⟩ := Pc.invalidating.inj he
  exact absurd hfar (by decide)

end Fair

/-! ### The lock -/

/-- The task is in `_ioc_get_lock`. -/
def Pc.Wants (pc : Pc) : Prop := ∃ size writes, pc = .ll size writes ∨ pc = .sc size writes

/-- How many accesses the task is from the lock, if nobody comes before it. -/
def wantLeft (s : State T Q) (t : T) : ℕ :=
  match s.task t with
  | .ll _ _ => 2
  | .sc _ _ => if s.lock.link t = some () then 1 else 3
  | _ => 0

omit [DecidableEq Q] in
/-- Another task takes the lock, or it leaves the link alone. -/
theorem link_access_of_ne {u : T} {scOk : Bool} (hu : t ≠ u) (hout : (s.task u).holds = false) :
    ((access k s u scOk).task u).holds = true ∨ (access k s u scOk).lock.link t = s.lock.link t := by
  cases hpc : s.task u with
  | outside => exact .inr (by simp only [access, hpc])
  | checking c =>
    refine .inr ?_
    simp only [access, hpc]
    split <;> rfl
  | ll size ws =>
    refine .inr ?_
    simp only [access, hpc]
    exact Function.update_of_ne hu _ _
  | sc size ws =>
    cases hs : s.lock.scSucceeds u () scOk with
    | true =>
      refine .inl ?_
      have htask : (access k s u scOk).task u = .loop 0 size ws := by
        simp only [access, hpc, hs, ↓reduceIte]
        exact Function.update_self _ _ _
      rw [htask]
      exact Pc.loop_holds 0 size ws
    | false =>
      refine .inr ?_
      simp only [access, hpc, State.goTo, Mem.sc, hs, Bool.false_eq_true, ↓reduceIte]
      exact Function.update_of_ne hu _ _
  | invalidating i size ws | configuring ws | started | waiting | readStatus | rereadStatus | clearDone ret | clearLock ret =>
    rw [hpc] at hout
    cases hout

/-- The task comes nearer to the lock, or it is where it was. -/
def Approaches (s s' : State T Q) (t : T) (a : Act T Q) : Prop :=
  (s'.task t).Wants ∧
    (wantLeft s' t < wantLeft s t ∨ (wantLeft s' t = wantLeft s t ∧ ∀ scOk, a ≠ .access t scOk))

omit [DecidableEq T] [DecidableEq Q] in
theorem approaches_of_same {s' : State T Q} {a : Act T Q} (hw : (s.task t).Wants) (ht : s'.task t = s.task t)
    (hl : s'.lock.link t = s.lock.link t) (ha : ∀ scOk, a ≠ .access t scOk) : Approaches s s' t a := by
  refine ⟨by rwa [ht], .inr ⟨?_, ha⟩⟩
  unfold wantLeft
  rw [ht, hl]

/-- The task's own access. -/
theorem approaches_access (h : Follows s .free) (hw : (s.task t).Wants) :
    ((access k s t true).task t).holds = true ∨ Approaches s (access k s t true) t (.access t true) := by
  obtain ⟨size, ws, hpc | hpc⟩ := hw
  · have hv : ¬ s.lock.val () ≠ 0 := not_not.mpr h.lock
    have htask : (access k s t true).task t = .sc size ws := by
      simp only [access, hpc, if_neg hv]
      exact Function.update_self _ _ _
    have hlink : (access k s t true).lock.link t = some () := by
      simp only [access, hpc]
      exact Function.update_self _ _ _
    refine .inr ⟨⟨size, ws, .inr htask⟩, .inl ?_⟩
    unfold wantLeft
    rw [htask, hpc]
    show (if (access k s t true).lock.link t = some () then 1 else 3) < 2
    rw [if_pos hlink]
    exact Nat.lt_succ_self 1
  · cases hs : s.lock.scSucceeds t () true with
    | true =>
      refine .inl ?_
      have htask : (access k s t true).task t = .loop 0 size ws := by
        simp only [access, hpc, hs, ↓reduceIte]
        exact Function.update_self _ _ _
      rw [htask]
      exact Pc.loop_holds 0 size ws
    | false =>
      have htask : (access k s t true).task t = .ll size ws := by
        simp only [access, hpc, hs, Bool.false_eq_true, ↓reduceIte]
        exact Function.update_self _ _ _
      have hlink : s.lock.link t ≠ some () := by
        intro hl
        rw [Mem.scSucceeds, Bool.true_and, decide_eq_false_iff_not] at hs
        exact hs hl
      refine .inr ⟨⟨size, ws, .inl htask⟩, .inl ?_⟩
      unfold wantLeft
      rw [htask, hpc]
      show 2 < if s.lock.link t = some () then 1 else 3
      rw [if_neg hlink]
      exact Nat.lt_succ_self 2

omit [DecidableEq T] [DecidableEq Q] in
theorem Stage.exists_owner (h : g ≠ .free) : ∃ u, g.owner = some u := by
  cases g <;> first
    | exact absurd rfl h
    | exact ⟨_, rfl⟩

/-- Only accesses of tasks write to the lock. -/
theorem lock_of_next {a : Act T Q} (ha : ∀ u scOk, a ≠ .access u scOk) : (next k s a).lock = s.lock := by
  cases a with
  | access u scOk => exact absurd rfl (ha u scOk)
  | call u c | complete u | ends st =>
    simp only [next]
    split_ifs <;> rfl
  | isr q => exact (isrIoc_frame s q).2

/-- While the lock is free, a task that wants it comes nearer to it, until
someone has it. -/
theorem acquire (h : Follows s .free) (hw : (s.task t).Wants) {a : Act T Q} (hsc : ∀ u, a ≠ .access u false) :
    (∃ u, ((next k s a).task u).holds = true) ∨ (Follows (next k s a) .free ∧ Approaches s (next k s a) t a) := by
  obtain ⟨g', hf, -⟩ := follows_next (k := k) a h
  by_cases hfree : g' = .free
  · subst hfree
    by_cases ha : ∃ u scOk, a = .access u scOk
    · obtain ⟨u, scOk, rfl⟩ := ha
      obtain rfl : scOk = true := by
        by_contra hfalse
        exact hsc u (by rw [Bool.eq_false_of_not_eq_true hfalse])
      by_cases hu : t = u
      · subst hu
        rcases approaches_access (k := k) h hw with hh | happ
        · exact .inl ⟨t, hh⟩
        · exact .inr ⟨hf, happ⟩
      · have hout : (s.task u).holds = false := (h.place u).2 (fun he => by cases he)
        have hlink : ((access k s u true).task u).holds = true ∨ (access k s u true).lock.link t = s.lock.link t :=
          link_access_of_ne hu hout
        rcases hlink with hh | hl
        · exact .inl ⟨u, hh⟩
        · exact .inr ⟨hf, approaches_of_same hw (access_task_of_ne hu true) hl fun b hb => hu (Act.access.inj hb).1.symm⟩
    · have ha' : ∀ u scOk, a ≠ .access u scOk := fun u scOk he => ha ⟨u, scOk, he⟩
      refine .inr ⟨hf, approaches_of_same hw ?_ (by rw [lock_of_next ha']) (ha' t)⟩
      rcases task_of_next (k := k) (s := s) (t := t) a with hsame | ⟨c, -, hc, -⟩ | ⟨-, hc, -⟩ | ⟨scOk, he⟩
      · exact hsame
      · -- a task that wants the lock is in a call
        obtain ⟨size, ws, hpc | hpc⟩ := hw <;> cases hpc.symm.trans hc
      · obtain ⟨size, ws, hpc | hpc⟩ := hw <;> cases hpc.symm.trans hc
      · exact absurd he (ha' t scOk)
  · obtain ⟨u, hu⟩ := Stage.exists_owner hfree
    exact .inl ⟨u, hf.holds hu⟩

/-! ### Who can get stuck -/

/-- The call whose buffer a task invalidates. -/
def Pc.From (k : Setup) (P : Call → Prop) : Pc → Prop
  | .checking c => P c
  | .ll size _ | .sc size _ | .invalidating _ size _ =>
    ∃ c, P c ∧ size = k.invalidates c ∧ ∃ h, c.perform k.board = .ok h
  | _ => True

theorem Pc.loop_from {P : Call → Prop} {i size : Word} {ws : List (IocReg × Word)}
    (h : ∃ c, P c ∧ size = k.invalidates c ∧ ∃ h, c.perform k.board = .ok h) : (Pc.loop i size ws).From k P := by
  unfold Pc.loop
  split_ifs
  · exact h
  · trivial

omit [DecidableEq Q] in
theorem from_access {P : Call → Prop} {scOk : Bool} (h : (s.task t).From k P) :
    ((access k s t scOk).task t).From k P := by
  have hgo : ∀ {s' : State T Q} {pc : Pc}, pc.From k P → ((s'.goTo t pc).task t).From k P := by
    intro s' pc hpc
    have htask : (s'.goTo t pc).task t = pc := Function.update_self _ _ _
    rwa [htask]
  cases hpc : s.task t with
  | outside | started =>
    simp only [access, hpc]
    trivial
  | checking c =>
    rw [hpc] at h
    simp only [access, hpc]
    split
    · rename_i hok
      exact hgo ⟨c, h, rfl, _, hok⟩
    · exact hgo trivial
  | ll size ws =>
    rw [hpc] at h
    simp only [access, hpc]
    refine hgo ?_
    split_ifs <;> exact h
  | sc size ws =>
    rw [hpc] at h
    simp only [access, hpc]
    refine hgo ?_
    split_ifs
    · exact Pc.loop_from h
    · exact h
  | invalidating i size ws =>
    rw [hpc] at h
    simp only [access, hpc]
    exact hgo (Pc.loop_from h)
  | configuring ws =>
    cases ws with
    | nil =>
      simp only [access, hpc]
      exact hgo trivial
    | cons w ws =>
      simp only [access, hpc]
      refine hgo ?_
      split_ifs <;> trivial
  | waiting =>
    simp only [access, hpc]
    split_ifs
    · rw [hpc]
      trivial
    · exact hgo trivial
  | readStatus =>
    simp only [access, hpc]
    refine hgo ?_
    split_ifs <;> trivial
  | rereadStatus | clearDone ret | clearLock ret =>
    simp only [access, hpc]
    exact hgo trivial

theorem from_next {P : Call → Prop} {a : Act T Q} (hP : ∀ c, a = .call t c → P c) (h : (s.task t).From k P) :
    ((next k s a).task t).From k P := by
  rcases task_of_next (k := k) (s := s) (t := t) a with hsame | ⟨c, ha, -, hc⟩ | ⟨-, -, hc⟩ | ⟨scOk, rfl⟩
  · rwa [hsame]
  · rw [hc]
    exact hP c ha
  · rw [hc]
    trivial
  · exact from_access h

/-- The size that a call invalidates is 0, or the word of its length. -/
theorem invalidates_eq (k : Setup) (c : Call) : k.invalidates c = 0 ∨
    (k.noHardCc = true ∧ ∃ count, k.invalidates c = k.board.blockSize * count ∧
      (k.invalidates c).toNat = c.exactLength k.board % 2 ^ 32) := by
  cases c with
  | iocRead lba buffer count =>
    unfold Setup.invalidates
    split_ifs with hcc
    · exact .inr ⟨hcc, count, rfl, BitVec.toNat_mul _ _⟩
    · exact .inl rfl
  | fbSyncWrite offset buffer length | fbSyncRead offset buffer length | fbWrite offset buffer length
  | fbRead offset buffer length | iocWrite lba buffer count => exact .inl rfl

/-- A call gets stuck only if there is no hardware cache coherence, a block is no
whole number of lines, and the end of its buffer comes round. -/
theorem Stuck.comesRound {P : Call → Prop} {pc : Pc} (h : Stuck k pc) (hfrom : pc.From k P) :
    k.noHardCc = true ∧ ¬ (Dcache.lineSize k.config).toNat ∣ k.board.blockSize.toNat ∧
      ∃ c, P c ∧ c.ComesRound k.board := by
  obtain ⟨i, size, ws, rfl, hfar⟩ := h
  obtain ⟨c, hc, rfl, hand, hok⟩ := hfrom
  obtain ⟨r, hr, hL⟩ := Dcache.lineSize_toNat k.config
  have hle : 2 ^ r ≤ 2 ^ 8 := Nat.pow_le_pow_right (by decide) hr
  rw [hL] at hfar ⊢
  rcases invalidates_eq k c with hzero | ⟨hcc, count, hmul, hexact⟩
  · rw [hzero, show (0 : Word).toNat = 0 from rfl] at hfar
    omega
  refine ⟨hcc, fun hlines => ?_, c, hc, ?_⟩
  · -- a multiple of the line is no less than a line below 2^32
    have hdvd : 2 ^ r ∣ (k.invalidates c).toNat := by
      rw [hmul, BitVec.toNat_mul, Nat.dvd_mod_iff (pow_dvd_pow 2 (by omega))]
      exact dvd_mul_of_dvd_left hlines _
    have hround : 2 ^ r ∣ 2 ^ 32 - (k.invalidates c).toNat := Nat.dvd_sub (pow_dvd_pow 2 (by omega)) hdvd
    have hlt := (k.invalidates c).isLt
    have := Nat.le_of_dvd (by omega) hround
    omega
  · obtain ⟨hcheck, -⟩ := (Call.perform_eq_ok k.board).mp hok
    obtain ⟨hbuffer, hend⟩ := outsideUserSpace_eq_false.mp hcheck
    exact ⟨hbuffer, by omega, hend⟩

section Lock

variable {status : BitVec 8} {a : ℕ → Act T Q}

theorem not_stuck_run (hcalls : k.noHardCc = true → ¬ (Dcache.lineSize k.config).toNat ∣ k.board.blockSize.toNat →
    ∀ i u c, a i = .call u c → ¬ c.ComesRound k.board) (i : ℕ) (t : T) : ¬ Stuck k ((run k status a i).task t) := by
  have hfrom : ((run k status a i).task t).From k fun c => ∃ j u, a j = .call u c := by
    induction i with
    | zero => trivial
    | succ i ih => exact from_next (fun c hc => ⟨i, t, hc⟩) ih
  intro hst
  obtain ⟨hcc, hlines, c, ⟨j, u, hc⟩, hround⟩ := hst.comesRound hfrom
  exact hcalls hcc hlines j u c hc hround

/-- The lock is free, and task `t` is `m` accesses from it. -/
def Tries (k : Setup) (status : BitVec 8) (a : ℕ → Act T Q) (t : T) (m i : ℕ) : Prop :=
  Follows (run k status a i) .free ∧ ((run k status a i).task t).Wants ∧ wantLeft (run k status a i) t = m

theorem leadsTo_holds (hfair : Fair a) (t : T) (m : ℕ) :
    Temporal.LeadsTo (Tries k status a t m) fun i => ∃ u, ((run k status a i).task u).holds = true := by
  induction m using Nat.strong_induction_on with
  | _ m ih =>
    have hstep : Temporal.LeadsTo (Tries k status a t m) fun j =>
        (∃ u, ((run k status a j).task u).holds = true) ∨ ∃ m' < m, Tries k status a t m' j := by
      apply Temporal.LeadsTo.of_unless (hfair.access t)
      intro j hj
      obtain ⟨hf, hw, hm⟩ := hj
      rcases acquire (k := k) hf hw (hfair.sc j) with hh | ⟨hf', hw', hlt | ⟨heq, hnot⟩⟩
      · exact .inl ⟨j + 1, Nat.le_succ j, .inl hh⟩
      · exact .inl ⟨j + 1, Nat.le_succ j, .inr ⟨_, hm ▸ hlt, hf', hw', rfl⟩⟩
      · exact .inr ⟨⟨hf', hw', heq.trans hm⟩, fun hacc => hacc.elim hnot⟩
    intro i hi
    obtain ⟨j, hij, hh | ⟨m', hlt, hj⟩⟩ := hstep i hi
    · exact ⟨j, hij, hh⟩
    · obtain ⟨l, hjl, hh⟩ := ih m' hlt j hj
      exact ⟨l, hij.trans hjl, hh⟩

/-- **The device serves who wants it.** In every fair run in which no call can
get stuck: after any time at which some task is in `_ioc_get_lock`, a task
completes its own transfer, this one or another. No call can get stuck with
hardware cache coherence, or with blocks of whole lines, or if no call's end
comes round. -/
theorem device_serves (hfair : Fair a)
    (hcalls : k.noHardCc = true → ¬ (Dcache.lineSize k.config).toNat ∣ k.board.blockSize.toNat →
      ∀ i u c, a i = .call u c → ¬ c.ComesRound k.board)
    {i : ℕ} (hw : ((run k status a i).task t).Wants) : ∃ j, i ≤ j ∧ ∃ u, Completes k status a u j := by
  obtain ⟨g, -, hf, -⟩ := follows_run (k := k) status a i
  obtain ⟨j, hij, u, hu⟩ : ∃ j, i ≤ j ∧ ∃ u, ((run k status a j).task u).holds = true := by
    by_cases hfree : g = .free
    · rw [hfree] at hf
      exact leadsTo_holds hfair t _ i ⟨hf, hw, rfl⟩
    · obtain ⟨u, hu⟩ := Stage.exists_owner hfree
      exact ⟨i, le_rfl, u, hf.holds hu⟩
  obtain ⟨l, hkeeps, hl⟩ := completes_of_holds hfair hu (not_stuck_run hcalls j u)
  exact ⟨l, hij.trans hkeeps.1, u, hl⟩

/-- Task `false` wants the lock while task `true` is in the loop, with it. -/
theorem device_serves_twoReaders : ∃ j, 20 ≤ j ∧ ∃ u, Completes disk 0 twoReaders u j := by
  have hpc : (run disk 0 twoReaders 20).task false = .ll 512 (iocConfig .read 1 0x2000 1) := by decide
  exact device_serves (t := false) fair_twoReaders (fun _ hlines => absurd (by decide) hlines) ⟨_, _, .inl hpc⟩

end Lock

end Ioc
end Giet
end Smc
