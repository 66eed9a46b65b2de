/-
# The block device, shared by all tasks

`_ioc_read`, `_ioc_write` and `_ioc_completed` (`giet_2011/sys/drivers.c`)
with `_isr_ioc` (`giet_2011/sys/irq_handler.c`). A call takes `_ioc_lock` with
`ll` and `sc`, programs the device and returns (without hardware cache
coherence, `NO_HARD_CC`, `_ioc_read` first invalidates its buffer in the data
cache, with the lock held); the device ends the transfer and raises its interrupt; the interrupt routine, on some processor, stores the
status and then sets `_ioc_done`; `_ioc_completed` waits for it, looks at the
status, clears `_ioc_done` and then `_ioc_lock`.

Tasks, interrupt routines and device go on in any order, one access at a time.
A task's link lasts from its `ll` to its next `eret` at most, so links are
per task.

Seen from above there is one server that takes one transfer at a time
(`Stage`), and every step of the code is a step of it or none (`follows_next`).

Key definitions: `next`, `events`, `Stage`, `Follows`, `Correct`.
Key theorems: `follows_next`, `ioc_protocol`.
-/
import Smc.Lib.Clocked
import Smc.Lib.LlSc
import Smc.Giet.Dcache

namespace Smc
namespace Giet
namespace Ioc

open Drivers

/-- The device: it holds the status of a transfer from its end until
`BLOCK_DEVICE_STATUS` is read. -/
inductive Device where
  | idle
  | busy
  | ended (status : IocStatus)
deriving DecidableEq, Repr

/-- Where a task is: its next access, with the register writes it has still
to make, and before them the number of bytes it has to invalidate. -/
inductive Pc where
  | outside
  /-- before the parameters check -/
  | checking (c : Call)
  | ll (size : Word) (writes : List (IocReg × Word))
  | sc (size : Word) (writes : List (IocReg × Word))
  /-- in the loop of `_dcache_buf_invalidate`, at index `i` -/
  | invalidating (i size : Word) (writes : List (IocReg × Word))
  | configuring (writes : List (IocReg × Word))
  /-- the call has returned 0 -/
  | started
  /-- in the waiting loop of `_ioc_completed` -/
  | waiting
  | readStatus
  | rereadStatus
  | clearDone (ret : Word)
  | clearLock (ret : Word)
deriving DecidableEq, Repr

/-- Where a processor is in `_isr_ioc`. -/
inductive Isr where
  | out
  | storeStatus (status : IocStatus)
  | storeDone
deriving DecidableEq, Repr

/-- The value of a status in `_ioc_status`. -/
def code : IocStatus → BitVec 8
  | .idle => 0
  | .busy => 1
  | .readSuccess => 2
  | .writeSuccess => 3
  | .readError => 4
  | .writeError => 5
  | .error => 6

/-- What `_ioc_completed` is to return for a transfer: 0 if it has succeeded. -/
def result (status : IocStatus) : Word := if status = .readSuccess ∨ status = .writeSuccess then 0 else 1

/-- `_ioc_lock`, `_ioc_done` and `_ioc_status`, the device, the tasks and the
processors. -/
structure State (T Q : Type) where
  lock : Mem Unit T Word
  iocDone : BitVec 8
  iocStatus : BitVec 8
  device : Device
  task : T → Pc
  isr : Q → Isr

/-- The board, whether there is no hardware cache coherence (`NO_HARD_CC`), the
configuration register of the caches, and what the device makes of an operation
written while it is not idle. -/
structure Setup where
  board : Board
  noHardCc : Bool
  config : Word
  overrun : Device → Word → Device

/-- The size that `_ioc_read` gives to `_dcache_buf_invalidate`. -/
def Setup.invalidates (k : Setup) : Call → Word
  | .iocRead _ _ count => if k.noHardCc then k.board.blockSize * count else 0
  | _ => 0

/-- The loop of `_dcache_buf_invalidate` from an index on, and what follows it. -/
def Pc.loop (i size : Word) (writes : List (IocReg × Word)) : Pc :=
  if i < size then .invalidating i size writes else .configuring writes

inductive Act (T Q : Type) where
  /-- a task calls `_ioc_read` or `_ioc_write` -/
  | call (t : T) (c : Call)
  /-- a task whose call has returned 0 calls `_ioc_completed` -/
  | complete (t : T)
  /-- a task makes its next access; `scOk` lets a store-conditional succeed -/
  | access (t : T) (scOk : Bool)
  /-- the transfer ends and the device raises its interrupt -/
  | ends (status : IocStatus)
  /-- a processor makes its next access in `_isr_ioc`, and enters it for an
  interrupt -/
  | isr (q : Q)
deriving DecidableEq

inductive Event (T : Type) where
  | started (t : T)
  | ended (status : IocStatus)
  | completed (t : T) (ret : Word)
deriving DecidableEq

section Machine

variable {T Q : Type} [DecidableEq T] [DecidableEq Q] (k : Setup)

/-- `BLOCK_DEVICE_OP` starts the transfer. -/
def write (d : Device) (r : IocReg) (v : Word) : Device :=
  match r with
  | .op => if d = .idle then .busy else k.overrun d v
  | _ => d

def State.goTo (s : State T Q) (t : T) (pc : Pc) : State T Q := { s with task := Function.update s.task t pc }

/-- The next access of task `t`. -/
def access (s : State T Q) (t : T) (scOk : Bool) : State T Q :=
  match s.task t with
  | .outside | .started => s
  | .checking c =>
    match c.perform k.board with
    | .ok (.ioc writes) => s.goTo t (.ll (k.invalidates c) writes)
    | _ => s.goTo t .outside
  | .ll size writes =>
    { s with lock := s.lock.ll t () }.goTo t (if s.lock.val () ≠ 0 then .ll size writes else .sc size writes)
  | .sc size writes =>
    { s with lock := s.lock.sc t () 1 scOk }.goTo t
      (if s.lock.scSucceeds t () scOk then .loop 0 size writes else .ll size writes)
  | .invalidating i size writes => s.goTo t (.loop (i + Dcache.lineSize k.config) size writes)
  | .configuring [] => s.goTo t .started
  | .configuring ((r, v) :: writes) =>
    { s with device := write k s.device r v }.goTo t (if writes = [] then .started else .configuring writes)
  | .waiting => if s.iocDone = 0 then s else s.goTo t .readStatus
  | .readStatus => s.goTo t (if s.iocStatus ≠ code .readSuccess then .rereadStatus else .clearDone 0)
  | .rereadStatus => s.goTo t (.clearDone (if s.iocStatus ≠ code .writeSuccess then 1 else 0))
  | .clearDone ret => { s with iocDone := 0 }.goTo t (.clearLock ret)
  | .clearLock _ => { s with lock := s.lock.store () 0 }.goTo t .outside

/-- The next access of processor `q` in `_isr_ioc`. -/
def isrIoc (s : State T Q) (q : Q) : State T Q :=
  match s.isr q with
  | .out =>
    match s.device with
    | .ended status => { s with device := .idle, isr := Function.update s.isr q (.storeStatus status) }
    | _ => s
  | .storeStatus status => { s with iocStatus := code status, isr := Function.update s.isr q .storeDone }
  | .storeDone => { s with iocDone := 1, isr := Function.update s.isr q .out }

/-- The state after an action; one that cannot happen changes nothing. -/
def next (s : State T Q) : Act T Q → State T Q
  | .call t c => if s.task t = .outside then s.goTo t (.checking c) else s
  | .complete t => if s.task t = .started then s.goTo t .waiting else s
  | .access t scOk => access k s t scOk
  | .ends status => if s.device = .busy then { s with device := .ended status } else s
  | .isr q => isrIoc s q

def events (s : State T Q) : Act T Q → List (Event T)
  | .access t _ =>
    match s.task t with
    | .configuring ((.op, _) :: _) => [.started t]
    | .clearLock ret => [.completed t ret]
    | _ => []
  | .ends status => if s.device = .busy then [.ended status] else []
  | _ => []

def init (status : BitVec 8) : State T Q where
  lock := ⟨fun _ => 0, fun _ => none⟩
  iocDone := 0
  iocStatus := status
  device := .idle
  task _ := .outside
  isr _ := .out

def run (status : BitVec 8) (a : ℕ → Act T Q) : ℕ → State T Q := Clocked.run (next k) (init status) a

def trace (status : BitVec 8) (a : ℕ → Act T Q) : ℕ → List (Event T) :=
  Clocked.log (next k) events (init status) a

end Machine

/-! ### What the protocol promises -/

/-- The task is between taking `_ioc_lock` and releasing it. -/
def Pc.holds : Pc → Bool
  | .invalidating _ _ _ | .configuring _ | .started | .waiting | .readStatus | .rereadStatus | .clearDone _
  | .clearLock _ => true
  | .outside | .checking _ | .ll _ _ | .sc _ _ => false

/-- A transfer from its start to its completion. -/
structure Round (T : Type) where
  task : T
  status : IocStatus

/-- The task that starts a transfer completes it, with the result of its status. -/
def Round.events {T : Type} (r : Round T) : List (Event T) :=
  [.started r.task, .ended r.status, .completed r.task (result r.status)]

section Promise

variable {T Q : Type}

/-- The status of a transfer that has ended is on its way to the task: in the
device, in an interrupt routine, in `_ioc_status`, or in the task. -/
inductive OnItsWay (s : State T Q) (t : T) (status : IocStatus) : Prop where
  | device (h : s.device = .ended status)
  | read (q : Q) (h : s.isr q = .storeStatus status)
  | stored (q : Q) (h : s.isr q = .storeDone) (hs : s.iocStatus = code status)
  | signalled (h : s.iocDone = 1) (hs : s.iocStatus = code status)
  | returned (h : s.task t = .clearLock (result status))

/-- What has been seen since the last completion. -/
inductive Opened (s : State T Q) : List (Event T) → Prop where
  | none : Opened s []
  | running (t : T) (holds : (s.task t).holds) (device : s.device = .busy) : Opened s [.started t]
  | ended (t : T) (status : IocStatus) (holds : (s.task t).holds) (way : OnItsWay s t status) :
      Opened s [.started t, .ended status]

/-- The promise of the protocol, in a state `s` reached with the trace `l`. -/
structure Correct (s : State T Q) (l : List (Event T)) : Prop where
  /-- at most one task is between taking and releasing the lock -/
  one : ∀ t u, (s.task t).holds → (s.task u).holds → t = u
  /-- no register is written during a transfer -/
  quiet : ∀ t writes, s.task t = .configuring writes → s.device = .idle
  /-- every completion goes to the task that has started the transfer, once -/
  rounds : ∃ (rs : List (Round T)) (l' : List (Event T)), l = rs.flatMap Round.events ++ l' ∧ Opened s l'

/-- The lock, the flags, the device and the interrupt routines are as they were. -/
structure Same (s s' : State T Q) : Prop where
  lock : s'.lock = s.lock
  done : s'.iocDone = s.iocDone
  status : s'.iocStatus = s.iocStatus
  device : s'.device = s.device
  isr : s'.isr = s.isr

end Promise

/-! ### One transfer at a time -/

/-- The block device as a server of one transfer at a time. -/
inductive Stage (T Q : Type) where
  | free
  | held (t : T)
  | running (t : T)
  | ended (t : T) (status : IocStatus)
  /-- the interrupt routine has read the status -/
  | loading (t : T) (q : Q) (status : IocStatus)
  /-- the interrupt routine has stored the status -/
  | storing (t : T) (q : Q) (status : IocStatus)
  | signalled (t : T) (status : IocStatus)
  /-- the task has cleared `_ioc_done` -/
  | cleared (t : T) (status : IocStatus)

namespace Stage

variable {T Q : Type} [DecidableEq Q]

def owner : Stage T Q → Option T
  | .free => none
  | .held t | .running t | .ended t _ | .loading t _ _ | .storing t _ _ | .signalled t _ | .cleared t _ => some t

def lock : Stage T Q → Word
  | .free => 0
  | _ => 1

def done : Stage T Q → BitVec 8
  | .signalled _ _ => 1
  | _ => 0

def device : Stage T Q → Device
  | .running _ => .busy
  | .ended _ status => .ended status
  | _ => .idle

def isr : Stage T Q → Q → Isr
  | .loading _ q status => Function.update (fun _ => .out) q (.storeStatus status)
  | .storing _ q _ => Function.update (fun _ => .out) q .storeDone
  | _ => fun _ => .out

/-- The status that stands in `_ioc_status`. -/
def stored : Stage T Q → Option IocStatus
  | .storing _ _ status | .signalled _ status => some status
  | _ => none

/-- Where the owner of the lock can be. -/
def Fits : Stage T Q → Pc → Prop
  | .free, _ => False
  | .held _, pc => (∃ i size writes, pc = .invalidating i size writes) ∨ ∃ writes, pc = .configuring writes
  | .running _, pc | .ended _ _, pc | .loading _ _ _, pc | .storing _ _ _, pc => pc = .started ∨ pc = .waiting
  | .signalled _ status, pc => pc = .started ∨ pc = .waiting ∨ pc = .readStatus ∨
      (pc = .rereadStatus ∧ status ≠ .readSuccess) ∨ pc = .clearDone (result status)
  | .cleared _ status, pc => pc = .clearLock (result status)

/-- What has been seen of the transfer under way. -/
def seen : Stage T Q → List (Event T)
  | .free | .held _ => []
  | .running t => [.started t]
  | .ended t status | .loading t _ status | .storing t _ status | .signalled t status | .cleared t status =>
    [.started t, .ended status]

/-- The place of a task: the owner is where the stage says, the others do not
hold the lock. -/
def Place (g : Stage T Q) (t : T) (pc : Pc) : Prop :=
  (g.owner = some t → g.Fits pc) ∧ (g.owner ≠ some t → pc.holds = false)

end Stage

/-- The register writes that a call has still to make. -/
def Pc.writes : Pc → Option (List (IocReg × Word))
  | .ll _ writes | .sc _ writes | .invalidating _ _ writes | .configuring writes => some writes
  | _ => none

/-- The writes of a call are the end of a configuration that starts a transfer. -/
def Pc.Programs (pc : Pc) : Prop :=
  ∀ writes, pc.writes = some writes →
    writes ≠ [] ∧ ∃ op lba buffer count, writes <:+ iocConfig op lba buffer count

/-- The state of the code is one of the stage. -/
structure Follows {T Q : Type} [DecidableEq Q] (s : State T Q) (g : Stage T Q) : Prop where
  lock : s.lock.val () = g.lock
  done : s.iocDone = g.done
  device : s.device = g.device
  isr : s.isr = g.isr
  status : ∀ status, g.stored = some status → s.iocStatus = code status
  place : ∀ t, g.Place t (s.task t)
  linked : ∀ t size writes, s.task t = .sc size writes → s.lock.Linked t () 0
  programs : ∀ t, (s.task t).Programs

/-- A step of the server, with what is seen of it: something is seen when a
transfer starts, ends or is completed. -/
inductive Serves {T Q : Type} : Stage T Q → List (Event T) → Stage T Q → Prop where
  | same (g g' : Stage T Q) (h : g.seen = g'.seen) : Serves g [] g'
  | starts (t : T) : Serves (.held t) [.started t] (.running t)
  | ends (t : T) (status : IocStatus) : Serves (.running t) [.ended status] (.ended t status)
  | completes (t : T) (status : IocStatus) : Serves (.cleared t status) [.completed t (result status)] .free

/-! ### What a stage says -/

section Stages

variable {T Q : Type} {s : State T Q} {g g' : Stage T Q} {t : T}

theorem Stage.Fits.holds {pc : Pc} (h : g.Fits pc) : pc.holds = true := by
  cases g with
  | free => exact h.elim
  | held t => rcases h with ⟨i, size, ws, rfl⟩ | ⟨ws, rfl⟩ <;> rfl
  | running t | ended t st | loading t q st | storing t q st => rcases h with rfl | rfl <;> rfl
  | signalled t st => rcases h with rfl | rfl | rfl | ⟨rfl, -⟩ | rfl <;> rfl
  | cleared t st =>
    obtain rfl := h
    rfl

/-- A task other than the owner can be anywhere out of the lock. -/
theorem Stage.place_of_ne {pc : Pc} (hg : g.owner ≠ some t) (hpc : pc.holds = false) : g.Place t pc :=
  ⟨fun h => absurd h hg, fun _ => hpc⟩

theorem Stage.place_of_eq {pc : Pc} (hg : g.owner = some t) (hpc : g.Fits pc) : g.Place t pc :=
  ⟨fun _ => hpc, fun h => absurd hg h⟩

theorem Stage.lock_eq_zero : g.lock = 0 ↔ g = .free := by
  cases g <;> simp [Stage.lock]

theorem Stage.serves_self : Serves g [] g := .same g g rfl

/-- What is seen from a stage to the next completes the rounds. -/
theorem Serves.rounds {es : List (Event T)} (rs : List (Round T)) (h : Serves g es g') :
    ∃ rs' : List (Round T), rs.flatMap Round.events ++ g.seen ++ es = rs'.flatMap Round.events ++ g'.seen := by
  cases h with
  | same _ _ hs => exact ⟨rs, by rw [hs, List.append_nil]⟩
  | starts t => exact ⟨rs, by simp [Stage.seen]⟩
  | ends t st => exact ⟨rs, by simp [Stage.seen]⟩
  | completes t st => exact ⟨rs ++ [⟨t, st⟩], by simp [Stage.seen, Round.events]⟩

/-- An access of a task at which nothing is seen. -/
theorem events_access {scOk : Bool} (h1 : ∀ ws, s.task t ≠ .configuring ws) (h2 : ∀ ret, s.task t ≠ .clearLock ret) :
    events s (.access t scOk) = [] := by
  simp only [events]
  split
  · rename_i he
    exact absurd he (h1 _)
  · rename_i he
    exact absurd he (h2 _)
  · rfl

theorem Pc.loop_fits (i size : Word) (ws : List (IocReg × Word)) : (Stage.held t : Stage T Q).Fits (.loop i size ws) := by
  unfold Pc.loop
  split_ifs
  · exact .inl ⟨i, size, ws, rfl⟩
  · exact .inr ⟨ws, rfl⟩

variable [DecidableEq Q]

theorem Stage.loading_of_isr {q : Q} {status : IocStatus} (h : g.isr q = .storeStatus status) :
    ∃ u, g = .loading u q status := by
  cases g with
  | loading u r st =>
    simp only [Stage.isr, Function.update_apply] at h
    split_ifs at h with hr
    obtain rfl : st = status := by simpa using h
    exact ⟨u, by rw [hr]⟩
  | storing u r st =>
    simp only [Stage.isr, Function.update_apply] at h
    split_ifs at h
  | free | held u | running u | ended u st | signalled u st | cleared u st => cases h

theorem Stage.storing_of_isr {q : Q} (h : g.isr q = .storeDone) : ∃ u st, g = .storing u q st := by
  cases g with
  | loading u r st =>
    simp only [Stage.isr, Function.update_apply] at h
    split_ifs at h
  | storing u r st =>
    simp only [Stage.isr, Function.update_apply] at h
    split_ifs at h with hr
    exact ⟨u, st, by rw [hr]⟩
  | free | held u | running u | ended u st | signalled u st | cleared u st => cases h

theorem Follows.owner_of_holds (h : Follows s g) (ht : (s.task t).holds = true) : g.owner = some t := by
  by_contra hne
  rw [(h.place t).2 hne] at ht
  cases ht

theorem Follows.owner_ne (h : Follows s g) (ht : (s.task t).holds = false) : g.owner ≠ some t := by
  intro howner
  rw [((h.place t).1 howner).holds] at ht
  cases ht

theorem Follows.held (h : Follows s g) (hpc : (∃ i size ws, s.task t = .invalidating i size ws) ∨
    ∃ ws, s.task t = .configuring ws) : g = .held t := by
  have hh : (s.task t).holds = true := by
    rcases hpc with ⟨i, size, ws, hpc⟩ | ⟨ws, hpc⟩ <;> rw [hpc] <;> rfl
  have howner : g.owner = some t := h.owner_of_holds hh
  have hfits := (h.place t).1 howner
  rcases hpc with ⟨i, size, ws, hpc⟩ | ⟨ws, hpc⟩ <;> rw [hpc] at hfits <;> cases g <;>
    simp_all [Stage.owner, Stage.Fits]

theorem Follows.signalled (h : Follows s g) (hh : (s.task t).holds = true)
    (hpc : s.task t = .readStatus ∨ s.task t = .rereadStatus ∨ ∃ ret, s.task t = .clearDone ret) :
    ∃ st, g = .signalled t st := by
  have howner : g.owner = some t := h.owner_of_holds hh
  have hfits := (h.place t).1 howner
  rcases hpc with hpc | hpc | ⟨ret, hpc⟩ <;> rw [hpc] at hfits <;> cases g <;> simp_all [Stage.owner, Stage.Fits]

theorem Pc.programs_of_none {pc : Pc} (h : pc.writes = none) : pc.Programs := by
  intro ws hpc
  rw [h] at hpc
  cases hpc

/-- The writes a task has still to make are those of its place. -/
theorem Pc.programs_of_writes {pc : Pc} {ws : List (IocReg × Word)} (hpc : pc.writes = some ws)
    (h : ws ≠ [] ∧ ∃ op lba buffer count, ws <:+ iocConfig op lba buffer count) : pc.Programs := by
  intro ws' hpc'
  obtain rfl := Option.some.inj (hpc.symm.trans hpc')
  exact h

theorem Pc.loop_writes (i size : Word) (ws : List (IocReg × Word)) : (Pc.loop i size ws).writes = some ws := by
  unfold Pc.loop
  split_ifs <;> rfl

theorem Pc.loop_ne_sc (i size : Word) (ws : List (IocReg × Word)) (size' : Word) (ws' : List (IocReg × Word)) :
    Pc.loop i size ws ≠ .sc size' ws' := by
  unfold Pc.loop
  split_ifs <;> exact Pc.noConfusion

theorem follows_init (status : BitVec 8) : Follows (init status : State T Q) .free where
  lock := rfl
  done := rfl
  device := rfl
  isr := rfl
  status := nofun
  place t := Stage.place_of_ne nofun rfl
  linked t size ws h := by cases h
  programs t := Pc.programs_of_none rfl

/-- In every stage the status of an ended transfer is kept for its task. -/
theorem Follows.opened (h : Follows s g) : Opened s g.seen := by
  have hholds : ∀ t, g.owner = some t → (s.task t).holds = true := fun t ht => ((h.place t).1 ht).holds
  cases g with
  | free | held t => exact .none
  | running t => exact .running t (hholds t rfl) h.device
  | ended t st => exact .ended t st (hholds t rfl) (.device h.device)
  | loading t q st =>
    refine .ended t st (hholds t rfl) (.read q ?_)
    rw [h.isr]
    simp [Stage.isr]
  | storing t q st =>
    refine .ended t st (hholds t rfl) (.stored q ?_ (h.status st rfl))
    rw [h.isr]
    simp [Stage.isr]
  | signalled t st => exact .ended t st (hholds t rfl) (.signalled h.done (h.status st rfl))
  | cleared t st => exact .ended t st (hholds t rfl) (.returned ((h.place t).1 rfl))

theorem Follows.correct {rs : List (Round T)} (h : Follows s g) :
    Correct s (rs.flatMap Round.events ++ g.seen) where
  one t u ht hu := by
    have he : some t = some u := by rw [← h.owner_of_holds ht, h.owner_of_holds hu]
    exact Option.some.inj he
  quiet t ws hpc := by
    obtain rfl := h.held (.inr ⟨ws, hpc⟩)
    exact h.device
  rounds := ⟨rs, g.seen, rfl, h.opened⟩

end Stages

/-! ### The code follows the server -/

section Simulation

variable {T Q : Type} [DecidableEq T] [DecidableEq Q] {k : Setup} {s : State T Q} {g g' : Stage T Q} {t : T}

/-- The other tasks keep their place while the lock is free, `t`'s, or as before. -/
theorem Follows.place_goTo {pc : Pc} (h : Follows s g)
    (hg : g' = g ∨ ((g.owner = none ∨ g.owner = some t) ∧ (g'.owner = none ∨ g'.owner = some t)))
    (ht : g'.Place t pc) (u : T) : g'.Place u (Function.update s.task t pc u) := by
  by_cases hu : u = t
  · rw [hu, Function.update_self]
    exact ht
  · rw [Function.update_of_ne hu]
    rcases hg with rfl | ⟨hg, hg'⟩
    · exact h.place u
    · have hne : ∀ o : Option T, o = none ∨ o = some t → o ≠ some u := by
        rintro o (rfl | rfl)
        · nofun
        · exact fun he => hu (Option.some.inj he).symm
      exact Stage.place_of_ne (hne _ hg') ((h.place u).2 (hne _ hg))

theorem Follows.programs_goTo {pc : Pc} (h : Follows s g) (ht : pc.Programs) (u : T) :
    (Function.update s.task t pc u).Programs := by
  by_cases hu : u = t
  · rw [hu, Function.update_self]
    exact ht
  · rw [Function.update_of_ne hu]
    exact h.programs u

/-- The links after an access that keeps those of the other tasks. -/
theorem Follows.linked_goTo {pc : Pc} {m : Mem Unit T Word} (h : Follows s g)
    (hm : ∀ u, u ≠ t → s.lock.Linked u () 0 → m.Linked u () 0) (ht : ∀ size ws, pc = .sc size ws → m.Linked t () 0)
    (u : T) (size : Word) (ws : List (IocReg × Word)) (hu : Function.update s.task t pc u = .sc size ws) :
    m.Linked u () 0 := by
  by_cases hut : u = t
  · rw [hut, Function.update_self] at hu
    rw [hut]
    exact ht size ws hu
  · rw [Function.update_of_ne hut] at hu
    exact hm u hut (h.linked u size ws hu)

/-- A task makes an access that is none to the lock, the flags or the device. -/
theorem Follows.goTo {pc : Pc} (h : Follows s g) (hp : g.Place t pc) (hpc : ∀ size ws, pc ≠ .sc size ws)
    (hw : pc.Programs) :
    Follows (s.goTo t pc) g where
  lock := h.lock
  done := h.done
  device := h.device
  isr := h.isr
  status := h.status
  place := h.place_goTo (.inl rfl) hp
  linked := h.linked_goTo (fun _ _ hl => hl) (fun size ws he => absurd he (hpc size ws))
  programs := h.programs_goTo hw

/-- A call that gets to the block device has one of its configurations to write. -/
theorem perform_eq_ioc {c : Call} {b : Board} {ws : List (IocReg × Word)} (h : c.perform b = .ok (.ioc ws)) :
    ∃ op lba buffer count, ws = iocConfig op lba buffer count := by
  have hc := ((Call.perform_eq_ok b).mp h).2
  cases c <;> simp only [Call.handed, Handed.ioc.injEq, reduceCtorEq] at hc
  all_goals exact ⟨_, _, _, _, hc.symm⟩

/-- `BLOCK_DEVICE_OP` is the last register of a configuration. -/
theorem op_iff_last {r : IocReg} {v lba buffer count : Word} {op : IocOp} {ws : List (IocReg × Word)}
    (h : (r, v) :: ws <:+ iocConfig op lba buffer count) : r = .op ↔ ws = [] :=
  eq_last_iff [(.buffer, buffer), (.count, count), (.lba, lba), (.irqEnable, 1)] (by simp) h

theorem code_inj {a b : IocStatus} : code a = code b ↔ a = b := by
  cases a <;> cases b <;> decide

theorem follows_checking {c : Call} {scOk : Bool} (h : Follows s g) (hpc : s.task t = .checking c) :
    Follows (access k s t scOk) g := by
  have hne : g.owner ≠ some t := h.owner_ne (by rw [hpc]; rfl)
  simp only [access, hpc]
  split
  · rename_i ws hok
    obtain ⟨op, lba, buffer, count, rfl⟩ := perform_eq_ioc hok
    refine h.goTo (Stage.place_of_ne hne rfl) nofun ?_
    exact Pc.programs_of_writes rfl ⟨nofun, op, lba, buffer, count, List.suffix_rfl⟩
  · exact h.goTo (Stage.place_of_ne hne rfl) nofun (Pc.programs_of_none rfl)

theorem follows_ll {size : Word} {ws : List (IocReg × Word)} {scOk : Bool} (h : Follows s g)
    (hpc : s.task t = .ll size ws) : Follows (access k s t scOk) g := by
  have hne : g.owner ≠ some t := h.owner_ne (by rw [hpc]; rfl)
  have hws := h.programs t ws (congrArg Pc.writes hpc)
  simp only [access, hpc]
  constructor
  · exact h.lock
  · exact h.done
  · exact h.device
  · exact h.isr
  · exact h.status
  · apply h.place_goTo (.inl rfl)
    apply Stage.place_of_ne hne
    split_ifs <;> rfl
  · apply h.linked_goTo
    · exact fun u hu hl => hl.of_ll hu
    · intro size' ws' he hlink
      split_ifs at he with hv
      exact not_not.mp hv
  · apply h.programs_goTo
    split_ifs <;> exact Pc.programs_of_writes rfl hws

/-- A store-conditional that succeeds finds the lock free. -/
theorem follows_sc {size : Word} {ws : List (IocReg × Word)} {scOk : Bool} (h : Follows s g)
    (hpc : s.task t = .sc size ws) : ∃ g', Follows (access k s t scOk) g' ∧ Serves g [] g' := by
  have hne : g.owner ≠ some t := h.owner_ne (by rw [hpc]; rfl)
  have hws := h.programs t ws (congrArg Pc.writes hpc)
  simp only [access, hpc]
  cases hs : s.lock.scSucceeds t () scOk with
  | true =>
    have hfree : g = .free := by
      have hval := (h.linked t size ws hpc).val_of_succeeds hs
      exact Stage.lock_eq_zero.mp (h.lock ▸ hval)
    subst hfree
    refine ⟨.held t, ?_, .same _ _ rfl⟩
    simp only [↓reduceIte]
    constructor
    · rw [State.goTo, Mem.sc_of_succeeds 1 hs]
      exact Mem.store_val_self () 1
    · exact h.done
    · exact h.device
    · exact h.isr
    · nofun
    · exact h.place_goTo (.inr ⟨.inl rfl, .inr rfl⟩) (Stage.place_of_eq rfl (Pc.loop_fits 0 size ws))
    · apply h.linked_goTo
      · exact fun u hu hl => hl.of_sc
      · exact fun size' ws' he => absurd he (Pc.loop_ne_sc 0 size ws size' ws')
    · exact h.programs_goTo (Pc.programs_of_writes (Pc.loop_writes 0 size ws) hws)
  | false =>
    refine ⟨g, ?_, .same _ _ rfl⟩
    simp only [Bool.false_eq_true, ↓reduceIte]
    constructor
    · rw [State.goTo, Mem.sc_val_of_fails 1 hs]
      exact h.lock
    · exact h.done
    · exact h.device
    · exact h.isr
    · exact h.status
    · exact h.place_goTo (.inl rfl) (Stage.place_of_ne hne rfl)
    · apply h.linked_goTo
      · exact fun u hu hl => hl.of_sc
      · nofun
    · exact h.programs_goTo (Pc.programs_of_writes rfl hws)

/-- The loop of `_dcache_buf_invalidate` is out of sight of the device. -/
theorem follows_invalidating {i size : Word} {ws : List (IocReg × Word)} {scOk : Bool} (h : Follows s g)
    (hpc : s.task t = .invalidating i size ws) : Follows (access k s t scOk) g := by
  obtain rfl := h.held (.inl ⟨i, size, ws, hpc⟩)
  simp only [access, hpc]
  exact h.goTo (Stage.place_of_eq rfl (Pc.loop_fits _ size ws)) (Pc.loop_ne_sc _ size ws)
    (Pc.programs_of_writes (Pc.loop_writes _ size ws) (h.programs t ws (congrArg Pc.writes hpc)))

/-- The writes of a configuration: the last one starts the transfer. -/
theorem follows_configuring {r : IocReg} {v : Word} {ws : List (IocReg × Word)} {scOk : Bool} (h : Follows s g)
    (hpc : s.task t = .configuring ((r, v) :: ws)) :
    ∃ g', Follows (access k s t scOk) g' ∧ Serves g (events s (.access t scOk)) g' := by
  obtain rfl := h.held (.inr ⟨_, hpc⟩)
  obtain ⟨-, op, lba, buffer, count, hsuf⟩ := h.programs t _ (congrArg Pc.writes hpc)
  have hlast := op_iff_last hsuf
  simp only [access, hpc, events]
  by_cases hws : ws = []
  · obtain rfl := hlast.mpr hws
    refine ⟨.running t, ?_, .starts t⟩
    rw [if_pos hws]
    constructor
    · exact h.lock
    · exact h.done
    · show write k s.device .op v = .busy
      rw [write, h.device]
      rfl
    · exact h.isr
    · nofun
    · exact h.place_goTo (.inr ⟨.inr rfl, .inr rfl⟩) (Stage.place_of_eq rfl (.inl rfl))
    · exact h.linked_goTo (fun _ _ hl => hl) nofun
    · exact h.programs_goTo (Pc.programs_of_none rfl)
  · have hr : r ≠ .op := fun he => hws (hlast.mp he)
    have hdev : write k s.device r v = s.device := by
      cases r <;> first | rfl | exact absurd rfl hr
    refine ⟨.held t, ?_, ?_⟩
    · rw [if_neg hws, hdev]
      refine h.goTo (Stage.place_of_eq rfl (.inr ⟨ws, rfl⟩)) nofun ?_
      exact Pc.programs_of_writes rfl ⟨hws, op, lba, buffer, count, (List.suffix_cons _ _).trans hsuf⟩
    · split
      · rename_i he
        simp only [Pc.configuring.injEq, List.cons.injEq, Prod.mk.injEq] at he
        exact absurd he.1.1 hr
      · rename_i he
        cases he
      · exact Stage.serves_self

/-- A task that sees `_ioc_done` sees the status of its own transfer. -/
theorem follows_waiting {scOk : Bool} (h : Follows s g) (hpc : s.task t = .waiting) :
    Follows (access k s t scOk) g := by
  have howner : g.owner = some t := h.owner_of_holds (by rw [hpc]; rfl)
  simp only [access, hpc]
  split_ifs with hd
  · exact h
  · refine h.goTo (Stage.place_of_eq howner ?_) nofun (Pc.programs_of_none rfl)
    rw [h.done] at hd
    cases g with
    | signalled u st => exact .inr (.inr (.inl rfl))
    | free | held u | running u | ended u st | loading u q st | storing u q st | cleared u st => exact absurd rfl hd

theorem follows_readStatus {scOk : Bool} (h : Follows s g) (hpc : s.task t = .readStatus) :
    Follows (access k s t scOk) g := by
  obtain ⟨st, rfl⟩ := h.signalled (by rw [hpc]; rfl) (.inl hpc)
  simp only [access, hpc, h.status st rfl, ne_eq, code_inj]
  by_cases hst : st = .readSuccess
  · have hret : (0 : Word) = result st := by rw [result, if_pos (.inl hst)]
    rw [if_neg (not_not.mpr hst), hret]
    exact h.goTo (Stage.place_of_eq rfl (.inr (.inr (.inr (.inr rfl))))) nofun (Pc.programs_of_none rfl)
  · rw [if_pos hst]
    exact h.goTo (Stage.place_of_eq rfl (.inr (.inr (.inr (.inl ⟨rfl, hst⟩))))) nofun (Pc.programs_of_none rfl)

/-- The two reads of `_ioc_status` see one status. -/
theorem follows_rereadStatus {scOk : Bool} (h : Follows s g) (hpc : s.task t = .rereadStatus) :
    Follows (access k s t scOk) g := by
  obtain ⟨st, rfl⟩ := h.signalled (by rw [hpc]; rfl) (.inr (.inl hpc))
  have hst : st ≠ .readSuccess := by
    have hfits := (h.place t).1 rfl
    simpa [hpc, Stage.Fits] using hfits
  have hret : (if s.iocStatus ≠ code .writeSuccess then (1 : Word) else 0) = result st := by
    rw [h.status st rfl, result]
    simp only [ne_eq, code_inj, hst, false_or, ite_not]
  simp only [access, hpc, hret]
  exact h.goTo (Stage.place_of_eq rfl (.inr (.inr (.inr (.inr rfl))))) nofun (Pc.programs_of_none rfl)

theorem follows_clearDone {ret : Word} {scOk : Bool} (h : Follows s g) (hpc : s.task t = .clearDone ret) :
    ∃ g', Follows (access k s t scOk) g' ∧ Serves g [] g' := by
  obtain ⟨st, rfl⟩ := h.signalled (by rw [hpc]; rfl) (.inr (.inr ⟨ret, hpc⟩))
  have hret : ret = result st := by
    have hfits := (h.place t).1 rfl
    simpa [hpc, Stage.Fits] using hfits
  simp only [access, hpc]
  refine ⟨.cleared t st, ?_, .same _ _ rfl⟩
  constructor
  · exact h.lock
  · rfl
  · exact h.device
  · exact h.isr
  · nofun
  · exact h.place_goTo (.inr ⟨.inr rfl, .inr rfl⟩) (Stage.place_of_eq rfl (congrArg Pc.clearLock hret))
  · exact h.linked_goTo (fun _ _ hl => hl) nofun
  · exact h.programs_goTo (Pc.programs_of_none rfl)

/-- The task releases the lock, and its completion is seen. -/
theorem follows_clearLock {ret : Word} {scOk : Bool} (h : Follows s g) (hpc : s.task t = .clearLock ret) :
    ∃ g', Follows (access k s t scOk) g' ∧ Serves g (events s (.access t scOk)) g' := by
  have howner : g.owner = some t := h.owner_of_holds (by rw [hpc]; rfl)
  have hfits := (h.place t).1 howner
  rw [hpc] at hfits
  obtain ⟨st, rfl, rfl⟩ : ∃ st, g = .cleared t st ∧ ret = result st := by
    cases g <;> simp_all [Stage.owner, Stage.Fits]
  simp only [access, hpc, events]
  refine ⟨.free, ?_, .completes t st⟩
  constructor
  · exact Mem.store_val_self () 0
  · exact h.done
  · exact h.device
  · exact h.isr
  · nofun
  · exact h.place_goTo (.inr ⟨.inr rfl, .inl rfl⟩) (Stage.place_of_ne nofun rfl)
  · exact h.linked_goTo (fun _ _ hl => hl.of_store) nofun
  · exact h.programs_goTo (Pc.programs_of_none rfl)

theorem follows_access {scOk : Bool} (h : Follows s g) :
    ∃ g', Follows (access k s t scOk) g' ∧ Serves g (events s (.access t scOk)) g' := by
  have hstill : (∀ ws, s.task t ≠ .configuring ws) → (∀ ret, s.task t ≠ .clearLock ret) →
      (∃ g', Follows (access k s t scOk) g' ∧ Serves g [] g') →
      ∃ g', Follows (access k s t scOk) g' ∧ Serves g (events s (.access t scOk)) g' := by
    intro h1 h2
    rw [events_access h1 h2]
    exact id
  cases hpc : s.task t with
  | outside | started =>
    refine hstill (by simp [hpc]) (by simp [hpc]) ⟨g, ?_, Stage.serves_self⟩
    simpa only [access, hpc] using h
  | checking c => exact hstill (by simp [hpc]) (by simp [hpc]) ⟨g, follows_checking h hpc, Stage.serves_self⟩
  | ll size ws => exact hstill (by simp [hpc]) (by simp [hpc]) ⟨g, follows_ll h hpc, Stage.serves_self⟩
  | sc size ws => exact hstill (by simp [hpc]) (by simp [hpc]) (follows_sc h hpc)
  | invalidating i size ws =>
    exact hstill (by simp [hpc]) (by simp [hpc]) ⟨g, follows_invalidating h hpc, Stage.serves_self⟩
  | configuring ws =>
    cases ws with
    | nil => exact absurd rfl (h.programs t [] (congrArg Pc.writes hpc)).1
    | cons w ws => exact follows_configuring h hpc
  | waiting => exact hstill (by simp [hpc]) (by simp [hpc]) ⟨g, follows_waiting h hpc, Stage.serves_self⟩
  | readStatus => exact hstill (by simp [hpc]) (by simp [hpc]) ⟨g, follows_readStatus h hpc, Stage.serves_self⟩
  | rereadStatus => exact hstill (by simp [hpc]) (by simp [hpc]) ⟨g, follows_rereadStatus h hpc, Stage.serves_self⟩
  | clearDone ret => exact hstill (by simp [hpc]) (by simp [hpc]) (follows_clearDone h hpc)
  | clearLock ret => exact follows_clearLock h hpc

/-- The stage goes on with the owner where it was, still waiting. -/
theorem Follows.place_of_waits (h : Follows s g) {u : T} (hg : g.owner = some u) (hg' : g'.owner = some u)
    (hfits : ∀ pc, g.Fits pc → g'.Fits pc) (t : T) : g'.Place t (s.task t) := by
  by_cases ht : g.owner = some t
  · exact Stage.place_of_eq (by rw [hg', ← hg, ht]) (hfits _ ((h.place t).1 ht))
  · exact Stage.place_of_ne (by rw [hg', ← hg]; exact ht) ((h.place t).2 ht)

theorem follows_ends {status : IocStatus} (h : Follows s g) :
    ∃ g', Follows (next k s (.ends status)) g' ∧ Serves g (events s (.ends status)) g' := by
  simp only [next, events]
  split_ifs with hd
  · obtain ⟨u, rfl⟩ : ∃ u, g = .running u := by
      rw [h.device] at hd
      cases g <;> simp_all [Stage.device]
    refine ⟨.ended u status, ?_, .ends u status⟩
    constructor
    · exact h.lock
    · exact h.done
    · rfl
    · exact h.isr
    · nofun
    · exact h.place_of_waits rfl rfl fun pc hpc => hpc
    · exact h.linked
    · exact h.programs
  · exact ⟨g, h, Stage.serves_self⟩

/-- The interrupt routine takes the status from the device. -/
theorem follows_isr_out {q : Q} (h : Follows s g) (hq : s.isr q = .out) :
    ∃ g', Follows (isrIoc s q) g' ∧ Serves g [] g' := by
  cases hd : s.device with
  | idle | busy =>
    refine ⟨g, ?_, Stage.serves_self⟩
    simpa only [isrIoc, hq, hd] using h
  | ended status =>
    obtain ⟨u, rfl⟩ : ∃ u, g = .ended u status := by
      rw [h.device] at hd
      cases g <;> simp_all [Stage.device]
    simp only [isrIoc, hq, hd]
    refine ⟨.loading u q status, ?_, .same _ _ rfl⟩
    constructor
    · exact h.lock
    · exact h.done
    · rfl
    · show Function.update s.isr q _ = _
      rw [h.isr]
      rfl
    · nofun
    · exact h.place_of_waits rfl rfl fun pc hpc => hpc
    · exact h.linked
    · exact h.programs

/-- It stores the status. -/
theorem follows_isr_storeStatus {q : Q} {status : IocStatus} (h : Follows s g) (hq : s.isr q = .storeStatus status) :
    ∃ g', Follows (isrIoc s q) g' ∧ Serves g [] g' := by
  obtain ⟨u, rfl⟩ := Stage.loading_of_isr (h.isr ▸ hq)
  simp only [isrIoc, hq]
  refine ⟨.storing u q status, ?_, .same _ _ rfl⟩
  constructor
  · exact h.lock
  · exact h.done
  · exact h.device
  · show Function.update s.isr q _ = _
    rw [h.isr]
    simp [Stage.isr]
  · intro st hst
    cases hst
    rfl
  · exact h.place_of_waits rfl rfl fun pc hpc => hpc
  · exact h.linked
  · exact h.programs

/-- Only then it signals. -/
theorem follows_isr_storeDone {q : Q} (h : Follows s g) (hq : s.isr q = .storeDone) :
    ∃ g', Follows (isrIoc s q) g' ∧ Serves g [] g' := by
  obtain ⟨u, status, rfl⟩ := Stage.storing_of_isr (h.isr ▸ hq)
  simp only [isrIoc, hq]
  refine ⟨.signalled u status, ?_, .same _ _ rfl⟩
  constructor
  · exact h.lock
  · rfl
  · exact h.device
  · show Function.update s.isr q _ = _
    rw [h.isr]
    simp [Stage.isr]
  · exact h.status
  · refine h.place_of_waits rfl rfl fun pc hpc => ?_
    rcases hpc with rfl | rfl
    · exact .inl rfl
    · exact .inr (.inl rfl)
  · exact h.linked
  · exact h.programs

theorem follows_isr {q : Q} (h : Follows s g) : ∃ g', Follows (isrIoc s q) g' ∧ Serves g [] g' := by
  cases hq : s.isr q with
  | out => exact follows_isr_out h hq
  | storeStatus status => exact follows_isr_storeStatus h hq
  | storeDone => exact follows_isr_storeDone h hq

/-- **Every step of the code is a step of the server, or none.** -/
theorem follows_next (a : Act T Q) (h : Follows s g) :
    ∃ g', Follows (next k s a) g' ∧ Serves g (events s a) g' := by
  cases a with
  | call t c =>
    refine ⟨g, ?_, Stage.serves_self⟩
    simp only [next]
    split_ifs with hpc
    · have hne : g.owner ≠ some t := h.owner_ne (by rw [hpc]; rfl)
      exact h.goTo (Stage.place_of_ne hne rfl) nofun (Pc.programs_of_none rfl)
    · exact h
  | complete t =>
    refine ⟨g, ?_, Stage.serves_self⟩
    simp only [next]
    split_ifs with hpc
    · have howner : g.owner = some t := h.owner_of_holds (by rw [hpc]; rfl)
      have hfits := (h.place t).1 howner
      rw [hpc] at hfits
      refine h.goTo (Stage.place_of_eq howner ?_) nofun (Pc.programs_of_none rfl)
      cases g <;> simp_all [Stage.Fits]
    · exact h
  | access t scOk => exact follows_access h
  | ends status => exact follows_ends h
  | isr q => exact follows_isr h

/-! ### Whole runs -/

theorem follows_run (status : BitVec 8) (a : ℕ → Act T Q) (n : ℕ) :
    ∃ (g : Stage T Q) (rs : List (Round T)), Follows (run k status a n) g ∧
      trace k status a n = rs.flatMap Round.events ++ g.seen := by
  apply Clocked.log_inv fun s l => ∃ (g : Stage T Q) (rs : List (Round T)), Follows s g ∧
    l = rs.flatMap Round.events ++ g.seen
  · exact ⟨.free, [], follows_init status, rfl⟩
  · rintro t x l ⟨g, rs, hx, rfl⟩
    obtain ⟨g', hx', hserves⟩ := follows_next (k := k) (a t) hx
    obtain ⟨rs', hrs⟩ := hserves.rounds rs
    exact ⟨g', rs', hx', hrs⟩

/-- A call that its parameters check rejects changes nothing but its task. -/
theorem same_of_rejected {c : Call} {r : Word} (hr : c.perform k.board = .error r) :
    Same s (next k s (.call t c)) ∧ ∀ scOk, s.task t = .checking c → Same s (next k s (.access t scOk)) := by
  constructor
  · simp only [next]
    split_ifs <;> exact ⟨rfl, rfl, rfl, rfl, rfl⟩
  · intro scOk hpc
    simp only [next, access, hpc, hr]
    exact ⟨rfl, rfl, rfl, rfl, rfl⟩

/-- **The protocol of the block device.** For any tasks and processors and any
order of their accesses, the device's and the interrupt routine's: in every
state reached the promise holds; and a call that its parameters check rejects
changes neither lock, flag nor device, from its start to its return. -/
theorem ioc_protocol (status : BitVec 8) (a : ℕ → Act T Q) (n : ℕ) :
    Correct (run k status a n) (trace k status a n) ∧
    ∀ t c r, c.perform k.board = .error r →
      Same (run k status a n) (next k (run k status a n) (.call t c)) ∧
      ∀ scOk, (run k status a n).task t = .checking c →
        Same (run k status a n) (next k (run k status a n) (.access t scOk)) := by
  obtain ⟨g, rs, hfollows, htrace⟩ := follows_run (k := k) status a n
  constructor
  · rw [htrace]
    exact hfollows.correct
  · intro t c r hr
    exact same_of_rejected hr

end Simulation

end Ioc
end Giet
end Smc
