/-
# The terminals

The terminal functions of `giet_2011/sys/drivers.c` and the routine
`_isr_tty_get_indexed` of `giet_2011/sys/irq_handler.c`. Every task has a
terminal: `_tty_config` writes its index in slot 34 of the task's context,
plus `0x80000000`, and 0 there stands for the default index
`proc_id * NB_MAXTASKS + task_id`. `_tty_write`, `_tty_read` and
`_tty_read_irq` look the index up; the interrupt routine always takes the
default, so they agree as long as nothing else is configured (`agree_iff`).

The routine leaves a character in `_tty_get_buf` and sets `_tty_get_full`;
`_tty_read_irq` takes it and resets the flag, with the routine running between
any two of its accesses. Every character is returned once, lost to a flag that
was still set, or still there (`input_conserved`).

Key definitions: `ttyConfig`, `ttyId`, `Agree`, `next`, `events`.
Key theorems: `agree_iff`, `input_conserved`.
-/
import Smc.Lib.Clocked

namespace Smc
namespace Giet
namespace Tty

abbrev Word := BitVec 32
abbrev Byte := BitVec 8

/-- `NB_PROCS` and `NB_MAXTASKS`, with the static checks of `drivers.c`. -/
structure Params where
  nbProcs : ℕ
  nbMaxtasks : ℕ
  procs_le : nbProcs ≤ 8
  maxtasks_le : nbMaxtasks ≤ 4

/-! ### The index of a task's terminal -/

section Index

variable (k : Params)

/-- `proc_id*NB_MAXTASKS + task_id`. -/
def defaultId (procId taskId : Word) : Word := procId * BitVec.ofNat 32 k.nbMaxtasks + taskId

/-- The place of slot 34 of a task's context in `_task_context_array`. -/
def slot34 (procId taskId : Word) : ℕ := (defaultId k procId taskId * 64 + 34).toNat

/-- `_tty_config` on `_task_context_array`, with what it returns. -/
def ttyConfig (ttyId procId taskId : Word) (contexts : ℕ → Word) : Word × (ℕ → Word) :=
  if k.nbMaxtasks ≤ taskId.toNat then (0, contexts)
  else if k.nbProcs ≤ procId.toNat then (0, contexts)
  else (1, Function.update contexts (slot34 k procId taskId) (ttyId + 0x80000000))

/-- The look-up of the driver functions. -/
def ttyId (contexts : ℕ → Word) (procId taskId : Word) : Word :=
  if contexts (slot34 k procId taskId) = 0 then defaultId k procId taskId
  else contexts (slot34 k procId taskId) - 0x80000000

def ttyWriteId (contexts : ℕ → Word) (procId taskId : Word) : Word := ttyId k contexts procId taskId

def ttyReadId (contexts : ℕ → Word) (procId taskId : Word) : Word := ttyId k contexts procId taskId

def ttyReadIrqId (contexts : ℕ → Word) (procId taskId : Word) : Word := ttyId k contexts procId taskId

/-- The index `_isr_tty_get_indexed` fills. -/
def isrTtyGetId (procId taskId : Word) : Word := defaultId k procId taskId

/-- A call of `_tty_config`. -/
structure ConfigCall where
  ttyId : Word
  procId : Word
  taskId : Word
deriving DecidableEq, Repr

/-- `_task_context_array` after some calls of `_tty_config`. -/
def configured (calls : List ConfigCall) : ℕ → Word :=
  calls.foldl (fun contexts c => (ttyConfig k c.ttyId c.procId c.taskId contexts).2) fun _ => 0

/-- The terminal that the last call for the task has asked for. -/
def lastConfig (calls : List ConfigCall) (procId taskId : Word) : Option Word :=
  ((calls.filter fun c => c.procId = procId ∧ c.taskId = taskId).getLast?).map ConfigCall.ttyId

/-- Driver and interrupt routine agree on the terminal of a task, it is the
one configured, and it exists. -/
structure Agree (calls : List ConfigCall) (procId taskId : Word) : Prop where
  isr : ttyReadIrqId k (configured k calls) procId taskId = isrTtyGetId k procId taskId
  write : ttyReadIrqId k (configured k calls) procId taskId = ttyWriteId k (configured k calls) procId taskId
  read : ttyReadIrqId k (configured k calls) procId taskId = ttyReadId k (configured k calls) procId taskId
  asked : ttyReadIrqId k (configured k calls) procId taskId =
    (lastConfig calls procId taskId).getD (defaultId k procId taskId)
  exists_tty : (ttyReadIrqId k (configured k calls) procId taskId).toNat < k.nbProcs * k.nbMaxtasks

variable {k} {procId taskId : Word}

theorem defaultId_toNat (hp : procId.toNat < k.nbProcs) (ht : taskId.toNat < k.nbMaxtasks) :
    (defaultId k procId taskId).toNat = procId.toNat * k.nbMaxtasks + taskId.toNat := by
  have hm : procId.toNat * k.nbMaxtasks ≤ 8 * 4 :=
    Nat.mul_le_mul (hp.le.trans k.procs_le) k.maxtasks_le
  have hT := k.maxtasks_le
  have hw : k.nbMaxtasks % 2 ^ 32 = k.nbMaxtasks := Nat.mod_eq_of_lt (by omega)
  rw [defaultId, BitVec.toNat_add, BitVec.toNat_mul, BitVec.toNat_ofNat, hw]
  rw [Nat.mod_eq_of_lt (a := procId.toNat * k.nbMaxtasks) (by omega)]
  exact Nat.mod_eq_of_lt (by omega)

theorem defaultId_lt (hp : procId.toNat < k.nbProcs) (ht : taskId.toNat < k.nbMaxtasks) :
    (defaultId k procId taskId).toNat < k.nbProcs * k.nbMaxtasks := by
  rw [defaultId_toNat hp ht]
  calc procId.toNat * k.nbMaxtasks + taskId.toNat
      < procId.toNat * k.nbMaxtasks + k.nbMaxtasks := by omega
    _ = (procId.toNat + 1) * k.nbMaxtasks := by ring
    _ ≤ k.nbProcs * k.nbMaxtasks := Nat.mul_le_mul_right _ hp

theorem defaultId_lt_32 (hp : procId.toNat < k.nbProcs) (ht : taskId.toNat < k.nbMaxtasks) :
    (defaultId k procId taskId).toNat < 32 :=
  (defaultId_lt hp ht).trans_le (Nat.mul_le_mul k.procs_le k.maxtasks_le)

theorem slot34_eq (hp : procId.toNat < k.nbProcs) (ht : taskId.toNat < k.nbMaxtasks) :
    slot34 k procId taskId = (procId.toNat * k.nbMaxtasks + taskId.toNat) * 64 + 34 := by
  have hlt := defaultId_lt_32 hp ht
  rw [slot34, BitVec.toNat_add, BitVec.toNat_mul]
  show ((defaultId k procId taskId).toNat * 64 % 2 ^ 32 + 34) % 2 ^ 32 = _
  rw [← defaultId_toNat hp ht]
  omega

/-- Every task has a slot of its own. -/
theorem slot34_inj {p t : Word} (hp : procId.toNat < k.nbProcs) (ht : taskId.toNat < k.nbMaxtasks)
    (hp' : p.toNat < k.nbProcs) (ht' : t.toNat < k.nbMaxtasks) (h : slot34 k p t = slot34 k procId taskId) :
    p = procId ∧ t = taskId := by
  rw [slot34_eq hp ht, slot34_eq hp' ht'] at h
  have hsum : p.toNat * k.nbMaxtasks + t.toNat = procId.toNat * k.nbMaxtasks + taskId.toNat := by omega
  have hproc : p.toNat = procId.toNat := by
    have hdiv := congrArg (· / k.nbMaxtasks) hsum
    simpa [Nat.mul_add_div (Nat.zero_lt_of_lt ht), Nat.div_eq_of_lt ht, Nat.div_eq_of_lt ht', mul_comm] using hdiv
  have htask : t.toNat = taskId.toNat := by
    rw [hproc] at hsum
    omega
  exact ⟨BitVec.eq_of_toNat_eq hproc, BitVec.eq_of_toNat_eq htask⟩

theorem configured_concat (calls : List ConfigCall) (c : ConfigCall) : configured k (calls ++ [c]) =
    (ttyConfig k c.ttyId c.procId c.taskId (configured k calls)).2 := by
  simp [configured]

theorem lastConfig_concat (calls : List ConfigCall) (c : ConfigCall) : lastConfig (calls ++ [c]) procId taskId =
    if c.procId = procId ∧ c.taskId = taskId then some c.ttyId else lastConfig calls procId taskId := by
  simp only [lastConfig, List.filter_append]
  split_ifs with hc
  · simp [hc]
  · simp [hc]

/-- Slot 34 after any calls of `_tty_config` is what the last one for the task
has written. -/
theorem configured_slot34 (hp : procId.toNat < k.nbProcs) (ht : taskId.toNat < k.nbMaxtasks)
    (calls : List ConfigCall) : configured k calls (slot34 k procId taskId) =
      ((lastConfig calls procId taskId).map (· + 0x80000000)).getD 0 := by
  induction calls using List.reverseRecOn with
  | nil => rfl
  | append_singleton calls c ih =>
    rw [configured_concat, lastConfig_concat, ttyConfig]
    split_ifs with h1 h2 h3 h4 h5
    · -- a call out of range is for no task in range
      rw [h2.2] at h1
      omega
    · exact ih
    · rw [h4.1] at h3
      omega
    · exact ih
    · obtain ⟨rfl, rfl⟩ := h5
      simp
    · have hne : slot34 k procId taskId ≠ slot34 k c.procId c.taskId := by
        intro he
        exact h5 (slot34_inj hp ht (by omega) (by omega) he.symm)
      rw [← ih]
      exact Function.update_of_ne hne _ _

/-- **Driver and interrupt routine agree unless another terminal is
configured.** For every processor, task and sequence of calls of
`_tty_config`: the four places agree on the task's terminal, it is the one
asked for and it exists, if and only if no call was for the task or the last
one asked for the default. -/
theorem agree_iff (calls : List ConfigCall) (hp : procId.toNat < k.nbProcs) (ht : taskId.toNat < k.nbMaxtasks) :
    Agree k calls procId taskId ↔
      lastConfig calls procId taskId = none ∨
      lastConfig calls procId taskId = some (defaultId k procId taskId) := by
  have hslot := configured_slot34 hp ht calls
  have hlt := defaultId_lt_32 hp ht
  cases hlast : lastConfig calls procId taskId with
  | none =>
    rw [hlast] at hslot
    have hid : ttyId k (configured k calls) procId taskId = defaultId k procId taskId := by
      rw [ttyId, if_pos (by simpa using hslot)]
    refine ⟨fun _ => .inl rfl, fun _ => ⟨hid, rfl, rfl, ?_, ?_⟩⟩
    · rw [hlast]
      exact hid
    · rw [ttyReadIrqId, hid]
      exact defaultId_lt hp ht
  | some x =>
    rw [hlast] at hslot
    simp only [Option.map_some, Option.getD_some] at hslot
    constructor
    · intro h
      have hasked := h.asked
      rw [hlast, Option.getD_some] at hasked
      rw [← hasked, h.isr]
      exact .inr rfl
    · rintro (h | h)
      · cases h
      · obtain rfl := Option.some.inj h
        have hne : defaultId k procId taskId + 0x80000000 ≠ 0 := by
          intro he
          bv_omega
        have hid : ttyId k (configured k calls) procId taskId = defaultId k procId taskId := by
          rw [ttyId, hslot, if_neg hne, BitVec.add_sub_cancel]
        refine ⟨hid, rfl, rfl, ?_, ?_⟩
        · rw [hlast]
          exact hid
        · rw [ttyReadIrqId, hid]
          exact defaultId_lt hp ht

/-- One processor with four tasks. -/
def fourTasks : Params := ⟨1, 4, by decide, by decide⟩

/-- Task 1 keeps its terminal when task 0 is given another. -/
theorem agree_untouched : Agree fourTasks [⟨3, 0, 0⟩] 0 1 :=
  (agree_iff [⟨3, 0, 0⟩] (by decide) (by decide)).mpr (.inl (by decide))

/-- Task 0 is given terminal 3, and its characters still go to the buffer 0; an
index past the last terminal is accepted. -/
theorem configured_elsewhere : ¬ Agree fourTasks [⟨3, 0, 0⟩] 0 0 ∧
    ttyReadIrqId fourTasks (configured fourTasks [⟨3, 0, 0⟩]) 0 0 = 3 ∧ isrTtyGetId fourTasks 0 0 = 0 ∧
    ttyReadIrqId fourTasks (configured fourTasks [⟨1000, 0, 0⟩]) 0 0 = 1000 := by
  refine ⟨fun h => absurd h.isr (by decide), by decide, by decide, by decide⟩

end Index

/-! ### One task reads its terminal -/

/-- Where the reading task is in `_tty_read_irq`. -/
inductive Pc where
  | outside
  | test
  | load
  /-- the character is read, the flag not reset yet -/
  | reset (c : Byte)
deriving DecidableEq, Repr

/-- The buffers of the kernel, and the reading task. -/
structure State where
  ttyGetBuf : ℕ → Byte
  ttyGetFull : ℕ → Byte
  pc : Pc

inductive Act where
  /-- the task calls `_tty_read_irq` -/
  | call
  /-- the task makes its next access -/
  | access
  /-- the task's processor runs `_isr_tty_get_indexed`, which reads `w` from
  the terminal -/
  | isr (taskId : Word) (w : Word)
deriving DecidableEq, Repr

inductive Event where
  /-- the routine has received a character for the task; `full` is what it
  found in `_tty_get_full` -/
  | received (c full : Byte)
  /-- `_tty_read_irq` has returned 1 -/
  | returned (c : Byte)
deriving DecidableEq, Repr

section Machine

variable (k : Params) (contexts : ℕ → Word) (procId taskId : Word)

/-- The entry of the reading task in the two arrays. -/
def entry : ℕ := (ttyReadIrqId k contexts procId taskId).toNat

/-- `_isr_tty_get_indexed`; `taskId` is its argument. -/
def isrTtyGetIndexed (taskId w : Word) (s : State) : State :=
  { s with
    ttyGetBuf := Function.update s.ttyGetBuf (isrTtyGetId k procId taskId).toNat (w.setWidth 8)
    ttyGetFull := Function.update s.ttyGetFull (isrTtyGetId k procId taskId).toNat 1 }

def next (s : State) : Act → State
  | .call => if s.pc = .outside then { s with pc := .test } else s
  | .access =>
    match s.pc with
    | .outside => s
    | .test => { s with pc := if s.ttyGetFull (entry k contexts procId taskId) = 0 then .outside else .load }
    | .load => { s with pc := .reset (s.ttyGetBuf (entry k contexts procId taskId)) }
    | .reset _ =>
      { s with ttyGetFull := Function.update s.ttyGetFull (entry k contexts procId taskId) 0, pc := .outside }
  | .isr u w => isrTtyGetIndexed k procId u w s

def events (s : State) : Act → List Event
  | .access =>
    match s.pc with
    | .reset c => [.returned c]
    | _ => []
  | .isr u w => if u = taskId then [.received (w.setWidth 8) (s.ttyGetFull (isrTtyGetId k procId u).toNat)] else []
  | .call => []

def init (buf : ℕ → Byte) : State where
  ttyGetBuf := buf
  ttyGetFull _ := 0
  pc := .outside

def run (buf : ℕ → Byte) (a : ℕ → Act) : ℕ → State := Clocked.run (next k contexts procId taskId) (init buf) a

def trace (buf : ℕ → Byte) (a : ℕ → Act) : ℕ → List Event :=
  Clocked.log (next k contexts procId taskId) (events k procId taskId) (init buf) a

end Machine

/-- The characters the routine has received for the task. -/
def received (l : List Event) : List Byte :=
  l.filterMap fun e => match e with
    | .received c _ => some c
    | .returned _ => none

/-- The characters returned with result 1. -/
def returned (l : List Event) : List Byte :=
  l.filterMap fun e => match e with
    | .received _ _ => none
    | .returned c => some c

/-- How often the routine has found `_tty_get_full` set. -/
def overwritten (l : List Event) : ℕ :=
  l.countP fun e => match e with
    | .received _ full => full = 1
    | .returned _ => false

section Conservation

variable {k : Params} {contexts : ℕ → Word} {procId taskId : Word} {s : State} {l : List Event}

@[simp] theorem received_received (c full : Byte) : received (l ++ [.received c full]) = received l ++ [c] := by
  simp [received]

@[simp] theorem received_returned (c : Byte) : received (l ++ [.returned c]) = received l := by
  simp [received]

@[simp] theorem returned_received (c full : Byte) : returned (l ++ [.received c full]) = returned l := by
  simp [returned]

@[simp] theorem returned_returned (c : Byte) : returned (l ++ [.returned c]) = returned l ++ [c] := by
  simp [returned]

@[simp] theorem overwritten_received (c full : Byte) :
    overwritten (l ++ [.received c full]) = overwritten l + if full = 1 then 1 else 0 := by
  simp [overwritten, List.countP_append, List.countP_cons]

@[simp] theorem overwritten_returned (c : Byte) : overwritten (l ++ [.returned c]) = overwritten l := by
  simp [overwritten]

/-- The characters of the task's entry `i`, when it is at `pc`: those returned
come in order out of those received; a character that waits is the last one
received, and the one that the task has read is still to be returned. -/
structure Inv (i : ℕ) (s : State) (l : List Event) : Prop where
  bit : s.ttyGetFull i = 0 ∨ s.ttyGetFull i = 1
  count : (received l).length = (returned l).length + overwritten l + (s.ttyGetFull i).toNat
  reading : s.pc ≠ .outside → s.pc ≠ .test → s.ttyGetFull i = 1
  inOrder : (returned l).Sublist (received l)
  waits : s.ttyGetFull i = 1 → (∀ c, s.pc ≠ .reset c) →
    ∃ earlier, received l = earlier ++ [s.ttyGetBuf i] ∧ (returned l).Sublist earlier
  taken : ∀ c, s.pc = .reset c → (returned l ++ [c]).Sublist (received l)

theorem inv_init (i : ℕ) (buf : ℕ → Byte) : Inv i (init buf) [] where
  bit := .inl rfl
  count := rfl
  reading h := absurd rfl h
  inOrder := List.Sublist.refl _
  waits h := absurd h (by simp [init])
  taken c h := by cases h

theorem Inv.call {i : ℕ} (h : Inv i s l) (hpc : s.pc = .outside) : Inv i { s with pc := .test } l where
  bit := h.bit
  count := h.count
  reading _ ht := absurd rfl ht
  inOrder := h.inOrder
  waits hf _ := h.waits hf (by simp [hpc])
  taken c hc := by cases hc

theorem Inv.access (h : Inv (entry k contexts procId taskId) s l) :
    Inv (entry k contexts procId taskId) (next k contexts procId taskId s .access)
      (l ++ events k procId taskId s .access) := by
  generalize hi : entry k contexts procId taskId = i at h
  cases hpc : s.pc with
  | outside => simpa [next, events, hpc] using h
  | test =>
    simp only [next, events, hpc, hi, List.append_nil]
    refine ⟨h.bit, h.count, ?_, h.inOrder, ?_, ?_⟩
    · intro h1 h2
      rcases h.bit with hf | hf
      · simp [hf] at h1
      · exact hf
    · intro hf _
      exact h.waits hf (by simp [hpc])
    · intro c hc
      dsimp only at hc
      split_ifs at hc
  | load =>
    simp only [next, events, hpc, hi, List.append_nil]
    have hf : s.ttyGetFull i = 1 := h.reading (by simp [hpc]) (by simp [hpc])
    refine ⟨h.bit, h.count, fun _ _ => hf, h.inOrder, ?_, ?_⟩
    · intro _ hc
      exact absurd rfl (hc _)
    · intro c hc
      obtain rfl : s.ttyGetBuf i = c := by simpa using hc
      obtain ⟨earlier, hr, hsub⟩ := h.waits hf (by simp [hpc])
      rw [hr]
      exact hsub.append (List.Sublist.refl _)
  | reset c =>
    simp only [next, events, hpc, hi]
    have hf : s.ttyGetFull i = 1 := h.reading (by simp [hpc]) (by simp [hpc])
    refine ⟨.inl (Function.update_self _ _ _), ?_, fun h1 => absurd rfl h1, ?_, ?_, fun c' hc' => by cases hc'⟩
    · have hcount := h.count
      rw [hf] at hcount
      simp only [Function.update_self, received_returned, returned_returned, overwritten_returned,
        List.length_append, List.length_singleton]
      simp at hcount ⊢
      omega
    · simpa using h.taken c hpc
    · intro hf'
      simp at hf'

/-- The routine leaves a character for the task. -/
theorem Inv.received {i : ℕ} (h : Inv i s l) (c : Byte) :
    Inv i { s with ttyGetBuf := Function.update s.ttyGetBuf i c, ttyGetFull := Function.update s.ttyGetFull i 1 }
      (l ++ [.received c (s.ttyGetFull i)]) := by
  refine ⟨.inr (Function.update_self _ _ _), ?_, fun _ _ => Function.update_self _ _ _, ?_, ?_, ?_⟩
  · have hcount := h.count
    simp only [Function.update_self, received_received, returned_received, overwritten_received, List.length_append,
      List.length_singleton]
    rcases h.bit with hf | hf <;> simp [hf] at hcount ⊢ <;> omega
  · simpa using h.inOrder.trans (List.sublist_append_left _ _)
  · intro _ _
    exact ⟨Tty.received l, by simp, by simpa using h.inOrder⟩
  · intro c' hc'
    simpa using (h.taken c' hc').trans (List.sublist_append_left _ _)

/-- The routine leaves a character for another task. -/
theorem Inv.of_ne {i j : ℕ} (h : Inv i s l) (hij : i ≠ j) (c : Byte) :
    Inv i { s with ttyGetBuf := Function.update s.ttyGetBuf j c, ttyGetFull := Function.update s.ttyGetFull j 1 } l := by
  constructor
  · simpa only [Function.update_of_ne hij] using h.bit
  · simpa only [Function.update_of_ne hij] using h.count
  · simpa only [Function.update_of_ne hij] using h.reading
  · exact h.inOrder
  · simpa only [Function.update_of_ne hij] using h.waits
  · exact h.taken

theorem inv_next (hid : ttyReadIrqId k contexts procId taskId = isrTtyGetId k procId taskId) (a : Act)
    (h : Inv (entry k contexts procId taskId) s l) :
    Inv (entry k contexts procId taskId) (next k contexts procId taskId s a) (l ++ events k procId taskId s a) := by
  cases a with
  | call =>
    simp only [next, events, List.append_nil]
    split_ifs with hpc
    · exact h.call hpc
    · exact h
  | access => exact h.access
  | isr u w =>
    simp only [next, events, isrTtyGetIndexed]
    by_cases hu : u = taskId
    · have hi : (isrTtyGetId k procId u).toNat = entry k contexts procId taskId := by rw [entry, hid, hu]
      rw [if_pos hu, hi]
      exact h.received _
    · have hi : entry k contexts procId taskId ≠ (isrTtyGetId k procId u).toNat := by
        intro he
        rw [entry, hid] at he
        have hsum := BitVec.eq_of_toNat_eq he
        simp only [isrTtyGetId, defaultId, BitVec.add_right_inj] at hsum
        exact hu hsum.symm
      rw [if_neg hu, List.append_nil]
      exact h.of_ne hi _

/-- **Terminal input is conserved.** A task reads its own terminal, and the
interrupt routine runs anywhere between its accesses: what it gets is in order
and without repetition among the characters received, and a character received
is returned, was written over a full buffer, or waits. -/
theorem input_conserved (hid : ttyReadIrqId k contexts procId taskId = isrTtyGetId k procId taskId)
    (buf : ℕ → Byte) (a : ℕ → Act) (n : ℕ) :
    (returned (trace k contexts procId taskId buf a n)).Sublist (received (trace k contexts procId taskId buf a n)) ∧
    (received (trace k contexts procId taskId buf a n)).length =
      (returned (trace k contexts procId taskId buf a n)).length +
      overwritten (trace k contexts procId taskId buf a n) +
      if (run k contexts procId taskId buf a n).ttyGetFull (entry k contexts procId taskId) = 1 then 1 else 0 := by
  have h : Inv (entry k contexts procId taskId) (run k contexts procId taskId buf a n)
      (trace k contexts procId taskId buf a n) :=
    Clocked.log_inv (Inv (entry k contexts procId taskId)) (inv_init _ buf) (fun t x l hx => inv_next hid (a t) hx) n
  refine ⟨h.inOrder, ?_⟩
  rw [h.count]
  rcases h.bit with hf | hf <;> simp [hf]

/-- The second character comes between the task's read and its reset. -/
def overrun : ℕ → Act
  | 0 => .isr 1 0x61
  | 1 => .call
  | 4 => .isr 1 0x62
  | 6 => .isr 1 0x63
  | _ => .access

/-- The second character is lost, and accounted for. -/
theorem input_conserved_overrun :
    (returned (trace fourTasks (fun _ => 0) 0 1 (fun _ => 0) overrun 7)).Sublist [0x61, 0x62, 0x63] ∧
    overwritten (trace fourTasks (fun _ => 0) 0 1 (fun _ => 0) overrun 7) = 1 ∧
    ([0x61, 0x62, 0x63] : List Byte).length =
      (returned (trace fourTasks (fun _ => 0) 0 1 (fun _ => 0) overrun 7)).length + 1 + 1 := by
  have hid : ttyReadIrqId fourTasks (fun _ => 0) 0 1 = isrTtyGetId fourTasks 0 1 := by decide
  have hreceived : received (trace fourTasks (fun _ => 0) 0 1 (fun _ => 0) overrun 7) = [0x61, 0x62, 0x63] := by decide
  have hover : overwritten (trace fourTasks (fun _ => 0) 0 1 (fun _ => 0) overrun 7) = 1 := by decide
  have hfull : (run fourTasks (fun _ => 0) 0 1 (fun _ => 0) overrun 7).ttyGetFull
      (entry fourTasks (fun _ => 0) 0 1) = 1 := by decide
  obtain ⟨hsub, hcount⟩ := input_conserved hid (fun _ => 0) overrun 7
  rw [hreceived] at hsub hcount
  rw [hover, if_pos hfull] at hcount
  exact ⟨hsub, hover, hcount⟩

end Conservation

end Tty
end Giet
end Smc
