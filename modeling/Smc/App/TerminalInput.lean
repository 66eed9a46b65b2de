/-
# From the keyboard to the program

The blocking input functions of `giet_2011/app/stdio.c` call
`SYSCALL_TTY_READ_IRQ` until it returns a character, and again while they want
one. `Reader` is such a function: what it has read so far, and whether it
waits for more. A task that runs it is put together with the machine of
`Smc/Giet/Tty.lean`, where the interrupt routine leaves a character at any
moment between two of the task's accesses.

In every run the reader has the characters returned to it, in the order in
which they were received, and takes none that it does not need (`Delivered`).
If the task goes on running and no character comes while the last one has not
been taken, it ends exactly as it would on all that is received
(`reads_received_iff`). So `tty_gets_irq` returns the line that was typed
(`line_delivered`), and `tty_getw_irq` the number.

Key definitions: `Reader`, `next`, `Delivered`, `Fair`.
Key theorems: `delivered_run`, `reads_received_iff`, `line_delivered`.
-/
import Smc.App.TtyGets
import Smc.App.TtyGetw
import Smc.Lib.Temporal

namespace Smc
namespace App
namespace TerminalInput

open Giet.Tty

/-! ### Readers -/

/-- A function that reads characters until it stops. -/
structure Reader (U : Type*) where
  start : U
  waits : U → Bool
  take : U → Byte → U
  stop : ∀ u c, waits u = false → take u c = u

variable {U : Type*}

/-- What a reader has after some characters. -/
def Reader.after (r : Reader U) (input : List Byte) : U := input.foldl r.take r.start

section Reader

variable {r : Reader U} {l l' : List Byte}

theorem Reader.after_concat (l : List Byte) (c : Byte) : r.after (l ++ [c]) = r.take (r.after l) c :=
  List.foldl_concat _ _ _ _

/-- A reader that has stopped stays as it is. -/
theorem Reader.after_of_prefix (hl : l <+: l') (h : r.waits (r.after l) = false) : r.after l' = r.after l := by
  obtain ⟨m, rfl⟩ := hl
  induction m using List.reverseRecOn with
  | nil => rw [List.append_nil]
  | append_singleton m c ih => rw [← List.append_assoc, r.after_concat, ih, r.stop _ _ h]

end Reader

/-! ### The functions -/

/-- `tty_getc_irq`; `none` before it returns. -/
def ttyGetcIrq : Reader (Option Byte) where
  start := none
  waits := Option.isNone
  take u c := u.or (some c)
  stop u c h := by
    cases u with
    | none => cases h
    | some b => rfl

/-- `tty_gets_irq`, one character after the other. -/
def ttyGetsIrq (buf : ℕ → Byte) (bufsize : Word) : Reader TtyGets.Outcome where
  start := TtyGets.ttyGetsIrq buf bufsize []
  waits
    | .waits _ => true
    | .returns _ => false
  take
    | .waits s, c => TtyGets.loop bufsize [c] s
    | .returns s, _ => .returns s
  stop u c h := by
    cases u with
    | waits s => cases h
    | returns s => rfl

/-- `tty_getw_irq`, one character after the other. -/
def ttyGetwIrq (buf : ℕ → Byte) (tty : Terminal) : Reader TtyGetw.Outcome where
  start := TtyGetw.ttyGetwIrq buf tty []
  waits
    | .waits _ => true
    | .returns .. => false
  take
    | .waits s, c => TtyGetw.loop [c] s
    | .returns exit val s, _ => .returns exit val s
  stop u c h := by
    cases u with
    | waits s => cases h
    | returns exit val s => rfl

section Functions

theorem after_gets (buf : ℕ → Byte) (bufsize : Word) (input : List Byte) :
    (ttyGetsIrq buf bufsize).after input = TtyGets.ttyGetsIrq buf bufsize input := by
  have hreturns : ∀ (l : List Byte) (s : TtyGets.State), l.foldl (ttyGetsIrq buf bufsize).take (.returns s) = .returns s := by
    intro l s
    induction l with
    | nil => rfl
    | cons c l ih => exact ih
  have hloop : ∀ (l : List Byte) (s : TtyGets.State), l.foldl (ttyGetsIrq buf bufsize).take (TtyGets.loop bufsize [] s) =
      TtyGets.loop bufsize l s := by
    intro l
    induction l with
    | nil => exact fun s => rfl
    | cons c l ih =>
      intro s
      rw [List.foldl_cons]
      by_cases hlt : s.index < bufsize - 1
      · have hwaits : TtyGets.loop bufsize [] s = .waits s := if_pos hlt
        rw [hwaits]
        show l.foldl _ (TtyGets.loop bufsize [c] s) = _
        unfold TtyGets.loop
        rw [if_pos hlt, if_pos hlt]
        split_ifs with hlf
        · exact hreturns l _
        · exact ih _
      · have hreturn : TtyGets.loop bufsize [] s = .returns (s.store 0) := if_neg hlt
        have hcons : TtyGets.loop bufsize (c :: l) s = .returns (s.store 0) := if_neg hlt
        rw [hreturn, hcons]
        exact hreturns l _
  exact hloop input _

theorem after_getw (buf : ℕ → Byte) (tty : Terminal) (input : List Byte) :
    (ttyGetwIrq buf tty).after input = TtyGetw.ttyGetwIrq buf tty input := by
  have hreturns : ∀ (l : List Byte) (exit : TtyGetw.Exit) (val : Word) (s : TtyGetw.State),
      l.foldl (ttyGetwIrq buf tty).take (.returns exit val s) = .returns exit val s := by
    intro l exit val s
    induction l with
    | nil => rfl
    | cons c l ih => exact ih
  have hfinish : ∀ (l : List Byte) (s : TtyGetw.State), l.foldl (ttyGetwIrq buf tty).take (TtyGetw.finish s) =
      TtyGetw.finish s := by
    intro l s
    unfold TtyGetw.finish
    dsimp only
    split_ifs
    · exact hreturns l _ _ _
    · exact hreturns l _ _ _
  have hloop : ∀ (l : List Byte) (s : TtyGetw.State), l.foldl (ttyGetwIrq buf tty).take (.waits s) = TtyGetw.loop l s := by
    intro l
    induction l with
    | nil => exact fun s => rfl
    | cons c l ih =>
      intro s
      show l.foldl _ (TtyGetw.loop [c] s) = _
      unfold TtyGetw.loop
      split_ifs with hfull hend
      · exact hreturns l _ _ _
      · exact hfinish l _
      · exact ih _
  exact hloop input _

end Functions

/-! ### A task that reads -/

/-- The kernel's buffers and the system call, and the function that makes it. -/
structure System (U : Type*) where
  tty : Giet.Tty.State
  user : U

section Machine

variable (k : Params) (contexts : ℕ → Word) (procId taskId : Word) (r : Reader U)

/-- The function makes a system call only while it waits, and gets the
character when the call returns 1. -/
def next (s : System U) (a : Act) : System U where
  tty := if a = .call ∧ r.waits s.user = false then s.tty else Giet.Tty.next k contexts procId taskId s.tty a
  user := (returned (events k procId taskId s.tty a)).foldl r.take s.user

def init (buf : ℕ → Byte) : System U := ⟨Giet.Tty.init buf, r.start⟩

def run (buf : ℕ → Byte) (a : ℕ → Act) : ℕ → System U := Clocked.run (next k contexts procId taskId r) (init r buf) a

def trace (buf : ℕ → Byte) (a : ℕ → Act) : ℕ → List Event :=
  Clocked.log (next k contexts procId taskId r) (fun s => events k procId taskId s.tty) (init r buf) a

end Machine

/-! ### What the reader has -/

section Safety

variable {k : Params} {contexts : ℕ → Word} {procId taskId : Word} {r : Reader U} {s : System U} {l l' : List Event}

theorem received_append (l l' : List Event) : received (l ++ l') = received l ++ received l' := List.filterMap_append

theorem returned_append (l l' : List Event) : returned (l ++ l') = returned l ++ returned l' := List.filterMap_append

theorem overwritten_append (l l' : List Event) : overwritten (l ++ l') = overwritten l + overwritten l' :=
  List.countP_append

/-- The reader has exactly what was returned to it, which it needed. -/
structure Delivered (r : Reader U) (s : System U) (l : List Event) : Prop where
  user : s.user = r.after (returned l)
  needed : ∀ p c, p ++ [c] <+: returned l → r.waits (r.after p) = true
  inOrder : (returned l).Sublist (received l)
  /-- without an overrun nothing is left out -/
  whole : overwritten l = 0 → returned l <+: received l

/-- The invariant of a run. -/
structure Good (i : ℕ) (r : Reader U) (s : System U) (l : List Event) : Prop where
  inv : Inv i s.tty l
  user : s.user = r.after (returned l)
  needed : ∀ p c, p ++ [c] <+: returned l → r.waits (r.after p) = true
  calling : s.tty.pc ≠ .outside → r.waits s.user = true

theorem good_init (i : ℕ) (buf : ℕ → Byte) : Good i r (init r buf) [] where
  inv := inv_init i buf
  user := rfl
  needed p c h := by
    rw [show returned ([] : List Event) = [] from rfl, List.prefix_nil] at h
    simp at h
  calling h := absurd rfl h

/-- A step of the task's machine in which nothing is returned. -/
theorem Good.silent {i : ℕ} (h : Good i r s l) {tty : Giet.Tty.State} (hinv : Inv i tty (l ++ l'))
    (hl : returned l' = []) (hpc : tty.pc ≠ .outside → r.waits s.user = true) : Good i r ⟨tty, s.user⟩ (l ++ l') := by
  have hsame : returned (l ++ l') = returned l := by rw [returned_append, hl, List.append_nil]
  exact ⟨hinv, by rw [hsame]; exact h.user, by rw [hsame]; exact h.needed, hpc⟩

theorem good_next (hid : ttyReadIrqId k contexts procId taskId = isrTtyGetId k procId taskId) (a : Act)
    (h : Good (entry k contexts procId taskId) r s l) :
    Good (entry k contexts procId taskId) r (next k contexts procId taskId r s a)
      (l ++ events k procId taskId s.tty a) := by
  have hinv := inv_next hid a h.inv
  cases a with
  | call =>
    cases hw : r.waits s.user with
    | true =>
      have hnext : next k contexts procId taskId r s .call =
          ⟨Giet.Tty.next k contexts procId taskId s.tty .call, s.user⟩ := by
        simp [next, hw, events, returned]
      rw [hnext]
      exact h.silent hinv rfl fun _ => hw
    | false =>
      have hnext : next k contexts procId taskId r s .call = s := by simp [next, hw, events, returned]
      have hnone : l ++ events k procId taskId s.tty .call = l := List.append_nil l
      rw [hnext, hnone]
      exact h
  | isr u w =>
    have hnone : returned (events k procId taskId s.tty (.isr u w)) = [] := by
      unfold events
      dsimp only
      split_ifs <;> rfl
    have hnext : next k contexts procId taskId r s (.isr u w) =
        ⟨Giet.Tty.next k contexts procId taskId s.tty (.isr u w), s.user⟩ := by
      simp [next, hnone]
    rw [hnext]
    exact h.silent hinv hnone h.calling
  | access =>
    cases hpc : s.tty.pc with
    | outside =>
      have hnext : next k contexts procId taskId r s .access =
          ⟨Giet.Tty.next k contexts procId taskId s.tty .access, s.user⟩ := by
        simp [next, events, hpc, returned]
      rw [hnext]
      exact h.silent hinv (by simp [events, hpc, returned]) (by simp [Giet.Tty.next, hpc])
    | test =>
      have hnext : next k contexts procId taskId r s .access =
          ⟨Giet.Tty.next k contexts procId taskId s.tty .access, s.user⟩ := by
        simp [next, events, hpc, returned]
      rw [hnext]
      exact h.silent hinv (by simp [events, hpc, returned]) fun _ => h.calling (by simp [hpc])
    | load =>
      have hnext : next k contexts procId taskId r s .access =
          ⟨Giet.Tty.next k contexts procId taskId s.tty .access, s.user⟩ := by
        simp [next, events, hpc, returned]
      rw [hnext]
      exact h.silent hinv (by simp [events, hpc, returned]) fun _ => h.calling (by simp [hpc])
    | reset c =>
      have hev : events k procId taskId s.tty .access = [.returned c] := by simp [events, hpc]
      have hret : returned (l ++ [Event.returned c]) = returned l ++ [c] := returned_returned c
      rw [hev] at hinv ⊢
      refine ⟨?_, ?_, ?_, ?_⟩
      · simpa [next] using hinv
      · rw [hret, r.after_concat, ← h.user]
        simp [next, hev, returned]
      · intro p d hp
        rw [hret] at hp
        rcases List.prefix_concat_iff.mp hp with heq | hp
        · obtain ⟨rfl, -⟩ := List.append_inj' heq rfl
          rw [← h.user]
          exact h.calling (by simp [hpc])
        · exact h.needed p d hp
      · intro hout
        exact absurd (by simp [next, Giet.Tty.next, hpc]) hout

/-- Without an overrun the characters returned are the first ones received. -/
theorem prefix_of_inv {i : ℕ} {tty : Giet.Tty.State} (h : Inv i tty l) (hno : overwritten l = 0) :
    returned l <+: received l := by
  have hcount := h.count
  rcases h.bit with hf | hf
  · rw [hno, hf] at hcount
    rw [h.inOrder.eq_of_length hcount.symm]
  · rw [hno, hf] at hcount
    have hone : (received l).length = (returned l).length + 1 := hcount
    by_cases hreset : ∃ c, tty.pc = .reset c
    · -- the character is read, and will be returned
      obtain ⟨c, hc⟩ := hreset
      have heq := (h.taken c hc).eq_of_length (by rw [List.length_append, hone]; rfl)
      exact ⟨[c], heq⟩
    · obtain ⟨earlier, hearlier, hsub⟩ := h.waits hf fun c hc => hreset ⟨c, hc⟩
      have hlen : (returned l).length = earlier.length := by
        rw [hearlier, List.length_append] at hone
        exact (Nat.add_right_cancel hone).symm
      rw [hearlier, hsub.eq_of_length hlen]
      exact List.prefix_append _ _

theorem good_run (hid : ttyReadIrqId k contexts procId taskId = isrTtyGetId k procId taskId) (buf : ℕ → Byte)
    (a : ℕ → Act) (n : ℕ) : Good (entry k contexts procId taskId) r (run k contexts procId taskId r buf a n)
      (trace k contexts procId taskId r buf a n) :=
  Clocked.log_inv (Good (entry k contexts procId taskId) r) (good_init _ buf) (fun t _ _ h => good_next hid (a t) h) n

/-- **A reader has what was returned to it.** A task reads its own terminal
with any function, and the interrupt routine runs anywhere between its
accesses: what the function has is that of the characters returned, which are
in order among the characters received, and the first of them if there was no
overrun. It takes no character after the last one that it needs. -/
theorem delivered_run (hid : ttyReadIrqId k contexts procId taskId = isrTtyGetId k procId taskId) (buf : ℕ → Byte)
    (a : ℕ → Act) (n : ℕ) : Delivered r (run k contexts procId taskId r buf a n)
      (trace k contexts procId taskId r buf a n) := by
  have h : Good _ r _ (trace k contexts procId taskId r buf a n) := good_run hid buf a n
  exact ⟨h.user, h.needed, h.inv.inOrder, prefix_of_inv h.inv⟩

/-- The second character overruns the first. -/
theorem delivered_overrun : Delivered ttyGetcIrq (run fourTasks (fun _ => 0) 0 1 ttyGetcIrq (fun _ => 0) overrun 7)
    (trace fourTasks (fun _ => 0) 0 1 ttyGetcIrq (fun _ => 0) overrun 7) :=
  delivered_run (by decide) (fun _ => 0) overrun 7

end Safety

/-! ### The reader ends -/

/-- The task goes on running. -/
structure Fair (a : ℕ → Act) : Prop where
  call : Temporal.Recurs fun t => a t = .call
  access : Temporal.Recurs fun t => a t = .access

section Liveness

variable {k : Params} {contexts : ℕ → Word} {procId taskId : Word} {r : Reader U} {buf : ℕ → Byte} {a : ℕ → Act}
  {st : ℕ → System U} {log : ℕ → List Event}

/-- A run without an overrun. -/
structure Steps (k : Params) (contexts : ℕ → Word) (procId taskId : Word) (r : Reader U) (a : ℕ → Act)
    (st : ℕ → System U) (log : ℕ → List Event) : Prop where
  own : ttyReadIrqId k contexts procId taskId = isrTtyGetId k procId taskId
  good : ∀ t, Good (entry k contexts procId taskId) r (st t) (log t)
  st_succ : ∀ t, st (t + 1) = next k contexts procId taskId r (st t) (a t)
  log_succ : ∀ t, log (t + 1) = log t ++ events k procId taskId (st t).tty (a t)
  noOverrun : ∀ t, overwritten (log t) = 0

/-- What is received is `input`, its last character waits in the kernel, and
the reader waits for it. -/
structure Pending (i : ℕ) (r : Reader U) (input : List Byte) (s : System U) (l : List Event) : Prop where
  received : received l = input
  full : s.tty.ttyGetFull i = 1
  waits : r.waits s.user = true

namespace Steps

/-- Nothing is received while a character waits. -/
theorem isr_ne (h : Steps k contexts procId taskId r a st log) {t : ℕ} {u w : Word} (ha : a t = .isr u w)
    (hfull : (st t).tty.ttyGetFull (entry k contexts procId taskId) = 1) : u ≠ taskId := by
  intro hu
  have hentry : (isrTtyGetId k procId u).toNat = entry k contexts procId taskId := by rw [entry, h.own, hu]
  have hover := h.noOverrun (t + 1)
  have hone : overwritten [Event.received (w.setWidth 8) 1] = 1 := rfl
  rw [h.log_succ, overwritten_append, h.noOverrun t, ha] at hover
  simp only [events, if_pos hu, hentry, hfull, hone] at hover
  cases hover

/-- Until the character is returned, only the place in the call changes. -/
theorem pending_succ (h : Steps k contexts procId taskId r a st log) {t : ℕ} {input : List Byte}
    (hp : Pending (entry k contexts procId taskId) r input (st t) (log t))
    (hstep : a t = .access → ∀ c, (st t).tty.pc ≠ .reset c) :
    Pending (entry k contexts procId taskId) r input (st (t + 1)) (log (t + 1)) ∧
      (st (t + 1)).tty.pc = (Giet.Tty.next k contexts procId taskId (st t).tty (a t)).pc := by
  rw [h.st_succ, h.log_succ]
  cases ha : a t with
  | call =>
    have hnext : next k contexts procId taskId r (st t) .call =
        ⟨Giet.Tty.next k contexts procId taskId (st t).tty .call, (st t).user⟩ := by
      simp [next, hp.waits, events, returned]
    have hfull : (Giet.Tty.next k contexts procId taskId (st t).tty .call).ttyGetFull = (st t).tty.ttyGetFull := by
      unfold Giet.Tty.next
      dsimp only
      split_ifs <;> rfl
    rw [hnext]
    exact ⟨⟨by rw [received_append, hp.received]; exact List.append_nil _, by rw [hfull]; exact hp.full, hp.waits⟩, rfl⟩
  | isr u w =>
    have hu := h.isr_ne ha hp.full
    have hev : events k procId taskId (st t).tty (.isr u w) = [] := if_neg hu
    have hother : entry k contexts procId taskId ≠ (isrTtyGetId k procId u).toNat := by
      intro he
      rw [entry, h.own] at he
      have hsum := BitVec.eq_of_toNat_eq he
      simp only [isrTtyGetId, defaultId, BitVec.add_right_inj] at hsum
      exact hu hsum.symm
    have hnext : next k contexts procId taskId r (st t) (.isr u w) =
        ⟨isrTtyGetIndexed k procId u w (st t).tty, (st t).user⟩ := by
      simp [next, hev, returned, Giet.Tty.next]
    rw [hnext, hev, List.append_nil]
    refine ⟨⟨hp.received, ?_, hp.waits⟩, rfl⟩
    show Function.update (st t).tty.ttyGetFull (isrTtyGetId k procId u).toNat 1 (entry k contexts procId taskId) = 1
    rw [Function.update_of_ne hother]
    exact hp.full
  | access =>
    have hev : events k procId taskId (st t).tty .access = [] := by
      cases hpc : (st t).tty.pc with
      | outside => simp [events, hpc]
      | test => simp [events, hpc]
      | load => simp [events, hpc]
      | reset c => exact absurd hpc (hstep ha c)
    have hfull : (Giet.Tty.next k contexts procId taskId (st t).tty .access).ttyGetFull = (st t).tty.ttyGetFull := by
      cases hpc : (st t).tty.pc with
      | outside => simp [Giet.Tty.next, hpc]
      | test => simp [Giet.Tty.next, hpc]
      | load => simp [Giet.Tty.next, hpc]
      | reset c => exact absurd hpc (hstep ha c)
    have hnext : next k contexts procId taskId r (st t) .access =
        ⟨Giet.Tty.next k contexts procId taskId (st t).tty .access, (st t).user⟩ := by
      simp [next, hev, returned]
    rw [hnext, hev, List.append_nil]
    exact ⟨⟨hp.received, by rw [hfull]; exact hp.full, hp.waits⟩, rfl⟩

/-- A call goes on only with the task's own accesses. -/
theorem pc_of_ne_access {s : Giet.Tty.State} {act : Act} (ha : act ≠ .access) (hpc : s.pc ≠ .outside) :
    (Giet.Tty.next k contexts procId taskId s act).pc = s.pc := by
  cases act with
  | call => rw [Giet.Tty.next, if_neg hpc]
  | access => exact absurd rfl ha
  | isr u w => rfl

theorem pc_of_ne_call {s : Giet.Tty.State} {act : Act} (ha : act ≠ .call) (hpc : s.pc = .outside) :
    (Giet.Tty.next k contexts procId taskId s act).pc = .outside := by
  cases act with
  | call => exact absurd rfl ha
  | access => simp [Giet.Tty.next, hpc]
  | isr u w => exact hpc

/-- A place in the call, with the last character of `input` waiting. -/
def Reading (i : ℕ) (r : Reader U) (input : List Byte) (st : ℕ → System U) (log : ℕ → List Event) (pc : Pc → Prop)
    (t : ℕ) : Prop :=
  Pending i r input (st t) (log t) ∧ pc (st t).tty.pc

/-- A call of the system call begins. -/
theorem leadsTo_test (h : Steps k contexts procId taskId r a st log) (hfair : Fair a) (input : List Byte) :
    Temporal.LeadsTo (Reading (entry k contexts procId taskId) r input st log (· = .outside))
      (Reading (entry k contexts procId taskId) r input st log (· = .test)) := by
  apply Temporal.LeadsTo.of_unless hfair.call
  intro t hp
  obtain ⟨hp, hpc0⟩ := hp
  obtain ⟨hp', hpc⟩ := h.pending_succ hp fun _ c => by rw [hpc0]; exact Pc.noConfusion
  by_cases ha : a t = .call
  · refine .inl ⟨t + 1, Nat.le_succ t, hp', hpc.trans ?_⟩
    rw [ha, Giet.Tty.next, if_pos hpc0]
  · exact .inr ⟨⟨hp', hpc.trans (pc_of_ne_call ha hpc0)⟩, ha⟩

/-- The task's next access in the call. -/
theorem leadsTo_access (h : Steps k contexts procId taskId r a st log) (hfair : Fair a) (input : List Byte) {pc : Pc}
    {next : Pc → Prop} (hout : pc ≠ .outside) (hreset : ∀ c, pc ≠ .reset c)
    (hnext : ∀ s : Giet.Tty.State, s.pc = pc → s.ttyGetFull (entry k contexts procId taskId) = 1 →
      next (Giet.Tty.next k contexts procId taskId s .access).pc) :
    Temporal.LeadsTo (Reading (entry k contexts procId taskId) r input st log (· = pc))
      (Reading (entry k contexts procId taskId) r input st log next) := by
  apply Temporal.LeadsTo.of_unless hfair.access
  intro t hp
  obtain ⟨hp, hpc0⟩ := hp
  obtain ⟨hp', hpc⟩ := h.pending_succ hp fun _ c => by rw [hpc0]; exact hreset c
  by_cases ha : a t = .access
  · refine .inl ⟨t + 1, Nat.le_succ t, hp', ?_⟩
    rw [hpc, ha]
    exact hnext _ hpc0 hp.full
  · exact .inr ⟨⟨hp', (hpc.trans (pc_of_ne_access ha (by rw [hpc0]; exact hout))).trans hpc0⟩, ha⟩

/-- With the flag reset, all that was received is returned. -/
theorem leadsTo_user (h : Steps k contexts procId taskId r a st log) (hfair : Fair a) (input : List Byte) :
    Temporal.LeadsTo (Reading (entry k contexts procId taskId) r input st log (∃ c, · = .reset c))
      fun t => (st t).user = r.after input := by
  apply Temporal.LeadsTo.of_unless hfair.access
  intro t hp
  obtain ⟨hp, c, hpc0⟩ := hp
  by_cases ha : a t = .access
  · refine .inl ⟨t + 1, Nat.le_succ t, ?_⟩
    have hev : events k procId taskId (st t).tty (a t) = [.returned c] := by simp [ha, events, hpc0]
    have hlog : log (t + 1) = log t ++ [.returned c] := by rw [h.log_succ, hev]
    have hzero : (st (t + 1)).tty.ttyGetFull (entry k contexts procId taskId) = 0 := by
      rw [h.st_succ, ha]
      simp [next, Giet.Tty.next, hpc0]
    have hgood := h.good (t + 1)
    have hcount := hgood.inv.count
    rw [h.noOverrun, hzero] at hcount
    have hall : returned (log (t + 1)) = received (log (t + 1)) := hgood.inv.inOrder.eq_of_length hcount.symm
    rw [hgood.user, hall, hlog, received_returned, hp.received]
  · obtain ⟨hp', hpc⟩ := h.pending_succ hp fun hacc => absurd hacc ha
    have hout : (st t).tty.pc ≠ .outside := by
      rw [hpc0]
      exact Pc.noConfusion
    exact .inr ⟨⟨hp', c, (hpc.trans (pc_of_ne_access ha hout)).trans hpc0⟩, ha⟩

/-- A character that waits is taken. -/
theorem leadsTo_returned (h : Steps k contexts procId taskId r a st log) (hfair : Fair a) (input : List Byte) :
    Temporal.LeadsTo (fun t => Pending (entry k contexts procId taskId) r input (st t) (log t))
      fun t => (st t).user = r.after input := by
  have load : Temporal.LeadsTo (Reading (entry k contexts procId taskId) r input st log (· = .load))
      fun t => (st t).user = r.after input := by
    refine (h.leadsTo_access hfair input (by decide) (fun c => Pc.noConfusion) fun s hpc _ => ?_).trans
      (h.leadsTo_user hfair input)
    exact ⟨s.ttyGetBuf (entry k contexts procId taskId), by simp [Giet.Tty.next, hpc]⟩
  have test : Temporal.LeadsTo (Reading (entry k contexts procId taskId) r input st log (· = .test))
      fun t => (st t).user = r.after input := by
    refine (h.leadsTo_access hfair input (by decide) (fun c => Pc.noConfusion) fun s hpc hfull => ?_).trans load
    simp [Giet.Tty.next, hpc, hfull]
  intro t hp
  cases hpc : (st t).tty.pc with
  | outside => exact ((h.leadsTo_test hfair input).trans test) t ⟨hp, hpc⟩
  | test => exact test t ⟨hp, hpc⟩
  | load => exact load t ⟨hp, hpc⟩
  | reset c => exact h.leadsTo_user hfair input t ⟨hp, c, hpc⟩

/-- **A reader ends on what is received.** -/
theorem user_iff (h : Steps k contexts procId taskId r a st log) (hfair : Fair a) {u : U} (hu : r.waits u = false) :
    (∃ n, (st n).user = u) ↔ ∃ n, r.after (received (log n)) = u := by
  constructor
  · intro hex
    obtain ⟨n, rfl⟩ := hex
    have hgood := h.good n
    rw [hgood.user] at hu ⊢
    exact ⟨n, Reader.after_of_prefix (prefix_of_inv hgood.inv (h.noOverrun n)) hu⟩
  · intro hex
    obtain ⟨n, rfl⟩ := hex
    have hgood := h.good n
    cases hw : r.waits (st n).user with
    | false =>
      rw [hgood.user] at hw
      exact ⟨n, by rw [hgood.user, Reader.after_of_prefix (prefix_of_inv hgood.inv (h.noOverrun n)) hw]⟩
    | true =>
      rcases hgood.inv.bit with hf | hf
      · have hcount := hgood.inv.count
        rw [h.noOverrun, hf] at hcount
        exact ⟨n, by rw [hgood.user, hgood.inv.inOrder.eq_of_length hcount.symm]⟩
      · obtain ⟨m, -, hm⟩ := h.leadsTo_returned hfair (received (log n)) n ⟨rfl, hf, hw⟩
        exact ⟨m, hm⟩

end Steps

/-- **A reader ends exactly on what is received.** A task that goes on running
reads its own terminal, and no character comes while the last one waits: the
reader ends in `u` if and only if the characters received up to some time make
it end there. -/
theorem reads_received_iff (hid : ttyReadIrqId k contexts procId taskId = isrTtyGetId k procId taskId)
    (hfair : Fair a) (hno : ∀ n, overwritten (trace k contexts procId taskId r buf a n) = 0) {u : U}
    (hu : r.waits u = false) : (∃ n, (run k contexts procId taskId r buf a n).user = u) ↔
      ∃ n, r.after (received (trace k contexts procId taskId r buf a n)) = u := by
  have h : Steps k contexts procId taskId r a (run k contexts procId taskId r buf a)
      (trace k contexts procId taskId r buf a) :=
    ⟨hid, good_run hid buf a, fun _ => rfl, fun _ => rfl, hno⟩
  exact h.user_iff hfair hu

end Liveness

/-! ### A run -/

section Typing

/-- Two digits, the second taken back, and another one. -/
def fortyTwo : List Byte := [0x34, 0x39, 0x7F, 0x32]

/-- They are typed with a line feed, while the task runs on. -/
def typing (t : ℕ) : Act :=
  if t % 8 = 0 ∧ t < 40 then .isr 1 (((fortyTwo ++ [0x0A]).getD (t / 8) 0).setWidth 32)
  else if t % 2 = 0 then .call else .access

theorem fair_typing : Fair typing := by
  refine ⟨fun t => ⟨8 * t + 42, by omega, ?_⟩, fun t => ⟨8 * t + 43, by omega, ?_⟩⟩
  · show typing (8 * t + 42) = .call
    unfold typing
    rw [if_neg (by omega), if_pos (by omega)]
  · show typing (8 * t + 43) = .access
    unfold typing
    rw [if_neg (by omega), if_neg (by omega)]

/-- Only up to the line feed there is something to overrun. -/
theorem noOverrun_typing {r : Reader U}
    (h : overwritten (trace fourTasks (fun _ => 0) 0 1 r (fun _ => 0) typing 40) = 0) (n : ℕ) :
    overwritten (trace fourTasks (fun _ => 0) 0 1 r (fun _ => 0) typing n) = 0 := by
  rcases Nat.le_total n 40 with hle | hge
  · refine Nat.eq_zero_of_le_zero (h ▸ ?_)
    refine monotone_nat_of_le_succ (f := fun n =>
      overwritten (trace fourTasks (fun _ => 0) 0 1 r (fun _ => 0) typing n)) (fun m => ?_) hle
    show _ ≤ overwritten (trace fourTasks (fun _ => 0) 0 1 r (fun _ => 0) typing m ++ events _ _ _ _ _)
    rw [overwritten_append]
    exact Nat.le_add_right _ _
  · induction n, hge using Nat.le_induction with
    | base => exact h
    | succ n hge ih =>
      -- nothing is typed any more
      have hquiet : ∀ tty, overwritten (events fourTasks 0 1 tty (typing n)) = 0 := by
        intro tty
        unfold typing
        rw [if_neg (by omega)]
        split_ifs
        · rfl
        · unfold events
          dsimp only
          split <;> rfl
      show overwritten (trace fourTasks (fun _ => 0) 0 1 r (fun _ => 0) typing n ++ events _ _ _ _ _) = 0
      rw [overwritten_append, ih, hquiet]

/-- `tty_gets_irq` ends as it does on the line. -/
theorem reads_received_typing :
    ∃ n, (run fourTasks (fun _ => 0) 0 1 (ttyGetsIrq (fun _ => 0) 8) (fun _ => 0) typing n).user =
      (ttyGetsIrq (fun _ => 0) 8).after (fortyTwo ++ [0x0A]) := by
  have htyped : received (trace fourTasks (fun _ => 0) 0 1 (ttyGetsIrq (fun _ => 0) 8) (fun _ => 0) typing 40) =
      fortyTwo ++ [0x0A] := by decide
  exact (reads_received_iff (by decide) fair_typing (noOverrun_typing (by decide)) rfl).mpr ⟨40, by rw [htyped]⟩

end Typing

/-! ### Lines and numbers -/

section Delivered

variable {k : Params} {contexts : ℕ → Word} {procId taskId : Word} {a : ℕ → Act} {buf kbuf : ℕ → Byte}

/-- At the line feed, the line is closed. -/
theorem loop_line {bufsize : Word} (hb : 1 ≤ bufsize.toNat) {before typed : List Byte} {s : TtyGets.State}
    (h : TtyGets.Holds bufsize before s) (hopen : TtyGets.Open (bufsize.toNat - 1) before typed)
    (hdel : ¬ TtyGets.DelOnEmpty (bufsize.toNat - 1) before typed) (rest : List Byte) :
    ∃ s', TtyGets.loop bufsize (typed ++ 0x0A :: rest) s = .returns (s'.store 0) ∧
      TtyGets.Holds bufsize (before ++ typed) s' := by
  have hbound : s.index < bufsize - 1 ↔ (TtyGets.lineOf before).length < bufsize.toNat - 1 := by
    rw [BitVec.lt_def, TtyGets.bound_toNat hb, h.length_eq]
  induction typed generalizing before s with
  | nil =>
    have hlen := hopen.2 [] List.prefix_rfl
    rw [List.append_nil] at hlen ⊢
    refine ⟨s, ?_, h⟩
    rw [List.nil_append, TtyGets.loop, if_pos (hbound.mpr hlen), if_pos rfl]
  | cons c typed ih =>
    obtain ⟨hlen, hc, hrest⟩ := TtyGets.open_cons.mp hopen
    rw [TtyGets.delOnEmpty_cons, and_iff_right hlen, not_or] at hdel
    have hlt := hbound.mpr hlen
    have hlt' : s.index.toNat < bufsize.toNat - 1 := by rwa [← h.length_eq]
    have hholds := h.take hlt' hdel.1
    obtain ⟨s', hs', hholds'⟩ := ih hholds hrest (fun hd => hdel.2 ⟨hc, hd⟩) (by
      rw [BitVec.lt_def, TtyGets.bound_toNat hb, hholds.length_eq])
    refine ⟨s', ?_, by rwa [List.append_assoc] at hholds'⟩
    rw [List.cons_append, TtyGets.loop, if_pos hlt, if_neg hc, hs']

/-- **A line that is typed reaches the program.** A task that goes on running
calls `tty_gets_irq` and no character comes while the last one waits: if a line
is typed that never fills the buffer, has no DEL on an empty line and ends with
a line feed, the function returns, and the buffer holds the line as edited,
closed by a NUL. -/
theorem line_delivered (hid : ttyReadIrqId k contexts procId taskId = isrTtyGetId k procId taskId) (hfair : Fair a)
    {bufsize : Word} (hb : 1 ≤ bufsize.toNat)
    (hno : ∀ n, overwritten (trace k contexts procId taskId (ttyGetsIrq buf bufsize) kbuf a n) = 0)
    {typed : List Byte} (hopen : TtyGets.Open (bufsize.toNat - 1) [] typed)
    (hdel : ¬ TtyGets.DelOnEmpty (bufsize.toNat - 1) [] typed) {n : ℕ}
    (htyped : typed ++ [0x0A] <+: received (trace k contexts procId taskId (ttyGetsIrq buf bufsize) kbuf a n)) :
    ∃ m s, (run k contexts procId taskId (ttyGetsIrq buf bufsize) kbuf a m).user = .returns s ∧
      s.consumed = typed ∧ TtyGets.EditsLine bufsize s := by
  obtain ⟨rest, hrest⟩ := htyped
  rw [List.append_assoc, List.singleton_append] at hrest
  have hstart : TtyGets.Holds bufsize [] ⟨buf, 0, [], []⟩ := ⟨rfl, rfl, Nat.zero_le _, nofun⟩
  obtain ⟨s, hs, hholds⟩ := loop_line hb hstart hopen hdel rest
  have hafter : (ttyGetsIrq buf bufsize).after
      (received (trace k contexts procId taskId (ttyGetsIrq buf bufsize) kbuf a n)) = .returns (s.store 0) := by
    rw [after_gets, ← hrest]
    exact hs
  obtain ⟨m, hm⟩ := (Steps.user_iff ⟨hid, good_run hid kbuf a, fun _ => rfl, fun _ => rfl, hno⟩ hfair rfl).mpr
    ⟨n, hafter⟩
  exact ⟨m, s.store 0, hm, hholds.consumed, hholds.close⟩

theorem line_delivered_typing : ∃ m s,
    (run fourTasks (fun _ => 0) 0 1 (ttyGetsIrq (fun _ => 0) 8) (fun _ => 0) typing m).user = .returns s ∧
      s.consumed = fortyTwo ∧ TtyGets.lineOf fortyTwo = [0x34, 0x32] ∧ TtyGets.EditsLine 8 s := by
  have hlen : ∀ p ∈ fortyTwo.inits, (TtyGets.lineOf ([] ++ p)).length < (8 : Word).toNat - 1 := by decide
  have hopen : TtyGets.Open ((8 : Word).toNat - 1) [] fortyTwo :=
    ⟨by decide, fun p hp => hlen p ((List.mem_inits p _).mpr hp)⟩
  have hdel : ¬ TtyGets.DelOnEmpty ((8 : Word).toNat - 1) [] fortyTwo := by
    intro h
    simp only [fortyTwo, TtyGets.delOnEmpty_cons] at h
    have hline : TtyGets.lineOf [0x34, 0x39] ≠ [] := by decide
    simp_all [TtyGets.not_delOnEmpty_nil]
  have htyped : received (trace fourTasks (fun _ => 0) 0 1 (ttyGetsIrq (fun _ => 0) 8) (fun _ => 0) typing 40) =
      fortyTwo ++ [0x0A] := by decide
  have hno : overwritten (trace fourTasks (fun _ => 0) 0 1 (ttyGetsIrq (fun _ => 0) 8) (fun _ => 0) typing 40) = 0 := by
    decide
  obtain ⟨m, s, hm, hconsumed, hs⟩ := line_delivered (by decide) fair_typing (by decide) (noOverrun_typing hno)
    hopen hdel (n := 40) ⟨[], by rw [List.append_nil, htyped]⟩
  exact ⟨m, s, hm, hconsumed, by decide, hs⟩

/-- **A number that is typed reaches the program.** For `tty_getw_irq`, under
the same conditions: if fewer than 32 digits are in the line at any time and
the number is below 2^32, the function returns the number when the line ends. -/
theorem number_delivered (hid : ttyReadIrqId k contexts procId taskId = isrTtyGetId k procId taskId) (hfair : Fair a)
    {tty : Terminal} (hno : ∀ n, overwritten (trace k contexts procId taskId (ttyGetwIrq buf tty) kbuf a n) = 0)
    {typed : List Byte} {e : Byte} (he : TtyGetw.isEnd e = true) (hend : ∀ c ∈ typed, TtyGetw.isEnd c = false)
    (hlen : ∀ q, q <+: typed → (TtyGetw.digitsOf q).length < 32)
    (hsmall : TtyGetw.number (TtyGetw.digitsOf typed) < 2 ^ 32) {n : ℕ}
    (htyped : typed ++ [e] <+: received (trace k contexts procId taskId (ttyGetwIrq buf tty) kbuf a n)) :
    ∃ m s, (run k contexts procId taskId (ttyGetwIrq buf tty) kbuf a m).user =
      .returns .value (BitVec.ofNat 32 (TtyGetw.number (TtyGetw.digitsOf typed))) s := by
  obtain ⟨rest, hrest⟩ := htyped
  rw [List.append_assoc, List.singleton_append] at hrest
  have hstart : TtyGetw.Holds [] ⟨buf, 0, [], tty⟩ := ⟨rfl, nofun⟩
  obtain ⟨s, hs, hholds⟩ := TtyGetw.loop_line hstart he hend hlen rest
  have hquiet : ¬ TtyGetw.Noticed (TtyGetw.digitsOf typed) := Numerals.not_drops_of_lt (Nat.succ_pos 9) hsmall
  have hafter : (ttyGetwIrq buf tty).after
      (received (trace k contexts procId taskId (ttyGetwIrq buf tty) kbuf a n)) =
        .returns .value (BitVec.ofNat 32 (TtyGetw.number (TtyGetw.digitsOf typed))) s := by
    rw [after_getw, ← hrest]
    exact hs.trans (TtyGetw.finish_of_quiet hholds hquiet)
  obtain ⟨m, hm⟩ := (Steps.user_iff ⟨hid, good_run hid kbuf a, fun _ => rfl, fun _ => rfl, hno⟩ hfair rfl).mpr
    ⟨n, hafter⟩
  exact ⟨m, s, hm⟩

theorem number_delivered_typing : ∃ m s,
    (run fourTasks (fun _ => 0) 0 1 (ttyGetwIrq (fun _ => 0) (.start fun _ => 0)) (fun _ => 0) typing m).user =
      .returns .value 42 s := by
  have hend : ∀ c ∈ fortyTwo, TtyGetw.isEnd c = false := by decide
  have hlen : ∀ q ∈ fortyTwo.inits, (TtyGetw.digitsOf q).length < 32 := by decide
  have htyped : received (trace fourTasks (fun _ => 0) 0 1 (ttyGetwIrq (fun _ => 0) (.start fun _ => 0)) (fun _ => 0)
      typing 40) = fortyTwo ++ [0x0A] := by decide
  have hvalue : BitVec.ofNat 32 (TtyGetw.number (TtyGetw.digitsOf fortyTwo)) = 42 := by decide
  rw [← hvalue]
  exact number_delivered (e := 0x0A) (by decide) fair_typing (noOverrun_typing (by decide)) rfl hend
    (fun q hq => hlen q ((List.mem_inits q _).mpr hq)) (by decide) (n := 40) ⟨[], by rw [List.append_nil, htyped]⟩

end Delivered

end TerminalInput
end App
end Smc
