/-
# The DMA of a processor, shared by its tasks

`_fb_write` and `_fb_read` (`giet_2011/sys/drivers.c`) wait until
`_dma_busy[proc_id]` is zero, set it and program the processor's DMA;
`_isr_dma` (`giet_2011/sys/irq_handler.c`) clears it when the transfer has
ended. System calls run with interrupts enabled, so the timer may switch to
another task between any two accesses: a run is any sequence of actions, one
access of one task each. The interrupt routine runs with interrupts masked and
is one action.

The test and the store are two accesses. A task that reads zero while another
has read zero and not stored yet makes two owners: `exclusive_iff` says that
nothing else can.

Key definitions: `next`, `events`, `Alone`, `Exclusive`.
Key theorem: `exclusive_iff`.
-/
import Smc.Lib.Clocked
import Smc.Lib.Traces
import Smc.Giet.Drivers

namespace Smc
namespace Giet
namespace Dma

open Drivers Traces

/-- The device: it holds its status from the end of a transfer to the reset. -/
inductive Device where
  | idle
  | running
  | ended (status : Word)
deriving DecidableEq, Repr

/-- Where a task is, with the register writes its call has still to make. -/
inductive Pc where
  | outside
  /-- in the waiting loop -/
  | testing (writes : List (DmaReg × Word))
  /-- out of the loop, `_dma_busy` is not stored yet -/
  | claiming (writes : List (DmaReg × Word))
  | programming (writes : List (DmaReg × Word))
deriving DecidableEq, Repr

/-- `_dma_busy` and `_dma_status` of the processor, its DMA and its tasks. -/
structure State (T : Type) where
  dmaBusy : BitVec 8
  dmaStatus : Word
  device : Device
  task : T → Pc

/-- The board, and what the DMA makes of a length written while it is not
idle. -/
structure Setup where
  board : Board
  overrun : Device → Word → Device

inductive Act (T : Type) where
  /-- a task calls a transfer function -/
  | call (t : T) (c : Call)
  /-- a task makes its next access -/
  | access (t : T)
  /-- the transfer ends and the DMA raises its interrupt -/
  | ends (status : Word)
  /-- the processor runs `_isr_dma` -/
  | isr
deriving DecidableEq

section Machine

variable {T : Type} [DecidableEq T] (k : Setup)

/-- `DMA_LEN` starts the transfer. -/
def write (d : Device) (r : DmaReg) (v : Word) : Device :=
  match r with
  | .len => if d = .idle then .running else k.overrun d v
  | _ => d

/-- The state after an action; one that cannot happen changes nothing. -/
def next (s : State T) : Act T → State T
  | .call t c =>
    match s.task t, c.perform k.board with
    | .outside, .ok (.dma writes) => { s with task := Function.update s.task t (.testing writes) }
    | _, _ => s
  | .access t =>
    match s.task t with
    | .outside => s
    | .testing writes =>
      if s.dmaBusy ≠ 0 then s else { s with task := Function.update s.task t (.claiming writes) }
    | .claiming writes => { s with dmaBusy := 1, task := Function.update s.task t (.programming writes) }
    | .programming [] => { s with task := Function.update s.task t .outside }
    | .programming ((r, v) :: writes) =>
      { s with
        device := write k s.device r v
        task := Function.update s.task t (if writes = [] then .outside else .programming writes) }
  | .ends status => if s.device = .running then { s with device := .ended status } else s
  | .isr =>
    match s.device with
    | .ended status => { s with dmaStatus := status, dmaBusy := 0, device := .idle }
    | _ => s

/-- What is seen of a run: the exits from the waiting loop, the writes to the
DMA, the runs of `_isr_dma`. -/
inductive Event (T : Type) where
  | exit (t : T)
  | wrote (t : T) (r : DmaReg) (v : Word)
  | isr
deriving DecidableEq

/-- The task leaves the waiting loop if it makes its next access now. -/
def Exits (s : State T) (t : T) : Prop := (∃ writes, s.task t = .testing writes) ∧ s.dmaBusy = 0

def events (s : State T) : Act T → List (Event T)
  | .access t =>
    match s.task t with
    | .testing _ => if s.dmaBusy ≠ 0 then [] else [.exit t]
    | .programming ((r, v) :: _) => [.wrote t r v]
    | _ => []
  | .isr =>
    match s.device with
    | .ended _ => [.isr]
    | _ => []
  | _ => []

def init (status : Word) : State T where
  dmaBusy := 0
  dmaStatus := status
  device := .idle
  task _ := .outside

def run (status : Word) (a : ℕ → Act T) : ℕ → State T := Clocked.run (next k) (init status) a

def trace (status : Word) (a : ℕ → Act T) : ℕ → List (Event T) := Clocked.log (next k) events (init status) a

end Machine

/-! ### Exclusive use -/

/-- The call has left the waiting loop and not written `DMA_LEN` yet. -/
def Pc.inside : Pc → Bool
  | .claiming _ | .programming _ => true
  | .outside | .testing _ => false

section Exclusive

variable {T : Type}

def Event.IsExit (e : Event T) : Prop := ∃ t, e = .exit t

def Event.IsIsr (e : Event T) : Prop := e = .isr

/-- Between two exits from the waiting loop `_isr_dma` has run; so at most one
call programs the DMA, and only when no transfer is running. -/
structure Exclusive (s : State T) (l : List (Event T)) : Prop where
  separated : Separated Event.IsExit Event.IsIsr l
  one : ∀ t u, (s.task t).inside → (s.task u).inside → t = u
  idle : ∀ t, (s.task t).inside → s.device = .idle

/-- If the action is an exit from the waiting loop, no other task is between
its own exit and its store of `_dma_busy`. -/
def Alone (s : State T) (a : Act T) : Prop :=
  ∀ t, a = .access t → Exits s t → ∀ u writes, s.task u ≠ .claiming writes

/-- What `_dma_busy` says when the calls are exclusive. -/
structure Inv (s : State T) (l : List (Event T)) : Prop extends Exclusive s l where
  free : s.dmaBusy = 0 → s.device = .idle ∧ ∀ u writes, s.task u ≠ .programming writes
  isOpen : Open Event.IsExit Event.IsIsr l ↔ (∃ t, (s.task t).inside) ∨ s.device ≠ .idle
  /-- the writes of a call are the end of a configuration -/
  writes : ∀ t ws, s.task t = .testing ws ∨ s.task t = .claiming ws ∨ s.task t = .programming ws →
    ws ≠ [] ∧ ∃ src dst length, ws <:+ dmaConfig src dst length

end Exclusive

/-! ### What a step can do -/

section Steps

variable {T : Type} [DecidableEq T] {k : Setup}

/-- The steps, by what they do to the DMA. -/
inductive Move (k : Setup) (s : State T) (a : Act T) (s' : State T) (es : List (Event T)) : Prop where
  | still (state : s' = s) (seen : es = [])
  /-- a call passes its check and comes to the waiting loop -/
  | begins (t : T) (src dst length : Word) (pc : s.task t = .outside)
      (state : s' = { s with task := Function.update s.task t (.testing (dmaConfig src dst length)) }) (seen : es = [])
  | exits (t : T) (ws : List (DmaReg × Word)) (act : a = .access t) (pc : s.task t = .testing ws)
      (busy : s.dmaBusy = 0)
      (state : s' = { s with task := Function.update s.task t (.claiming ws) }) (seen : es = [.exit t])
  | claims (t : T) (ws : List (DmaReg × Word)) (pc : s.task t = .claiming ws)
      (state : s' = { s with dmaBusy := 1, task := Function.update s.task t (.programming ws) }) (seen : es = [])
  | writes (t : T) (r : DmaReg) (v : Word) (ws : List (DmaReg × Word)) (pc : s.task t = .programming ((r, v) :: ws))
      (state : s' = { s with
        device := write k s.device r v
        task := Function.update s.task t (if ws = [] then .outside else .programming ws) })
      (seen : es = [.wrote t r v])
  /-- no call gets here, its last write is `DMA_LEN` -/
  | returns (t : T) (pc : s.task t = .programming [])
  | ends (status : Word) (device : s.device = .running) (state : s' = { s with device := .ended status })
      (seen : es = [])
  | served (status : Word) (device : s.device = .ended status)
      (state : s' = { s with dmaStatus := status, dmaBusy := 0, device := .idle }) (seen : es = [.isr])

/-- A call that gets to the DMA has one of its configurations to write. -/
theorem perform_eq_dma {c : Call} {b : Board} {ws : List (DmaReg × Word)} (h : c.perform b = .ok (.dma ws)) :
    ∃ src dst length, ws = dmaConfig src dst length := by
  have hc := ((Call.perform_eq_ok b).mp h).2
  cases c <;> simp only [Call.handed, Handed.dma.injEq, reduceCtorEq] at hc
  all_goals exact ⟨_, _, _, hc.symm⟩

/-- **What a step can do.** -/
theorem move_next (s : State T) (a : Act T) : Move k s a (next k s a) (events s a) := by
  cases a with
  | call t c =>
    simp only [next, events]
    split
    · rename_i ws hpc hok
      obtain ⟨src, dst, length, rfl⟩ := perform_eq_dma hok
      exact .begins t src dst length hpc rfl rfl
    · exact .still rfl rfl
  | access t =>
    cases hpc : s.task t with
    | outside => exact .still (by simp [next, hpc]) (by simp [events, hpc])
    | testing ws =>
      by_cases hb : s.dmaBusy = 0
      · exact .exits t ws rfl hpc hb (by simp [next, hpc, hb]) (by simp [events, hpc, hb])
      · refine .still ?_ ?_
        · simp only [next, hpc, ne_eq, hb, not_false_eq_true, ↓reduceIte]
        · simp only [events, hpc, ne_eq, hb, not_false_eq_true, ↓reduceIte]
    | claiming ws => exact .claims t ws hpc (by simp [next, hpc]) (by simp [events, hpc])
    | programming ws =>
      cases ws with
      | nil => exact .returns t hpc
      | cons w ws => exact .writes t w.1 w.2 ws hpc (by simp [next, hpc]) (by simp [events, hpc])
  | ends status =>
    by_cases hd : s.device = .running
    · exact .ends status hd (by simp [next, hd]) rfl
    · exact .still (by simp [next, hd]) rfl
  | isr =>
    cases hd : s.device with
    | ended status => exact .served status hd (by simp [next, hd]) (by simp [events, hd])
    | idle | running => exact .still (by simp [next, hd]) (by simp [events, hd])

end Steps

/-! ### Runs in which every exit is alone -/

section Device

variable {T : Type} {s : State T} {l : List (Event T)}

theorem inv_init (status : Word) : Inv (init status : State T) [] where
  separated := separated_nil
  one t u ht := by simp [init, Pc.inside] at ht
  idle t ht := rfl
  free _ := ⟨rfl, fun u ws => by simp [init]⟩
  isOpen := by simp [init, Pc.inside]
  writes t ws := by simp [init]

/-- Only an exit has to wait for the interrupt routine. -/
theorem Inv.stays_separated {e : Event T} (h : Inv s l) (he : ∀ t, e ≠ .exit t) :
    Separated Event.IsExit Event.IsIsr (l ++ [e]) := by
  refine separated_concat.mpr ⟨h.separated, ?_⟩
  rintro ⟨t, rfl⟩
  exact absurd rfl (he t)

/-- Nobody has the DMA: the flag is down, and no task is about to raise it. -/
theorem Inv.nobody (h : Inv s l) (hb : s.dmaBusy = 0) (hc : ∀ u ws, s.task u ≠ .claiming ws) (u : T) :
    (s.task u).inside = false := by
  cases hu : s.task u with
  | outside | testing _ => rfl
  | claiming ws => exact absurd hu (hc u ws)
  | programming ws => exact absurd hu ((h.free hb).2 u ws)

/-- While a transfer is under way no task is programming one. -/
theorem Inv.not_inside (h : Inv s l) (hd : s.device ≠ .idle) (u : T) : ¬ (s.task u).inside := fun hu => hd (h.idle u hu)

/-- Another register is not read by the device yet. -/
theorem Inv.wrote {t : T} {r : DmaReg} {v : Word} (h : Inv s l) : Inv s (l ++ [.wrote t r v]) where
  separated := h.stays_separated nofun
  one := h.one
  idle := h.idle
  free := h.free
  isOpen := by
    rw [← h.isOpen, open_concat]
    constructor
    · rintro (⟨u, he⟩ | ⟨ho, -⟩)
      · cases he
      · exact ho
    · exact fun ho => .inr ⟨ho, nofun⟩
  writes := h.writes

theorem Inv.ends {status : Word} (h : Inv s l) (hd : s.device = .running) :
    Inv { s with device := .ended status } l := by
  have hnobody := h.not_inside (by rw [hd]; nofun)
  have hopen : Open Event.IsExit Event.IsIsr l := h.isOpen.mpr (.inr (by rw [hd]; nofun))
  constructor
  · exact ⟨h.separated, h.one, fun u hu => absurd hu (hnobody u)⟩
  · intro hb
    have := (h.free hb).1
    rw [hd] at this
    cases this
  · exact ⟨fun _ => .inr nofun, fun _ => hopen⟩
  · exact h.writes

theorem Inv.served {status : Word} (h : Inv s l) (hd : s.device = .ended status) :
    Inv { s with dmaStatus := status, dmaBusy := 0, device := .idle } (l ++ [.isr]) := by
  have hnobody := h.not_inside (by rw [hd]; nofun)
  constructor
  · exact ⟨h.stays_separated nofun, h.one, fun _ _ => rfl⟩
  · refine fun _ => ⟨rfl, fun u ws hu => hnobody u ?_⟩
    show (s.task u).inside
    rw [show s.task u = .programming ws from hu]
    rfl
  · rw [open_concat]
    constructor
    · rintro (⟨u, he⟩ | ⟨-, hne⟩)
      · cases he
      · exact absurd rfl hne
    · rintro (⟨u, hu⟩ | hne)
      · exact absurd hu (hnobody u)
      · exact absurd rfl hne
  · exact h.writes

/-- A task that leaves the loop while another is between its exit and its
store makes a second exit without an interrupt. -/
theorem Inv.not_separated {a : Act T} (h : Inv s l) (ha : ¬ Alone s a) :
    ¬ Separated Event.IsExit Event.IsIsr (l ++ events s a) := by
  simp only [Alone, not_forall, not_not] at ha
  obtain ⟨t, rfl, ⟨⟨ws, hpc⟩, hb⟩, u, ws', hu⟩ := ha
  have hev : events s (.access t) = [.exit t] := by simp [events, hpc, hb]
  have hopen : Open Event.IsExit Event.IsIsr l := by
    refine h.isOpen.mpr (.inl ⟨u, ?_⟩)
    rw [hu]
    rfl
  rw [hev, separated_concat]
  exact fun hs => hs.2 ⟨t, rfl⟩ hopen

end Device

section Runs

variable {T : Type} [DecidableEq T] {k : Setup} {s : State T} {l : List (Event T)}

/-- `DMA_LEN` is the last register of a configuration. -/
theorem len_iff_last {r : DmaReg} {v src dst length : Word} {ws : List (DmaReg × Word)}
    (h : (r, v) :: ws <:+ dmaConfig src dst length) : r = .len ↔ ws = [] :=
  eq_last_iff [(.irqDisable, 0), (.src, src), (.dst, dst)] (by simp) h

theorem inside_update_of_eq {t : T} {pc : Pc} (h : pc.inside = (s.task t).inside) (u : T) :
    (Function.update s.task t pc u).inside = (s.task u).inside := by
  by_cases hu : u = t
  · rw [hu, Function.update_self, h]
  · rw [Function.update_of_ne hu]

/-- A task that moves on within its call, or begins one, and writes no
register: the others see the same device. -/
theorem Inv.of_moves {t : T} {pc : Pc} {busy : BitVec 8} (h : Inv s l) (hin : pc.inside = (s.task t).inside)
    (hbusy : busy = 0 → s.dmaBusy = 0 ∧ ∀ ws, pc ≠ .programming ws)
    (hws : ∀ ws, pc = .testing ws ∨ pc = .claiming ws ∨ pc = .programming ws →
      ws ≠ [] ∧ ∃ src dst length, ws <:+ dmaConfig src dst length) :
    Inv { s with dmaBusy := busy, task := Function.update s.task t pc } l where
  separated := h.separated
  one u v hu hv := by
    rw [inside_update_of_eq hin] at hu hv
    exact h.one u v hu hv
  idle u hu := by
    rw [inside_update_of_eq hin] at hu
    exact h.idle u hu
  free hb := by
    obtain ⟨hdev, hnone⟩ := h.free (hbusy hb).1
    refine ⟨hdev, fun u ws => ?_⟩
    show Function.update s.task t pc u ≠ _
    by_cases hu : u = t
    · rw [hu, Function.update_self]
      exact (hbusy hb).2 ws
    · rw [Function.update_of_ne hu]
      exact hnone u ws
  isOpen := by
    simp only [inside_update_of_eq hin]
    exact h.isOpen
  writes u ws := by
    show Function.update s.task t pc u = _ ∨ Function.update s.task t pc u = _ ∨ Function.update s.task t pc u = _ → _
    by_cases hu : u = t
    · rw [hu, Function.update_self]
      exact hws ws
    · rw [Function.update_of_ne hu]
      exact h.writes u ws

theorem Inv.exits {t : T} {ws : List (DmaReg × Word)} (h : Inv s l) (hpc : s.task t = .testing ws)
    (hb : s.dmaBusy = 0) (hc : ∀ u ws, s.task u ≠ .claiming ws) :
    Inv { s with task := Function.update s.task t (.claiming ws) } (l ++ [.exit t]) := by
  have hnobody := h.nobody hb hc
  have hclosed : ¬ Open Event.IsExit Event.IsIsr l := by
    rw [h.isOpen]
    rintro (⟨u, hu⟩ | hd)
    · rw [hnobody u] at hu
      cases hu
    · exact hd (h.free hb).1
  have honly : ∀ u, (Function.update s.task t (.claiming ws) u).inside → u = t := by
    intro u hu
    by_contra hne
    rw [Function.update_of_ne hne, hnobody u] at hu
    cases hu
  constructor
  · constructor
    · exact separated_concat.mpr ⟨h.separated, fun _ => hclosed⟩
    · intro u v hu hv
      rw [honly u hu, honly v hv]
    · exact fun _ _ => (h.free hb).1
  · refine fun _ => ⟨(h.free hb).1, fun u ws' => ?_⟩
    show Function.update s.task t (.claiming ws) u ≠ _
    by_cases hu : u = t
    · rw [hu, Function.update_self]
      nofun
    · rw [Function.update_of_ne hu]
      exact (h.free hb).2 u ws'
  · refine ⟨fun _ => .inl ⟨t, ?_⟩, fun _ => open_concat.mpr (.inl ⟨t, rfl⟩)⟩
    show (Function.update s.task t (.claiming ws) t).inside
    rw [Function.update_self]
    rfl
  · intro u ws'
    show Function.update s.task t (.claiming ws) u = _ ∨ _ → _
    by_cases hu : u = t
    · simp only [hu, Function.update_self, reduceCtorEq, Pc.claiming.injEq, false_or, or_false]
      rintro rfl
      exact h.writes t ws (.inl hpc)
    · simp only [Function.update_of_ne hu]
      exact h.writes u ws'

/-- The last write of a call starts the transfer. -/
theorem Inv.starts {t : T} {v : Word} {ws : List (DmaReg × Word)} (h : Inv s l)
    (hpc : s.task t = .programming ws) :
    Inv { s with device := .running, task := Function.update s.task t .outside } (l ++ [.wrote t .len v]) := by
  have hin : (s.task t).inside := by
    rw [hpc]
    rfl
  have hbusy : s.dmaBusy ≠ 0 := fun hb => (h.free hb).2 t ws hpc
  have hnobody : ∀ u, (Function.update s.task t .outside u).inside = false := by
    intro u
    by_cases hu : u = t
    · rw [hu, Function.update_self]
      rfl
    · rw [Function.update_of_ne hu, ← Bool.not_eq_true]
      exact fun hu' => hu (h.one u t hu' hin)
  have hopen : Open Event.IsExit Event.IsIsr l := h.isOpen.mpr (.inl ⟨t, hin⟩)
  constructor
  · constructor
    · exact h.stays_separated nofun
    · intro u w hu
      rw [hnobody u] at hu
      cases hu
    · intro u hu
      rw [hnobody u] at hu
      cases hu
  · exact fun hb => absurd hb hbusy
  · exact ⟨fun _ => .inr nofun, fun _ => open_concat.mpr (.inr ⟨hopen, nofun⟩)⟩
  · intro u ws'
    show Function.update s.task t .outside u = _ ∨ _ → _
    by_cases hu : u = t
    · simp [hu]
    · simp only [Function.update_of_ne hu]
      exact h.writes u ws'

theorem Inv.writesReg {t : T} {r : DmaReg} {v : Word} {ws : List (DmaReg × Word)} (h : Inv s l)
    (hpc : s.task t = .programming ((r, v) :: ws)) :
    Inv { s with
      device := write k s.device r v
      task := Function.update s.task t (if ws = [] then .outside else .programming ws) } (l ++ [.wrote t r v]) := by
  obtain ⟨-, src, dst, length, hsuf⟩ := h.writes t _ (.inr (.inr hpc))
  have hlast := len_iff_last hsuf
  have hin : (s.task t).inside := by
    rw [hpc]
    rfl
  by_cases hws : ws = []
  · obtain rfl := hlast.mpr hws
    rw [if_pos hws, write, if_pos (h.idle t hin)]
    exact h.starts hpc
  · have hdev : write k s.device r v = s.device := by
      cases r with
      | len => exact absurd (hlast.mp rfl) hws
      | src | dst | reset | irqDisable => rfl
    rw [if_neg hws, hdev]
    apply Inv.wrote
    apply h.of_moves
    · rw [hpc]
      rfl
    · exact fun hb => absurd hpc ((h.free hb).2 t _)
    · simp only [reduceCtorEq, Pc.programming.injEq, false_or]
      rintro ws' rfl
      exact ⟨hws, src, dst, length, (List.suffix_cons _ _).trans hsuf⟩

/-- Every step keeps the invariant, an exit if it is alone. -/
theorem inv_next {a : Act T} (h : Inv s l) (ha : Alone s a) : Inv (next k s a) (l ++ events s a) := by
  cases move_next (k := k) s a with
  | still hs he => rwa [hs, he, List.append_nil]
  | begins t src dst length hpc hs he =>
    rw [hs, he, List.append_nil]
    apply h.of_moves
    · rw [hpc]
      rfl
    · exact fun hb => ⟨hb, nofun⟩
    · simp only [reduceCtorEq, Pc.testing.injEq, or_false]
      rintro ws rfl
      exact ⟨nofun, src, dst, length, List.suffix_rfl⟩
  | exits t ws hact hpc hb hs he =>
    rw [hs, he]
    exact h.exits hpc hb (ha t hact ⟨⟨ws, hpc⟩, hb⟩)
  | claims t ws hpc hs he =>
    rw [hs, he, List.append_nil]
    apply h.of_moves
    · rw [hpc]
      rfl
    · exact fun hb => absurd hb (by decide)
    · simp only [reduceCtorEq, Pc.programming.injEq, false_or]
      rintro ws' rfl
      exact h.writes t ws (.inr (.inl hpc))
  | writes t r v ws hpc hs he =>
    rw [hs, he]
    exact h.writesReg hpc
  | returns t hpc => exact absurd rfl (h.writes t [] (.inr (.inr hpc))).1
  | ends status hd hs he =>
    rw [hs, he, List.append_nil]
    exact h.ends hd
  | served status hd hs he =>
    rw [hs, he]
    exact h.served hd

variable {status : Word} {a : ℕ → Act T}

theorem inv_run {n : ℕ} (h : ∀ m < n, Alone (run k status a m) (a m)) :
    Inv (run k status a n) (trace k status a n) := by
  induction n with
  | zero => exact inv_init status
  | succ n ih => exact inv_next (ih fun m hm => h m (by omega)) (h n (by omega))

/-- **The DMA is exclusive as long as every exit is alone.** For any tasks and
any run of them: in the first `n` steps there is an `_isr_dma` between two
exits from the waiting loop, one call at a time programs the DMA and no
transfer is running then, if and only if in these steps no task leaves the loop
while another is between its own exit and its store of `_dma_busy`. -/
theorem exclusive_iff (n : ℕ) :
    (∀ m ≤ n, Exclusive (run k status a m) (trace k status a m)) ↔ ∀ m < n, Alone (run k status a m) (a m) := by
  constructor
  · intro h m
    -- the exits before `m` were alone, so the invariant still holds at `m`
    induction m using Nat.strong_induction_on with
    | _ m ih =>
      intro hm
      have hinv : Inv (run k status a m) (trace k status a m) := inv_run fun j hj => ih j hj (by omega)
      by_contra ha
      exact hinv.not_separated ha (h (m + 1) (by omega)).separated
  · intro h m hm
    exact (inv_run fun j hj => h j (by omega)).toExclusive

end Runs

/-- Two tasks call `_fb_write`, and the timer switches to the second between
the first one's test and its store. -/
def preempted : ℕ → Act Bool
  | 0 => .call false (.fbWrite 0 0x1000 64)
  | 1 => .call true (.fbWrite 64 0x2000 64)
  | 2 => .access false
  | 3 => .access true
  | _ => .isr

/-- Both leave the waiting loop with no interrupt between, and both are about
to program the DMA. -/
theorem both_claim :
    ¬ Separated Event.IsExit Event.IsIsr (trace ⟨⟨0, 512⟩, fun d _ => d⟩ 0 preempted 4) ∧
    ∀ t, ((run ⟨⟨0, 512⟩, fun d _ => d⟩ 0 preempted 4).task t).inside := by
  constructor
  · intro h
    obtain ⟨z, hz, -⟩ := h [] (.exit false) [] (.exit true) [] (by decide) ⟨false, rfl⟩ ⟨true, rfl⟩
    simp at hz
  · decide

end Dma
end Giet
end Smc
