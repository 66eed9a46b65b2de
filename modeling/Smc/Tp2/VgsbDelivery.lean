/-
# The bus delivers every flit once, where it belongs

A run of `VciVgsb` from reset, with whatever the initiators and the targets
drive on its ports in each cycle, as long as an initiator keeps a command that
is not acknowledged (`Hold`). A command flit taken from an initiator is taken
by exactly one target in the same cycle, and the other way round, and so for
the responses (`cmdAtInitiator`, `cmdAtTarget`, `rspAtTarget`,
`rspAtInitiator`); the target is the one the first flit of the packet
addresses. The flits taken make up complete transactions, one after the other:
a command packet from an initiator to a target, and a response packet back
(`Transaction`).

The hold rule is what makes the target right: it is decoded when the initiator
gets the bus, one cycle before the first flit can be taken, so the first flit
must still be the one that was decoded (`Inv.routed`).
-/
import Smc.Tp2.VciVgsb

namespace Smc
namespace Tp2
namespace VciVgsb

variable (k : VciVgsb)

/-! ### Flits taken in a cycle -/

section Taken

variable (b : Bus) (p : Ports)

/-- A command flit is taken from initiator `j`. -/
def cmdAtInitiator (j : ℕ) : Bool := (p.initiator j).cmdval && (driveInitiator b p j).cmdack

/-- A command flit is taken by target `x`. -/
def cmdAtTarget (x : ℕ) : Bool := (driveTarget b p x).cmdval && (p.target x).cmdack

/-- A response flit is taken from target `x`. -/
def rspAtTarget (x : ℕ) : Bool := (p.target x).rspval && (driveTarget b p x).rspack

/-- A response flit is taken by initiator `j`. -/
def rspAtInitiator (j : ℕ) : Bool := (driveInitiator b p j).rspval && (p.initiator j).rspack

/-- A command flit moves between the selected initiator and target. -/
def cmdMoves : Prop :=
  b.regs.rFsm = .cmd ∧ (p.initiator b.regs.rInitiatorIndex).cmdval = true ∧
    (p.target b.regs.rTargetIndex).cmdack = true

/-- A response flit moves between the selected target and initiator. -/
def rspMoves : Prop :=
  b.regs.rFsm = .rsp ∧ (p.target b.regs.rTargetIndex).rspval = true ∧
    (p.initiator b.regs.rInitiatorIndex).rspack = true

instance : Decidable (cmdMoves b p) := by unfold cmdMoves; infer_instance
instance : Decidable (rspMoves b p) := by unfold rspMoves; infer_instance

theorem cmdAtInitiator_eq (j : ℕ) :
    cmdAtInitiator b p j = decide (cmdMoves b p ∧ j = b.regs.rInitiatorIndex) := by
  rw [Bool.eq_iff_iff, decide_eq_true_eq]
  simp only [cmdAtInitiator, driveInitiator_cmdack, Bool.and_eq_true, decide_eq_true_eq, cmdMoves]
  constructor
  · rintro ⟨h1, ⟨h2, rfl⟩, h3⟩
    exact ⟨⟨h2, h1, h3⟩, rfl⟩
  · rintro ⟨⟨h2, h1, h3⟩, rfl⟩
    exact ⟨h1, ⟨h2, rfl⟩, h3⟩

theorem cmdAtTarget_eq (x : ℕ) :
    cmdAtTarget b p x = decide (cmdMoves b p ∧ x = b.regs.rTargetIndex) := by
  rw [Bool.eq_iff_iff, decide_eq_true_eq]
  simp only [cmdAtTarget, driveTarget_cmdval, Bool.and_eq_true, decide_eq_true_eq, cmdMoves]
  constructor
  · rintro ⟨⟨⟨h1, rfl⟩, h2⟩, h3⟩
    exact ⟨⟨h1, h2, h3⟩, rfl⟩
  · rintro ⟨⟨h1, h2, h3⟩, rfl⟩
    exact ⟨⟨⟨h1, rfl⟩, h2⟩, h3⟩

theorem rspAtTarget_eq (x : ℕ) :
    rspAtTarget b p x = decide (rspMoves b p ∧ x = b.regs.rTargetIndex) := by
  rw [Bool.eq_iff_iff, decide_eq_true_eq]
  simp only [rspAtTarget, driveTarget_rspack, Bool.and_eq_true, decide_eq_true_eq, rspMoves]
  constructor
  · rintro ⟨h1, ⟨h2, rfl⟩, h3⟩
    exact ⟨⟨h2, h1, h3⟩, rfl⟩
  · rintro ⟨⟨h2, h1, h3⟩, rfl⟩
    exact ⟨h1, ⟨h2, rfl⟩, h3⟩

theorem rspAtInitiator_eq (j : ℕ) :
    rspAtInitiator b p j = decide (rspMoves b p ∧ j = b.regs.rInitiatorIndex) := by
  rw [Bool.eq_iff_iff, decide_eq_true_eq]
  simp only [rspAtInitiator, driveInitiator_rspval, Bool.and_eq_true, decide_eq_true_eq, rspMoves]
  constructor
  · rintro ⟨⟨⟨h1, rfl⟩, h2⟩, h3⟩
    exact ⟨⟨h1, h2, h3⟩, rfl⟩
  · rintro ⟨⟨h1, h2, h3⟩, rfl⟩
    exact ⟨⟨⟨h1, rfl⟩, h2⟩, h3⟩

/-- A cycle moves a command flit or a response flit, not both. -/
theorem not_rspMoves {b : Bus} {p : Ports} (h : cmdMoves b p) : ¬ rspMoves b p := by
  intro h'
  have := h.1.symm.trans h'.1
  cases this

/-- The first flits of the packets that are open after the cycle, by
initiator; `first` are those before it. -/
def firstNext (first : ℕ → Option Addr) (j : ℕ) : Option Addr :=
  if cmdAtInitiator b p j then
    if (p.initiator j).cmdFlit.eop then none else some ((first j).getD (p.initiator j).cmdFlit.address)
  else first j

end Taken

/-! ### Traces -/

/-- A flit taken on both sides of the bus. -/
inductive Event where
  | cmd (initiator target : ℕ) (flit : CmdFlit)
  | rsp (target initiator : ℕ) (flit : RspFlit)
deriving DecidableEq, Repr

/-- The flits taken in a cycle, read off the ports. -/
def events (b : Bus) (p : Ports) : List Event :=
  (List.range k.mNbInitiator).flatMap fun j => (List.range k.mNbTarget).flatMap fun x =>
    (if cmdAtInitiator b p j && cmdAtTarget b p x then [.cmd j x (p.initiator j).cmdFlit] else []) ++
    (if rspAtInitiator b p j && rspAtTarget b p x then [.rsp x j (p.target x).rspFlit] else [])

/-- A packet: its last flit, and only it, is marked. -/
def IsPacket {α : Type*} (last : α → Bool) (l : List α) : Prop :=
  ∃ fs z, l = fs ++ [z] ∧ last z = true ∧ ∀ f ∈ fs, last f = false

/-- A complete transaction. -/
structure Transaction where
  initiator : ℕ
  target : ℕ
  cmds : List CmdFlit
  rsps : List RspFlit
  cmds_packet : IsPacket (·.eop) cmds
  rsps_packet : IsPacket (·.reop) rsps

def Transaction.events (τ : Transaction) : List Event :=
  τ.cmds.map (.cmd τ.initiator τ.target) ++ τ.rsps.map (.rsp τ.target τ.initiator)

/-- The transaction is between ports of the bus, and its target is the one
its first flit addresses. -/
structure Transaction.Routed (τ : Transaction) : Prop where
  initiator_lt : τ.initiator < k.mNbInitiator
  target_lt : τ.target < k.mNbTarget
  route_eq : ∀ f, τ.cmds.head? = some f → k.route f.address = τ.target

theorem flatMap_range_single {α : Type*} {n m : ℕ} (hm : m < n) (f : ℕ → List α)
    (h : ∀ j, j ≠ m → f j = []) : (List.range n).flatMap f = f m := by
  induction n with
  | zero => omega
  | succ n ih =>
    rw [List.range_succ, List.flatMap_append, List.flatMap_singleton]
    by_cases hn : m = n
    · subst hn
      rw [List.flatMap_eq_nil_iff.mpr fun j hj => h j (by have := List.mem_range.mp hj; omega), List.nil_append]
    · rw [ih (by omega), h n (Ne.symm hn), List.append_nil]

theorem events_of_cmdMoves {b : Bus} {p : Ports} (hi : b.regs.rInitiatorIndex < k.mNbInitiator)
    (ht : b.regs.rTargetIndex < k.mNbTarget) (h : cmdMoves b p) :
    k.events b p = [.cmd b.regs.rInitiatorIndex b.regs.rTargetIndex
      (p.initiator b.regs.rInitiatorIndex).cmdFlit] := by
  simp only [events, cmdAtInitiator_eq, cmdAtTarget_eq, rspAtInitiator_eq, not_rspMoves h, h]
  rw [flatMap_range_single hi, flatMap_range_single ht]
  · simp
  · exact fun x hx => by simp [hx]
  · exact fun j hj => by simp [hj]

theorem events_of_rspMoves {b : Bus} {p : Ports} (hi : b.regs.rInitiatorIndex < k.mNbInitiator)
    (ht : b.regs.rTargetIndex < k.mNbTarget) (h : rspMoves b p) :
    k.events b p = [.rsp b.regs.rTargetIndex b.regs.rInitiatorIndex
      (p.target b.regs.rTargetIndex).rspFlit] := by
  have hc : ¬ cmdMoves b p := fun h' => not_rspMoves h' h
  simp only [events, cmdAtInitiator_eq, rspAtTarget_eq, rspAtInitiator_eq, hc, h]
  rw [flatMap_range_single hi, flatMap_range_single ht]
  · simp
  · exact fun x hx => by simp [hx]
  · exact fun j hj => by simp [hj]

theorem events_of_still {b : Bus} {p : Ports} (hc : ¬ cmdMoves b p) (hr : ¬ rspMoves b p) :
    k.events b p = [] := by
  simp [events, cmdAtInitiator_eq, rspAtInitiator_eq, hc, hr]

/-! ### The invariant -/

/-- The VCI hold rule between a cycle and the next: a command that is not
acknowledged stays on the port. -/
def Hold (b : Bus) (p p' : Ports) : Prop :=
  ∀ j < k.mNbInitiator, (p.initiator j).cmdval = true → (driveInitiator b p j).cmdack = false →
    (p'.initiator j).cmdval = true ∧ (p'.initiator j).cmdFlit = (p.initiator j).cmdFlit

/-- The flits of the transaction under way, by the state of the bus. -/
def Current (s : Regs) (first : ℕ → Option Addr) (cur : List Event) : Prop :=
  match s.rFsm with
  | .idle => cur = []
  | .cmd => ∃ fs : List CmdFlit, cur = fs.map (.cmd s.rInitiatorIndex s.rTargetIndex) ∧
      (∀ f ∈ fs, f.eop = false) ∧ first s.rInitiatorIndex = fs.head?.map (·.address)
  | .rsp => ∃ (cs : List CmdFlit) (rs : List RspFlit),
      cur = cs.map (.cmd s.rInitiatorIndex s.rTargetIndex) ++ rs.map (.rsp s.rTargetIndex s.rInitiatorIndex) ∧
      IsPacket (·.eop) cs ∧ (∀ f, cs.head? = some f → k.route f.address = s.rTargetIndex) ∧
      ∀ f ∈ rs, f.reop = false

/-- What holds in every cycle: `p` are the ports of the cycle, `first` the
first flits of the open packets, `tr` the flits taken so far. -/
structure Inv (b : Bus) (p : Ports) (first : ℕ → Option Addr) (tr : List Event) : Prop where
  initiator_lt : 0 < k.mNbInitiator ∨ b.regs.rFsm ≠ .idle → b.regs.rInitiatorIndex < k.mNbInitiator
  target_lt : b.regs.rTargetIndex < k.mNbTarget
  first_eq : ∀ j < k.mNbInitiator, (b.regs.rFsm = .cmd → j ≠ b.regs.rInitiatorIndex) → first j = none
  routed : b.regs.rFsm = .cmd →
    match first b.regs.rInitiatorIndex with
    | some a => k.route a = b.regs.rTargetIndex
    | none => (p.initiator b.regs.rInitiatorIndex).cmdval = true ∧
        k.route (p.initiator b.regs.rInitiatorIndex).cmdFlit.address = b.regs.rTargetIndex
  trace : ∃ (done : List Transaction) (cur : List Event), tr = done.flatMap Transaction.events ++ cur ∧
    (∀ τ ∈ done, τ.Routed k) ∧ Current k b.regs first cur

theorem inv_reset (b : Bus) (p p' : Ports) : Inv k (k.reset b p) p' (fun _ => none) [] where
  initiator_lt h := by
    rcases h with h | h
    · exact h
    · exact absurd rfl h
  target_lt := lt_of_le_of_lt (Nat.zero_le _) (k.route_lt 0)
  first_eq _ _ _ := rfl
  routed h := by cases h
  trace := ⟨[], [], rfl, nofun, rfl⟩

/-! ### One cycle -/

section Cycle

variable {k} {b : Bus} {p p' : Ports} {first : ℕ → Option Addr} {tr : List Event}

theorem firstNext_of_still (hc : ¬ cmdMoves b p) : firstNext b p first = first := by
  funext j
  simp [firstNext, cmdAtInitiator_eq, hc]

theorem firstNext_of_ne {j : ℕ} (hj : j ≠ b.regs.rInitiatorIndex) : firstNext b p first j = first j := by
  simp [firstNext, cmdAtInitiator_eq, hj]

theorem firstNext_of_cmdMoves (h : cmdMoves b p) : firstNext b p first b.regs.rInitiatorIndex =
    if (p.initiator b.regs.rInitiatorIndex).cmdFlit.eop then none
    else some ((first b.regs.rInitiatorIndex).getD (p.initiator b.regs.rInitiatorIndex).cmdFlit.address) := by
  simp [firstNext, cmdAtInitiator_eq, h]

theorem inv_idle (h : Inv k b p first tr) (hh : k.Hold b p p') (hf : b.regs.rFsm = .idle) :
    Inv k (k.cycle b p) p' (firstNext b p first) (tr ++ k.events b p) := by
  have hc : ¬ cmdMoves b p := fun h' => by have := hf.symm.trans h'.1; cases this
  have hr : ¬ rspMoves b p := fun h' => by have := hf.symm.trans h'.1; cases this
  have hnone : ∀ j < k.mNbInitiator, first j = none := fun j hj =>
    h.first_eq j hj fun h' => by have := hf.symm.trans h'; cases this
  obtain ⟨done, cur, rfl, hd, hcur⟩ := h.trace
  simp only [Current, hf] at hcur
  subst hcur
  rw [firstNext_of_still hc, k.events_of_still hc hr, List.append_nil]
  rcases k.transition_idle (p := p) hf with ⟨j, hj, ht⟩ | ⟨-, ht⟩
  · -- initiator `j` gets the bus, and holds its command for the next cycle
    obtain ⟨hlt, hval⟩ := k.arbitrate_lt hj
    have hack : (driveInitiator b p j).cmdack = false := by simp [driveInitiator_cmdack, hf]
    obtain ⟨hval', hflit'⟩ := hh j hlt hval hack
    have hregs : (k.cycle b p).regs = k.grant b.regs p j := ht
    refine ⟨?_, ?_, fun j' hj' _ => hnone j' hj', ?_, done, [], rfl, hd, ?_⟩ <;> rw [hregs]
    · exact fun _ => hlt
    · exact k.route_lt _
    · intro _
      simp only [grant, hnone j hlt, hflit']
      exact ⟨hval', trivial⟩
    · exact ⟨[], rfl, nofun, hnone j hlt⟩
  · have hregs : (k.cycle b p).regs = b.regs := ht
    refine ⟨?_, ?_, fun j' hj' _ => hnone j' hj', ?_, done, [], rfl, hd, ?_⟩ <;> rw [hregs]
    · exact h.initiator_lt
    · exact h.target_lt
    · exact fun h' => by have := hf.symm.trans h'; cases this
    · simp [Current, hf]

/-- The first flit of the packet under way addresses the target, be it one
already taken or the one on the port. -/
theorem Inv.route_head (h : Inv k b p first tr) (hf : b.regs.rFsm = .cmd) {fs : List CmdFlit}
    (hfirst : first b.regs.rInitiatorIndex = fs.head?.map (·.address)) {z : CmdFlit}
    (hz : z.address = (p.initiator b.regs.rInitiatorIndex).cmdFlit.address) :
    ∀ g, (fs ++ [z]).head? = some g → k.route g.address = b.regs.rTargetIndex := by
  have hrt := h.routed hf
  intro g hg
  cases fs with
  | nil =>
    simp only [List.head?_nil, Option.map_none] at hfirst
    rw [hfirst] at hrt
    simp only [List.nil_append, List.head?_cons, Option.some.injEq] at hg
    rw [← hg, hz]
    exact hrt.2
  | cons g' fs =>
    simp only [List.head?_cons, Option.map_some] at hfirst
    rw [hfirst] at hrt
    simp only [List.cons_append, List.head?_cons, Option.some.injEq] at hg
    rw [← hg]
    exact hrt

theorem routed_concat {done : List Transaction} (hd : ∀ τ ∈ done, τ.Routed k) {τ : Transaction}
    (hτ : τ.Routed k) : ∀ τ' ∈ done ++ [τ], τ'.Routed k :=
  List.forall_mem_append.mpr ⟨hd, by simpa using hτ⟩

theorem not_rspMoves_of_cmd (hf : b.regs.rFsm = .cmd) : ¬ rspMoves b p := by
  intro h'
  have := hf.symm.trans h'.1
  cases this

/-- The registers after a cycle of a command: they stay until the last flit is
taken. -/
theorem cycle_cmd (hf : b.regs.rFsm = .cmd) (hc : cmdMoves b p)
    (he : (p.initiator b.regs.rInitiatorIndex).cmdFlit.eop = true) :
    (k.cycle b p).regs = { b.regs with rFsm := .rsp } := by
  have hend : cmdEnds b.regs p = true := by simp [cmdEnds, he, hc.2.1, hc.2.2]
  simp [cycle, k.transition_cmd hf, hend]

theorem cycle_cmd_of_not (hf : b.regs.rFsm = .cmd)
    (hn : cmdMoves b p → (p.initiator b.regs.rInitiatorIndex).cmdFlit.eop = false) :
    (k.cycle b p).regs = b.regs := by
  have hend : cmdEnds b.regs p = false := by
    rw [Bool.eq_false_iff]
    intro h'
    simp only [cmdEnds, Bool.and_eq_true] at h'
    have he := hn ⟨hf, h'.1.2, h'.2⟩
    rw [he] at h'
    exact absurd h'.1.1 (by decide)
  simp [cycle, k.transition_cmd hf, hend]

/-- The last flit of a command: the response is awaited. -/
theorem inv_cmd_last (h : Inv k b p first tr) (hf : b.regs.rFsm = .cmd) (hc : cmdMoves b p)
    (he : (p.initiator b.regs.rInitiatorIndex).cmdFlit.eop = true) :
    Inv k (k.cycle b p) p' (firstNext b p first) (tr ++ k.events b p) := by
  have hilt := h.initiator_lt (.inr (by rw [hf]; nofun))
  obtain ⟨done, cur, rfl, hd, hcur⟩ := h.trace
  simp only [Current, hf] at hcur
  obtain ⟨fs, rfl, hfs, hfirst⟩ := hcur
  have hev := k.events_of_cmdMoves hilt h.target_lt hc
  have hhead := h.route_head hf hfirst rfl
  have hnext : firstNext b p first b.regs.rInitiatorIndex = none := by
    rw [firstNext_of_cmdMoves hc, he]
    rfl
  set f := (p.initiator b.regs.rInitiatorIndex).cmdFlit with hfdef
  refine ⟨?_, ?_, ?_, ?_, done, (fs ++ [f]).map (.cmd b.regs.rInitiatorIndex b.regs.rTargetIndex), ?_, hd, ?_⟩
  · rw [cycle_cmd hf hc he]
    exact fun _ => hilt
  · rw [cycle_cmd hf hc he]
    exact h.target_lt
  · intro j hj _
    by_cases hne : j = b.regs.rInitiatorIndex
    · rw [hne]
      exact hnext
    · rw [firstNext_of_ne hne]
      exact h.first_eq j hj fun _ => hne
  · rw [cycle_cmd hf hc he]
    exact nofun
  · rw [hev, List.map_append, List.append_assoc]
    rfl
  · rw [cycle_cmd hf hc he]
    exact ⟨fs ++ [f], [], by simp, ⟨fs, f, rfl, he, hfs⟩, hhead, nofun⟩

/-- Another flit of a command. -/
theorem inv_cmd_more (h : Inv k b p first tr) (hf : b.regs.rFsm = .cmd) (hc : cmdMoves b p)
    (he : (p.initiator b.regs.rInitiatorIndex).cmdFlit.eop = false) :
    Inv k (k.cycle b p) p' (firstNext b p first) (tr ++ k.events b p) := by
  have hilt := h.initiator_lt (.inr (by rw [hf]; nofun))
  obtain ⟨done, cur, rfl, hd, hcur⟩ := h.trace
  simp only [Current, hf] at hcur
  obtain ⟨fs, rfl, hfs, hfirst⟩ := hcur
  have hev := k.events_of_cmdMoves hilt h.target_lt hc
  have hhead := h.route_head hf hfirst rfl
  have hregs := cycle_cmd_of_not (k := k) hf fun _ => he
  set f := (p.initiator b.regs.rInitiatorIndex).cmdFlit with hfdef
  have hnext : firstNext b p first b.regs.rInitiatorIndex = (fs ++ [f]).head?.map (·.address) := by
    rw [firstNext_of_cmdMoves hc, ← hfdef, he, hfirst]
    cases fs <;> rfl
  refine ⟨?_, ?_, ?_, ?_, done, (fs ++ [f]).map (.cmd b.regs.rInitiatorIndex b.regs.rTargetIndex), ?_, hd, ?_⟩
  · rw [hregs]
    exact h.initiator_lt
  · rw [hregs]
    exact h.target_lt
  · rw [hregs]
    intro j hj hne
    rw [firstNext_of_ne (hne hf)]
    exact h.first_eq j hj hne
  · rw [hregs]
    intro _
    obtain ⟨g, hg⟩ : ∃ g, (fs ++ [f]).head? = some g := by cases fs <;> exact ⟨_, rfl⟩
    rw [hnext, hg]
    exact hhead g hg
  · rw [hev, List.map_append, List.append_assoc]
    rfl
  · rw [hregs]
    simp only [Current, hf]
    exact ⟨fs ++ [f], rfl, List.forall_mem_append.mpr ⟨hfs, by simpa using he⟩, hnext⟩

/-- No flit moves, so the one on the port is held. -/
theorem inv_cmd_held (h : Inv k b p first tr) (hh : k.Hold b p p') (hf : b.regs.rFsm = .cmd) (hc : ¬ cmdMoves b p) :
    Inv k (k.cycle b p) p' (firstNext b p first) (tr ++ k.events b p) := by
  have hilt := h.initiator_lt (.inr (by rw [hf]; nofun))
  have hrt := h.routed hf
  rw [firstNext_of_still hc, k.events_of_still hc (not_rspMoves_of_cmd hf), List.append_nil]
  have hregs := cycle_cmd_of_not (k := k) (b := b) (p := p) hf fun h' => absurd h' hc
  refine ⟨?_, ?_, ?_, ?_, ?_⟩ <;> rw [hregs]
  · exact h.initiator_lt
  · exact h.target_lt
  · exact h.first_eq
  · intro _
    cases hfi : first b.regs.rInitiatorIndex with
    | some a => simpa [hfi] using hrt
    | none =>
      rw [hfi] at hrt
      obtain ⟨hval, hroute⟩ := hrt
      have hack : (driveInitiator b p b.regs.rInitiatorIndex).cmdack = false := by
        rw [driveInitiator_cmdack, Bool.and_eq_false_iff]
        right
        rw [Bool.eq_false_iff]
        exact fun h' => hc ⟨hf, hval, h'⟩
      obtain ⟨hval', hflit'⟩ := hh _ hilt hval hack
      exact ⟨hval', by rw [hflit']; exact hroute⟩
  · exact h.trace

theorem inv_cmd (h : Inv k b p first tr) (hh : k.Hold b p p') (hf : b.regs.rFsm = .cmd) :
    Inv k (k.cycle b p) p' (firstNext b p first) (tr ++ k.events b p) := by
  by_cases hc : cmdMoves b p
  · cases he : (p.initiator b.regs.rInitiatorIndex).cmdFlit.eop with
    | true => exact inv_cmd_last h hf hc he
    | false => exact inv_cmd_more h hf hc he
  · exact inv_cmd_held h hh hf hc

/-- In a response no command packet is open. -/
theorem Inv.first_of_rsp (h : Inv k b p first tr) (hf : b.regs.rFsm = .rsp) : ∀ j < k.mNbInitiator, first j = none :=
  fun j hj => h.first_eq j hj fun h' => by have := hf.symm.trans h'; cases this

theorem not_cmdMoves_of_rsp (hf : b.regs.rFsm = .rsp) : ¬ cmdMoves b p := by
  intro h'
  have := hf.symm.trans h'.1
  cases this

/-- The registers stay until the last flit of the response is taken. -/
theorem cycle_rsp_of_not (hf : b.regs.rFsm = .rsp)
    (hn : rspMoves b p → (p.target b.regs.rTargetIndex).rspFlit.reop = false) : (k.cycle b p).regs = b.regs := by
  have hend : rspEnds b.regs p = false := by
    rw [Bool.eq_false_iff]
    intro h'
    simp only [rspEnds, Bool.and_eq_true] at h'
    have he := hn ⟨hf, h'.1.2, h'.2⟩
    rw [he] at h'
    exact absurd h'.1.1 (by decide)
  obtain ⟨h', -⟩ | ⟨-, ht⟩ := k.transition_rsp (p := p) hf
  · rw [hend] at h'
    cases h'
  · exact ht

/-- The last flit of a response: the transaction is complete, and the index
registers may already name the next one. -/
theorem inv_rsp_last (h : Inv k b p first tr) (hf : b.regs.rFsm = .rsp) (hr : rspMoves b p)
    (he : (p.target b.regs.rTargetIndex).rspFlit.reop = true) :
    Inv k (k.cycle b p) p' (firstNext b p first) (tr ++ k.events b p) := by
  have hilt := h.initiator_lt (.inr (by rw [hf]; nofun))
  obtain ⟨done, cur, rfl, hd, hcur⟩ := h.trace
  simp only [Current, hf] at hcur
  obtain ⟨cs, rs, rfl, hcs, hhead, hrs⟩ := hcur
  have hev := k.events_of_rspMoves hilt h.target_lt hr
  have hend : rspEnds b.regs p = true := by simp [rspEnds, he, hr.2.1, hr.2.2]
  obtain ⟨-, ht⟩ | ⟨h', -⟩ := k.transition_rsp (p := p) hf
  swap
  · rw [hend] at h'
    cases h'
  let τ : Transaction :=
    { initiator := b.regs.rInitiatorIndex, target := b.regs.rTargetIndex, cmds := cs
      rsps := rs ++ [(p.target b.regs.rTargetIndex).rspFlit], cmds_packet := hcs
      rsps_packet := ⟨rs, _, rfl, he, hrs⟩ }
  have hfsm : (k.cycle b p).regs.rFsm = .idle := by
    show (k.transition true b.regs p).rFsm = _
    rw [ht]
  rw [firstNext_of_still (not_cmdMoves_of_rsp hf)]
  refine ⟨fun _ => ?_, ?_, fun j hj _ => h.first_of_rsp hf j hj, fun h' => ?_, done ++ [τ], [], ?_, ?_, ?_⟩
  · show (k.transition true b.regs p).rInitiatorIndex < _
    rw [ht]
    cases ha : k.arbitrate b.regs.rInitiatorIndex p with
    | none => exact hilt
    | some j => exact (k.arbitrate_lt ha).1
  · show (k.transition true b.regs p).rTargetIndex < _
    rw [ht]
    cases ha : k.arbitrate b.regs.rInitiatorIndex p with
    | none => exact h.target_lt
    | some j => exact k.route_lt _
  · rw [hfsm] at h'
    cases h'
  · rw [hev]
    simp [τ, Transaction.events]
  · exact routed_concat hd ⟨hilt, h.target_lt, hhead⟩
  · simp [Current, hfsm]

/-- Another flit of a response, or none. -/
theorem inv_rsp_more (h : Inv k b p first tr) (hf : b.regs.rFsm = .rsp)
    (hn : rspMoves b p → (p.target b.regs.rTargetIndex).rspFlit.reop = false) :
    Inv k (k.cycle b p) p' (firstNext b p first) (tr ++ k.events b p) := by
  have hilt := h.initiator_lt (.inr (by rw [hf]; nofun))
  have hc := not_cmdMoves_of_rsp (p := p) hf
  have hregs := cycle_rsp_of_not (k := k) hf hn
  rw [firstNext_of_still hc]
  refine ⟨?_, ?_, fun j hj _ => h.first_of_rsp hf j hj, ?_, ?_⟩ <;> rw [hregs]
  · exact h.initiator_lt
  · exact h.target_lt
  · exact fun h' => by have := hf.symm.trans h'; cases this
  by_cases hr : rspMoves b p
  · obtain ⟨done, cur, rfl, hd, hcur⟩ := h.trace
    simp only [Current, hf] at hcur ⊢
    obtain ⟨cs, rs, rfl, hcs, hhead, hrs⟩ := hcur
    refine ⟨done, _, ?_, hd, cs, rs ++ [(p.target b.regs.rTargetIndex).rspFlit], rfl, hcs, hhead, ?_⟩
    · rw [k.events_of_rspMoves hilt h.target_lt hr]
      simp
    · exact List.forall_mem_append.mpr ⟨hrs, by simpa using hn hr⟩
  · rw [k.events_of_still hc hr, List.append_nil]
    exact h.trace

theorem inv_rsp (h : Inv k b p first tr) (hf : b.regs.rFsm = .rsp) :
    Inv k (k.cycle b p) p' (firstNext b p first) (tr ++ k.events b p) := by
  by_cases hl : rspMoves b p ∧ (p.target b.regs.rTargetIndex).rspFlit.reop = true
  · exact inv_rsp_last h hf hl.1 hl.2
  · refine inv_rsp_more h hf fun hr => ?_
    rw [Bool.eq_false_iff]
    exact fun he => hl ⟨hr, he⟩

theorem inv_cycle (h : Inv k b p first tr) (hh : k.Hold b p p') :
    Inv k (k.cycle b p) p' (firstNext b p first) (tr ++ k.events b p) := by
  cases hf : b.regs.rFsm with
  | idle => exact inv_idle h hh hf
  | cmd => exact inv_cmd h hh hf
  | rsp => exact inv_rsp h hf

/-- The transaction under way can be completed, so the trace is a prefix of
complete transactions. -/
theorem Inv.prefix_of_complete (h : Inv k b p first tr) :
    ∃ full : List Transaction, tr <+: full.flatMap Transaction.events ∧ ∀ τ ∈ full, τ.Routed k := by
  obtain ⟨done, cur, rfl, hd, hcur⟩ := h.trace
  let lastRsp : RspFlit := { rdata := 0, reop := true, rerror := 0, rsrcid := 0, rtrdid := 0, rpktid := 0 }
  cases hf : b.regs.rFsm with
  | idle =>
    simp only [Current, hf] at hcur
    subst hcur
    exact ⟨done, by simp, hd⟩
  | cmd =>
    have hilt := h.initiator_lt (.inr (by rw [hf]; nofun))
    have hrt := h.routed hf
    simp only [Current, hf] at hcur
    obtain ⟨fs, rfl, hfs, hfirst⟩ := hcur
    let lastCmd : CmdFlit := { (p.initiator b.regs.rInitiatorIndex).cmdFlit with eop := true }
    let τ : Transaction :=
      { initiator := b.regs.rInitiatorIndex, target := b.regs.rTargetIndex
        cmds := fs ++ [lastCmd], rsps := [lastRsp]
        cmds_packet := ⟨fs, lastCmd, rfl, rfl, hfs⟩, rsps_packet := ⟨[], lastRsp, rfl, rfl, nofun⟩ }
    have hhead := h.route_head hf hfirst (z := lastCmd) rfl
    exact ⟨done ++ [τ], by simp [τ, Transaction.events], routed_concat hd ⟨hilt, h.target_lt, hhead⟩⟩
  | rsp =>
    have hilt := h.initiator_lt (.inr (by rw [hf]; nofun))
    simp only [Current, hf] at hcur
    obtain ⟨cs, rs, rfl, hcs, hhead, hrs⟩ := hcur
    let τ : Transaction :=
      { initiator := b.regs.rInitiatorIndex, target := b.regs.rTargetIndex, cmds := cs, rsps := rs ++ [lastRsp]
        cmds_packet := hcs, rsps_packet := ⟨rs, lastRsp, rfl, rfl, hrs⟩ }
    exact ⟨done ++ [τ], by simp [τ, Transaction.events], routed_concat hd ⟨hilt, h.target_lt, hhead⟩⟩

end Cycle

/-! ### Runs -/

/-- The bus at every cycle after reset. -/
def run (b : Bus) (p : ℕ → Ports) : ℕ → Bus := Clocked.run k.cycle (k.reset b (p 0)) p

/-- The first flits of the open packets at every cycle, by initiator. -/
def firstOpen (b : Bus) (p : ℕ → Ports) : ℕ → ℕ → Option Addr
  | 0 => fun _ => none
  | t + 1 => firstNext (k.run b p t) (p t) (firstOpen b p t)

/-- The address of the first flit of the packet that the flit on the port of
initiator `j` belongs to. -/
def firstAddr (b : Bus) (p : ℕ → Ports) (t j : ℕ) : Addr :=
  (k.firstOpen b p t j).getD ((p t).initiator j).cmdFlit.address

/-- The flits taken in the cycles before `t`. -/
def trace (b : Bus) (p : ℕ → Ports) : ℕ → List Event := Clocked.log k.cycle k.events (k.reset b (p 0)) p

theorem inv_run {b : Bus} {p : ℕ → Ports} (hh : ∀ t, k.Hold (k.run b p t) (p t) (p (t + 1))) (t : ℕ) :
    Inv k (k.run b p t) (p t) (k.firstOpen b p t) (k.trace b p t) := by
  induction t with
  | zero => exact k.inv_reset b (p 0) (p 0)
  | succ t ih => exact inv_cycle ih (hh t)

/-- **The bus delivers.** In every run from reset whose initiators keep the
hold rule, in every cycle: the index registers are in range; a command flit is
taken from an initiator exactly when one is taken by a target, one only, the
target the packet's first flit addresses, and it is the same flit; a response
flit is taken from a target exactly when one is taken by an initiator, and it
is the same flit; and the flits taken so far are a prefix of complete
transactions, each a command packet from an initiator to the target it
addresses and the response packet from that target to that initiator. -/
theorem delivers {b : Bus} {p : ℕ → Ports} (hh : ∀ t, k.Hold (k.run b p t) (p t) (p (t + 1))) (t : ℕ) :
    ((0 < k.mNbInitiator → (k.run b p t).regs.rInitiatorIndex < k.mNbInitiator) ∧
      (k.run b p t).regs.rTargetIndex < k.mNbTarget) ∧
    ((∀ j < k.mNbInitiator, cmdAtInitiator (k.run b p t) (p t) j = true →
        ∃ x < k.mNbTarget, x = k.route (k.firstAddr b p t j) ∧
          (∀ y < k.mNbTarget, cmdAtTarget (k.run b p t) (p t) y = true ↔ y = x) ∧
          (driveTarget (k.run b p t) (p t) x).cmdFlit = ((p t).initiator j).cmdFlit) ∧
      (∀ x < k.mNbTarget, cmdAtTarget (k.run b p t) (p t) x = true →
        ∃ j < k.mNbInitiator, ∀ j' < k.mNbInitiator, cmdAtInitiator (k.run b p t) (p t) j' = true ↔ j' = j)) ∧
    ((∀ j < k.mNbInitiator, rspAtInitiator (k.run b p t) (p t) j = true →
        ∃ x < k.mNbTarget, (∀ y < k.mNbTarget, rspAtTarget (k.run b p t) (p t) y = true ↔ y = x) ∧
          (driveInitiator (k.run b p t) (p t) j).rspFlit = ((p t).target x).rspFlit) ∧
      (∀ x < k.mNbTarget, rspAtTarget (k.run b p t) (p t) x = true →
        ∃ j < k.mNbInitiator, ∀ j' < k.mNbInitiator, rspAtInitiator (k.run b p t) (p t) j' = true ↔ j' = j)) ∧
    ∃ full : List Transaction, k.trace b p t <+: full.flatMap Transaction.events ∧ ∀ τ ∈ full, τ.Routed k := by
  have h := k.inv_run hh t
  set c := k.run b p t with hcdef
  refine ⟨⟨fun h0 => h.initiator_lt (.inl h0), h.target_lt⟩, ⟨fun j hj hc => ?_, fun x hx hc => ?_⟩,
    ⟨fun j hj hr => ?_, fun x hx hr => ?_⟩, h.prefix_of_complete⟩
  · rw [cmdAtInitiator_eq, decide_eq_true_eq] at hc
    obtain ⟨hm, rfl⟩ := hc
    refine ⟨c.regs.rTargetIndex, h.target_lt, ?_, fun y _ => ?_, driveTarget_cmdFlit _ _ _ hm.1 rfl⟩
    · have hrt := h.routed hm.1
      unfold firstAddr
      cases hfi : k.firstOpen b p t c.regs.rInitiatorIndex with
      | some a => rw [hfi] at hrt; exact hrt.symm
      | none => rw [hfi] at hrt; exact hrt.2.symm
    · simp [cmdAtTarget_eq, hm]
  · rw [cmdAtTarget_eq, decide_eq_true_eq] at hc
    obtain ⟨hm, rfl⟩ := hc
    refine ⟨c.regs.rInitiatorIndex, h.initiator_lt (.inr (by rw [hm.1]; nofun)), fun j' _ => ?_⟩
    simp [cmdAtInitiator_eq, hm]
  · rw [rspAtInitiator_eq, decide_eq_true_eq] at hr
    obtain ⟨hm, rfl⟩ := hr
    refine ⟨c.regs.rTargetIndex, h.target_lt, fun y _ => ?_, driveInitiator_rspFlit _ _ _ hm.1 rfl⟩
    simp [rspAtTarget_eq, hm]
  · rw [rspAtTarget_eq, decide_eq_true_eq] at hr
    obtain ⟨hm, rfl⟩ := hr
    refine ⟨c.regs.rInitiatorIndex, h.initiator_lt (.inr (by rw [hm.1]; nofun)), fun j' _ => ?_⟩
    simp [rspAtInitiator_eq, hm]

/-- Two initiators and one target. -/
def twoOnOne : VciVgsb where
  mNbInitiator := 2
  mNbTarget := 1
  mRoutingTable := { mUseBits := 0, mDropBits := 0, mLowMask := 0, mTable := fun _ => 0, lowMask_eq := rfl }
  routes _ _ := ⟨le_refl 0, Int.one_pos⟩

/-- Both initiators ask in every cycle, the target answers at once. -/
def allAsk : Ports where
  initiator _ :=
    { cmdval := true
      cmdFlit :=
        { address := 0, be := 4, cmd := .read, contig := true, wdata := 0, eop := true, plen := 4,
          srcid := 0, trdid := 0, pktid := 0 }
      rspack := true
      cons := false
      wrap := false
      cfixed := false
      clen := 0 }
  target _ :=
    { cmdack := true
      rspval := true
      rspFlit := { rdata := 0, reop := true, rerror := 0, rsrcid := 0, rtrdid := 0, rpktid := 0 } }

/-- Whatever the registers and signals before reset. -/
def anyBus : Bus where
  regs := { rFsm := .idle, rInitiatorIndex := 0, rTargetIndex := 0, rVciCounter := fun _ _ => 0 }
  toTarget := allAsk.initiator
  toInitiator := allAsk.target

/-- In cycle 1 the bus passes a command of initiator 1 to the target. -/
theorem delivers_second :
    cmdAtInitiator (twoOnOne.run anyBus (fun _ => allAsk) 1) allAsk 1 = true ∧
      ∃ x < 1, x = twoOnOne.route (twoOnOne.firstAddr anyBus (fun _ => allAsk) 1 1) ∧
        cmdAtTarget (twoOnOne.run anyBus (fun _ => allAsk) 1) allAsk x = true := by
  have h1 : cmdAtInitiator (twoOnOne.run anyBus (fun _ => allAsk) 1) allAsk 1 = true := by decide
  have hh : ∀ t, twoOnOne.Hold (twoOnOne.run anyBus (fun _ => allAsk) t) allAsk allAsk :=
    fun _ _ _ _ _ => ⟨rfl, rfl⟩
  obtain ⟨x, hx, hr, hy, -⟩ := (twoOnOne.delivers hh 1).2.1.1 1 (by decide) h1
  exact ⟨h1, x, hx, hr, (hy x hx).mpr rfl⟩

end VciVgsb
end Tp2
end Smc
