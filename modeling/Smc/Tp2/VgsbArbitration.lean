/-
# Round-robin arbitration on the bus

The bus is meant to serve its initiators in turn: while an initiator waits, no
other gets the bus more than once (`BoundedBypass`). The loop of `IDLE` does
that, as it looks first at the initiator after the last served. The loop of
`RSP` breaks it: it moves the priority to the initiator it selects, but the
automaton goes to `IDLE` and arbitrates again, from the initiator after the
selected one, which is now the last to be looked at. With two initiators that
both ask all the time, one gets every transaction
(`bypassed_without_bound`).

The bus serves in turn in the runs in which the two loops agree: whenever a
response ends while an initiator asks, no other asks in the next cycle
(`SoleRequest`, `boundedBypass_of_soleRequest`).
-/
import Smc.Lib.RoundRobin
import Smc.Tp2.VgsbDelivery

namespace Smc
namespace Tp2
namespace VciVgsb

open RoundRobin (rank)

variable (k : VciVgsb)

/-! ### The loop picks the first in order -/

theorem rank_of_arbitrate {r j : ℕ} {p : Ports} (hr : r < k.mNbInitiator) (h : k.arbitrate r p = some j) :
    ∀ i < k.mNbInitiator, (p.initiator i).cmdval = true → i ≠ j →
      rank k.mNbInitiator r j < rank k.mNbInitiator r i := by
  obtain ⟨x, hx, rfl, -, hy⟩ := k.arbitrate_eq_some h
  intro i hi hval hne
  rw [RoundRobin.rank_at hr hx]
  by_contra hle
  rcases Nat.lt_or_ge (rank k.mNbInitiator r i) x with hlt | hge
  · have := hy _ hlt
    rw [RoundRobin.at_rank hr hi, hval] at this
    cases this
  · have he : rank k.mNbInitiator r i = x := by omega
    apply hne
    rw [← he, RoundRobin.at_rank hr hi]

theorem arbitrate_isSome {r i : ℕ} {p : Ports} (hr : r < k.mNbInitiator) (hi : i < k.mNbInitiator)
    (hval : (p.initiator i).cmdval = true) : ∃ j, k.arbitrate r p = some j := by
  cases h : k.arbitrate r p with
  | some j => exact ⟨j, rfl⟩
  | none =>
    simp only [arbitrate, Option.map_eq_none_iff, List.find?_range_eq_none] at h
    have := h _ (RoundRobin.rank_lt hr hi)
    rw [RoundRobin.at_rank hr hi, hval] at this
    cases this

/-! ### The property -/

/-- The command phase of initiator `i`. -/
def CmdPhase (s : Regs) (i : ℕ) : Prop := s.rFsm = .cmd ∧ s.rInitiatorIndex = i

instance (s : Regs) (i : ℕ) : Decidable (CmdPhase s i) := by unfold CmdPhase; infer_instance

/-- Initiator `j` gets the bus between two cycles. -/
def Granted (s s' : Regs) (j : ℕ) : Prop := s.rFsm ≠ .cmd ∧ CmdPhase s' j

instance (s s' : Regs) (j : ℕ) : Decidable (Granted s s' j) := by unfold Granted; infer_instance

/-- How often initiator `j` gets the bus in the cycles from `a` up to `e`. -/
def grants (b : Bus) (p : ℕ → Ports) (j a e : ℕ) : ℕ :=
  ∑ t ∈ Finset.Ico a e, if Granted (k.run b p t).regs (k.run b p (t + 1)).regs j then 1 else 0

/-- Bounded bypass: from a cycle `a` in which initiator `i` asks, as long as
its command phase has not begun, no other initiator gets the bus twice. -/
def BoundedBypass (b : Bus) (p : ℕ → Ports) : Prop :=
  ∀ i < k.mNbInitiator, ∀ a e, ((p a).initiator i).cmdval = true →
    (∀ t, a ≤ t → t < e → ¬ CmdPhase (k.run b p t).regs i) →
    ∀ j < k.mNbInitiator, j ≠ i → k.grants b p j a e ≤ 1

/-- An initiator keeps asking until its command is acknowledged. -/
def KeepsAsking (b : Bus) (p : ℕ → Ports) : Prop :=
  ∀ t, ∀ j < k.mNbInitiator, ((p t).initiator j).cmdval = true →
    (driveInitiator (k.run b p t) (p t) j).cmdack = false → ((p (t + 1)).initiator j).cmdval = true

/-- When a response ends in a cycle in which an initiator asks, no other
initiator asks in the next cycle. -/
def SoleRequest (b : Bus) (p : ℕ → Ports) : Prop :=
  ∀ t, (k.run b p t).regs.rFsm = .rsp → rspEnds (k.run b p t).regs (p t) = true →
    ∀ i < k.mNbInitiator, ((p t).initiator i).cmdval = true →
    ∀ j < k.mNbInitiator, j ≠ i → ((p (t + 1)).initiator j).cmdval = false

/-! ### Where it fails -/

/-- In the first six cycles initiator 1 gets the bus twice, and initiator 0,
which asks all the time, not once. -/
theorem bypassed_without_bound :
    twoOnOne.KeepsAsking anyBus (fun _ => allAsk) ∧ ¬ twoOnOne.BoundedBypass anyBus (fun _ => allAsk) := by
  refine ⟨fun _ _ _ _ _ => rfl, fun h => ?_⟩
  have h1 := h 0 (by decide) 0 6 rfl (by decide) 1 (by decide) (by decide)
  revert h1
  decide

/-! ### Where it holds -/

section Bypass

variable {k} {b : Bus} {p : ℕ → Ports}

theorem index_lt (h0 : 0 < k.mNbInitiator) (t : ℕ) :
    (k.run b p t).regs.rInitiatorIndex < k.mNbInitiator := by
  induction t with
  | zero => exact h0
  | succ t ih =>
    change (k.transition true (k.run b p t).regs (p t)).rInitiatorIndex < _
    cases hf : (k.run b p t).regs.rFsm with
    | idle =>
      rcases k.transition_idle (p := p t) hf with ⟨j, hj, ht⟩ | ⟨-, ht⟩ <;> rw [ht]
      · exact (k.arbitrate_lt hj).1
      · exact ih
    | cmd =>
      rw [k.transition_cmd hf]
      split_ifs <;> exact ih
    | rsp =>
      rcases k.transition_rsp (p := p t) hf with ⟨-, ht⟩ | ⟨-, ht⟩ <;> rw [ht]
      · cases hj : k.arbitrate (k.run b p t).regs.rInitiatorIndex (p t) with
        | some j => exact (k.arbitrate_lt hj).1
        | none => exact ih
      · exact ih

theorem grants_succ {j a t : ℕ} (hat : a ≤ t) : k.grants b p j a (t + 1) = k.grants b p j a t +
    if Granted (k.run b p t).regs (k.run b p (t + 1)).regs j then 1 else 0 :=
  Finset.sum_Ico_succ_top hat _

/-- An initiator that asks outside its command phase asks in the next cycle. -/
theorem asks_succ (hk : k.KeepsAsking b p) {i t : ℕ} (hi : i < k.mNbInitiator)
    (hval : ((p t).initiator i).cmdval = true) (hc : ¬ CmdPhase (k.run b p t).regs i) :
    ((p (t + 1)).initiator i).cmdval = true := by
  refine hk t i hi hval ?_
  rw [driveInitiator_cmdack, Bool.and_eq_false_iff]
  left
  rw [decide_eq_false_iff_not]
  exact fun h => hc ⟨h.1, h.2.symm⟩

/-- What holds at cycle `t` while `i` waits: `j` got the bus once at most, and
if it did then `i` is before it in the order, or about to be served. -/
def Waits (b : Bus) (p : ℕ → Ports) (i j a t : ℕ) : Prop :=
  k.grants b p j a t ≤ 1 ∧
    (CmdPhase (k.run b p t).regs i ∨ k.grants b p j a t = 0 ∨
      rank k.mNbInitiator (k.run b p t).regs.rInitiatorIndex i <
        rank k.mNbInitiator (k.run b p t).regs.rInitiatorIndex j ∨
      ((k.run b p t).regs.rFsm = .idle ∧ (k.run b p t).regs.rInitiatorIndex = i ∧
        ∀ m < k.mNbInitiator, m ≠ i → ((p t).initiator m).cmdval = false))

theorem waits_idle {i j a t : ℕ} (hi : i < k.mNbInitiator) (hj : j < k.mNbInitiator) (hji : j ≠ i)
    (hat : a ≤ t) (hval : ((p t).initiator i).cmdval = true) (hf : (k.run b p t).regs.rFsm = .idle)
    (h : Waits (k := k) b p i j a t) : Waits (k := k) b p i j a (t + 1) := by
  have hr : (k.run b p t).regs.rInitiatorIndex < k.mNbInitiator := index_lt (by omega) t
  obtain ⟨m, hm⟩ := k.arbitrate_isSome hr hi hval
  obtain ⟨hmlt, hmval⟩ := k.arbitrate_lt hm
  have hnext : (k.run b p (t + 1)).regs = k.grant (k.run b p t).regs (p t) m := by
    rcases k.transition_idle (p := p t) hf with ⟨m', hm', ht⟩ | ⟨hn, -⟩
    · rw [hm, Option.some.injEq] at hm'
      subst hm'
      exact ht
    · rw [hm] at hn; cases hn
  have hg : ∀ x, Granted (k.run b p t).regs (k.run b p (t + 1)).regs x ↔ m = x := by
    intro x
    simp [Granted, CmdPhase, hnext, grant, hf]
  by_cases hmi : m = i
  · have hne : ¬ Granted (k.run b p t).regs (k.run b p (t + 1)).regs j := by rw [hg, hmi]; exact hji.symm
    refine ⟨by rw [grants_succ hat, if_neg hne]; exact h.1, .inl ?_⟩
    rw [hnext]
    exact ⟨rfl, hmi⟩
  · have hrank := k.rank_of_arbitrate hr hm i hi hval (Ne.symm hmi)
    obtain ⟨hle, hcase⟩ := h
    have hcase' : k.grants b p j a t = 0 ∨ rank k.mNbInitiator (k.run b p t).regs.rInitiatorIndex i <
        rank k.mNbInitiator (k.run b p t).regs.rInitiatorIndex j := by
      rcases hcase with hc | hc | hc | ⟨-, -, hsole⟩
      · rw [CmdPhase, hf] at hc; cases hc.1
      · exact .inl hc
      · exact .inr hc
      · rw [hsole m hmlt hmi] at hmval; cases hmval
    by_cases hmj : m = j
    · -- `j` is served: it was before `i`, so this is the first time
      rw [hmj] at hrank
      have h0 : k.grants b p j a t = 0 := by
        rcases hcase' with h0 | hlt
        · exact h0
        · omega
      have h1 : k.grants b p j a (t + 1) = 1 := by rw [grants_succ hat, h0, if_pos ((hg j).mpr hmj)]
      refine ⟨h1.le, .inr (.inr (.inl ?_))⟩
      have hidx : (k.run b p (t + 1)).regs.rInitiatorIndex = j := by rw [hnext]; exact hmj
      rw [hidx]
      exact RoundRobin.rank_lt_self hi hj hji.symm
    · have hne : ¬ Granted (k.run b p t).regs (k.run b p (t + 1)).regs j := by rw [hg]; exact hmj
      have hgr : k.grants b p j a (t + 1) = k.grants b p j a t := by rw [grants_succ hat, if_neg hne]; rfl
      have hidx : (k.run b p (t + 1)).regs.rInitiatorIndex = m := by rw [hnext]; rfl
      rw [Waits, hgr, hidx]
      refine ⟨hle, ?_⟩
      rcases hcase' with h0 | hlt
      · exact .inr (.inl h0)
      · exact .inr (.inr (.inl (RoundRobin.rank_lt_of_served hmlt hi hj hrank hlt hr)))

/-- A cycle that moves neither the index nor enters `CMD` changes nothing. -/
theorem waits_of_still {i j a t : ℕ} (hat : a ≤ t) (hf : (k.run b p t).regs.rFsm ≠ .idle)
    (hi : (k.run b p (t + 1)).regs.rInitiatorIndex = (k.run b p t).regs.rInitiatorIndex)
    (hn : ∀ x, ¬ Granted (k.run b p t).regs (k.run b p (t + 1)).regs x)
    (hc : ¬ CmdPhase (k.run b p t).regs i) (h : Waits (k := k) b p i j a t) :
    Waits (k := k) b p i j a (t + 1) := by
  have hgr : k.grants b p j a (t + 1) = k.grants b p j a t := by rw [grants_succ hat, if_neg (hn j)]; rfl
  obtain ⟨hle, hcase⟩ := h
  rw [Waits, hgr, hi]
  refine ⟨hle, ?_⟩
  rcases hcase with h' | h' | h' | ⟨h', -⟩
  · exact absurd h' hc
  · exact .inr (.inl h')
  · exact .inr (.inr (.inl h'))
  · exact absurd h' hf

theorem waits_cmd {i j a t : ℕ} (hat : a ≤ t) (hc : ¬ CmdPhase (k.run b p t).regs i)
    (hf : (k.run b p t).regs.rFsm = .cmd) (h : Waits (k := k) b p i j a t) :
    Waits (k := k) b p i j a (t + 1) := by
  refine waits_of_still hat (by rw [hf]; nofun) ?_ (fun x hx => hx.1 hf) hc h
  change (k.transition true (k.run b p t).regs (p t)).rInitiatorIndex = _
  rw [k.transition_cmd hf]
  split_ifs <;> rfl

theorem waits_rsp (hs : k.SoleRequest b p) {i j a t : ℕ} (hi : i < k.mNbInitiator)
    (hat : a ≤ t) (hval : ((p t).initiator i).cmdval = true)
    (hval' : ((p (t + 1)).initiator i).cmdval = true) (hc : ¬ CmdPhase (k.run b p t).regs i)
    (hf : (k.run b p t).regs.rFsm = .rsp) (h : Waits (k := k) b p i j a t) :
    Waits (k := k) b p i j a (t + 1) := by
  have hr : (k.run b p t).regs.rInitiatorIndex < k.mNbInitiator := index_lt (by omega) t
  rcases k.transition_rsp (p := p t) hf with ⟨he, ht⟩ | ⟨-, ht⟩
  · -- the loop selects `i`: it is the only one to ask
    obtain ⟨m, hm⟩ := k.arbitrate_isSome hr hi hval
    obtain ⟨hmlt, hmval⟩ := k.arbitrate_lt hm
    have hmi : i = m := by
      by_contra hne
      rw [hs t hf he m hmlt hmval i hi hne] at hval'
      cases hval'
    subst hmi
    rw [hm] at ht
    have hnext : (k.run b p (t + 1)).regs = { k.grant (k.run b p t).regs (p t) i with rFsm := .idle } := ht
    have hn : ¬ Granted (k.run b p t).regs (k.run b p (t + 1)).regs j := by
      simp [Granted, CmdPhase, hnext]
    refine ⟨by rw [grants_succ hat, if_neg hn]; exact h.1, .inr (.inr (.inr ⟨?_, ?_, ?_⟩))⟩
    · rw [hnext]
    · rw [hnext]; rfl
    · exact hs t hf he i hi hval
  · have hnext : (k.run b p (t + 1)).regs = (k.run b p t).regs := ht
    refine waits_of_still hat (by rw [hf]; nofun) (by rw [hnext]) (fun x hx => ?_) hc h
    have := hx.2.1
    rw [hnext, hf] at this
    cases this

/-- **Where the two loops agree, the bus serves in turn.** In every run from
reset in which the initiators keep asking, and in which no second initiator
asks in the cycle after a response ends while one asks, the bypass is bounded
by one. -/
theorem boundedBypass_of_soleRequest (hk : k.KeepsAsking b p) (hs : k.SoleRequest b p) :
    k.BoundedBypass b p := by
  intro i hi a e hval hc j hj hji
  have key : ∀ d, a + d ≤ e → ((p (a + d)).initiator i).cmdval = true ∧ Waits (k := k) b p i j a (a + d) := by
    intro d
    induction d with
    | zero =>
      intro _
      have h0 : k.grants b p j a a = 0 := by simp [grants]
      exact ⟨hval, by rw [Nat.add_zero, h0]; omega, .inr (.inl h0)⟩
    | succ d ih =>
      intro hd
      obtain ⟨hv, hw⟩ := ih (by omega)
      have hcd := hc (a + d) (by omega) (by omega)
      have hv' := asks_succ hk hi hv hcd
      refine ⟨hv', ?_⟩
      cases hf : (k.run b p (a + d)).regs.rFsm with
      | idle => exact waits_idle hi hj hji (Nat.le_add_right a d) hv hf hw
      | cmd => exact waits_cmd (Nat.le_add_right a d) hcd hf hw
      | rsp => exact waits_rsp hs hi (Nat.le_add_right a d) hv hv' hcd hf hw
  rcases Nat.lt_or_ge e a with hlt | hge
  · simp [grants, Finset.Ico_eq_empty_of_le hlt.le]
  · obtain ⟨d, rfl⟩ : ∃ d, e = a + d := ⟨e - a, by omega⟩
    exact (key d le_rfl).2.1

end Bypass

/-- Both initiators ask twice, and each waits while the other is served. -/
def bothAskTwice (t : ℕ) : Ports where
  initiator i := { allAsk.initiator i with
    cmdval := if i = 0 then t < 5 ∨ (7 ≤ t ∧ t < 11) else t < 2 ∨ (4 ≤ t ∧ t < 8) }
  target := allAsk.target

/-- In the first cycle initiator 1 gets the bus before initiator 0; both get it
twice in twelve cycles. -/
theorem boundedBypass_bothAskTwice : twoOnOne.grants anyBus bothAskTwice 1 0 1 = 1 ∧
    (∀ j < 2, twoOnOne.grants anyBus bothAskTwice j 0 12 = 2) ∧ twoOnOne.BoundedBypass anyBus bothAskTwice := by
  have hquiet : ∀ t i, 12 ≤ t → ((bothAskTwice t).initiator i).cmdval = true → False := by
    intro t i ht hval
    change (if i = 0 then decide (t < 5 ∨ (7 ≤ t ∧ t < 11)) else decide (t < 2 ∨ (4 ≤ t ∧ t < 8))) = true at hval
    split_ifs at hval <;> have hask := of_decide_eq_true hval <;> omega
  refine ⟨by decide, by decide, boundedBypass_of_soleRequest (fun t j hj hval => ?_) fun t hf he i hi hval => ?_⟩
  · rcases Nat.lt_or_ge t 12 with hlt | hge
    · revert j
      interval_cases t <;> decide
    · exact (hquiet t j hge hval).elim
  · rcases Nat.lt_or_ge t 12 with hlt | hge
    · revert i he hf
      interval_cases t <;> decide
    · exact (hquiet t i hge hval).elim

end VciVgsb
end Tp2
end Smc
