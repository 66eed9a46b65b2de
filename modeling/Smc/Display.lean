/-
# What a GCD platform displays

Both GCD platforms, the FIFO one of TP1 and the VCI one of TP2, draw operand
pairs at random and display each pair with its divisor. `Displays` is what
that is for: under a stream of pairs, the lines displayed are those of the
pairs in order, one for each pair before the first pair with exactly one zero,
on which the subtraction never ends, and no line from that pair on.
-/
import Smc.Lib.SubGcd

namespace Smc

open SubGcd.Loop (OneZero)

/-- A stream of operand pairs, as the masters draw them in `RANDOM`. -/
abbrev Draws := ℕ → BitVec 32 × BitVec 32

/-- The lines a master writes in `DISPLAY`. -/
structure Line where
  iteration : BitVec 32
  cycle : BitVec 32
  opa : BitVec 32
  opb : BitVec 32
  pgcd : BitVec 32
deriving DecidableEq, Repr

/-- The subtraction does not end on pair `k`. -/
def Draws.Hangs (d : Draws) (k : ℕ) : Prop := OneZero (d k).1 (d k).2

instance (d : Draws) (k : ℕ) : Decidable (d.Hangs k) := by unfold Draws.Hangs; infer_instance

/-- The lines written so far are those of the first pairs of the stream, none
of which hangs. -/
def Shown (d : Draws) (ls : List Line) : Prop :=
  ∀ k l, ls[k]? = some l → l.opa = (d k).1 ∧ l.opb = (d k).2 ∧
    l.pgcd.toNat = Nat.gcd (d k).1.toNat (d k).2.toNat ∧ ∀ j ≤ k, ¬ d.Hangs j

/-- A run of a platform displays the stream: the lines written are always
right, and every pair before the first that hangs is written some day. -/
def Displays (d : Draws) (cout : ℕ → List Line) : Prop :=
  (∀ t, Shown d (cout t)) ∧ ∀ k, (∀ j ≤ k, ¬ d.Hangs j) → ∃ t, k < (cout t).length

theorem shown_nil (d : Draws) : Shown d [] := by simp [Shown]

theorem Shown.not_hangs {d : Draws} {ls : List Line} (h : Shown d ls) {j : ℕ} (hj : j < ls.length) :
    ¬ d.Hangs j :=
  (h j _ (List.getElem?_eq_getElem hj)).2.2.2 j le_rfl

/-- The next line, for the next pair. -/
theorem Shown.concat {d : Draws} {ls : List Line} {l : Line} (h : Shown d ls)
    (hab : (l.opa, l.opb) = d ls.length) (hg : l.pgcd = SubGcd.gcd l.opa l.opb)
    (hh : ¬ d.Hangs ls.length) : Shown d (ls ++ [l]) := by
  intro k l' hl
  by_cases hk : k < ls.length
  · rw [List.getElem?_append_left hk] at hl
    exact h k l' hl
  · have hke : k = ls.length := by
      have := (List.getElem?_eq_some_iff.mp hl).1
      simp only [List.length_append, List.length_singleton] at this
      omega
    subst hke
    simp only [List.getElem?_concat_length, Option.some.injEq] at hl
    subst hl
    refine ⟨by rw [← hab], by rw [← hab], by rw [← hab, hg, SubGcd.toNat_gcd], fun j hj => ?_⟩
    rcases Nat.lt_or_ge j ls.length with hlt | hge
    · exact h.not_hangs hlt
    · rwa [show j = ls.length by omega]

/-- Two lists of lines for one stream have the same results. -/
theorem Shown.agree {d : Draws} {ls ls' : List Line} (h : Shown d ls) (h' : Shown d ls') {k : ℕ} {l l' : Line}
    (hl : ls[k]? = some l) (hl' : ls'[k]? = some l') : l.opa = l'.opa ∧ l.opb = l'.opb ∧ l.pgcd = l'.pgcd := by
  obtain ⟨ha, hb, hg, -⟩ := h k l hl
  obtain ⟨ha', hb', hg', -⟩ := h' k l' hl'
  refine ⟨ha.trans ha'.symm, hb.trans hb'.symm, ?_⟩
  apply BitVec.eq_of_toNat_eq
  rw [hg, hg']

end Smc
