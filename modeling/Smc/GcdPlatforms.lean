/-
# The two GCD platforms display the same results

The FIFO platform of TP1 and the simple VCI platform of TP2 draw, compute and
display in different ways: two FIFO handshakes for a pair against five VCI
transactions and a polling loop. On the same stream of pairs they write the
same lines, up to the cycle numbers, and stop at the same pair.
-/
import Smc.Tp1.Platform
import Smc.Tp2.SimplePlatform

namespace Smc

/-- **Both platforms display the stream.** From arbitrary registers before
reset and for every stream of pairs, the lines each platform writes are those
of the pairs in order, with their divisors; every pair before the first that
has exactly one zero is written after finitely many cycles, and no line is
written from that pair on. Line by line the results are the same. -/
theorem platforms_display (d : Draws) (m₁ : Tp1.FifoGcdMaster.Regs) (mi : Tp1.FifoGcdMaster.In)
    (c₁ : Tp1.FifoGcdCoprocessor.Regs) (ci : Tp1.FifoGcdCoprocessor.In) (k : Tp2.SimplePlatform)
    (m₂ : Tp2.VciGcdMaster.Regs) (rnd : Tp2.Data × Tp2.Data) (o : Tp2.TargetSignals)
    (c₂ : Tp2.VciGcdCoprocessor.Regs) (i : Tp2.InitiatorSignals) :
    ∃ (tp1 : ℕ → Tp1.Platform) (tp2 : ℕ → Tp2.SimplePlatform.State),
      (∀ t, tp1 t = (Tp1.Platform.step d)^[t] (Tp1.Platform.reset d m₁ mi c₁ ci)) ∧
      (∀ t, k.run (Tp2.SimplePlatform.reset m₂ rnd o c₂ i) d t = .ok (tp2 t)) ∧
      Displays d (fun t => (tp1 t).cout) ∧ Displays d (fun t => (tp2 t).cout) ∧
      ∀ (t t' j : ℕ) (l l' : Line), (tp1 t).cout[j]? = some l → (tp2 t').cout[j]? = some l' →
        l.opa = l'.opa ∧ l.opb = l'.opb ∧ l.pgcd = l'.pgcd := by
  have h1 := Tp1.Platform.displays_reset d m₁ mi c₁ ci
  obtain ⟨st, hst, h2⟩ := k.displays_run d m₂ rnd o c₂ i
  exact ⟨_, st, fun t => rfl, hst, h1, h2, fun t t' j l l' hl hl' => (h1.1 t).agree (h2.1 t') hl hl'⟩

end Smc
