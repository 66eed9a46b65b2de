/-
# Writing to a terminal

The transfer of `_tty_write` (`giet_2011/sys/drivers.c`), which tests the
`TTY_STATUS` register before every character and stops as soon as the terminal
is full. A terminal is what its driver sees of it: the words that the status
register gives, one for each test, and the characters sent. Which terminal the
driver addresses is in `Smc.Giet.Tty`.

A caller that compares the number of characters written with the number it
asked for goes on only after a complete transfer. `Emits` says this of a
computation made of such calls: it goes on with all of its output sent, or
stops with a proper part of it, which does not happen on a terminal that is
always ready.

Key definitions: `Terminal`, `ttyWrite`, `Emits`.
Key theorems: `ttyWrite_spec`, `Emits.bind`.
-/
import Smc.Giet.Tty

namespace Smc
namespace Giet
namespace Tty

/-- A terminal: the words read from `TTY_STATUS`, how many have been read, and
the characters written to `TTY_WRITE`. -/
structure Terminal where
  status : ℕ → Word
  tests : ℕ
  sent : List Byte

namespace Terminal

/-- A terminal before a call. -/
def start (status : ℕ → Word) : Terminal := ⟨status, 0, []⟩

/-- The terminal is never full. -/
def Ready (t : Terminal) : Prop := ∀ n, t.status n &&& 0x2 ≠ 0x2

end Terminal

/-- `_tty_write`: the number of characters written. -/
def ttyWrite : List Byte → Terminal → ℕ × Terminal
  | [], t => (0, t)
  | c :: buffer, t =>
    let t' := { t with tests := t.tests + 1 }
    if t.status t.tests &&& 0x2 = 0x2 then (0, t')
    else
      let r := ttyWrite buffer { t' with sent := t.sent ++ [c] }
      (r.1 + 1, r.2)

/-- What a transfer does: it sends the first characters of the buffer, as many
as it returns, and all of them on a terminal that is ready. -/
structure Transfers (buffer : List Byte) (t : Terminal) (r : ℕ × Terminal) : Prop where
  le : r.1 ≤ buffer.length
  sent : r.2.sent = t.sent ++ buffer.take r.1
  status : r.2.status = t.status
  ready : t.Ready → r.1 = buffer.length

theorem ttyWrite_spec (buffer : List Byte) (t : Terminal) : Transfers buffer t (ttyWrite buffer t) := by
  induction buffer generalizing t with
  | nil => exact ⟨le_rfl, by simp [ttyWrite], rfl, fun _ => rfl⟩
  | cons c buffer ih =>
    unfold ttyWrite
    dsimp only
    split_ifs with hfull
    · exact ⟨Nat.zero_le _, by simp, rfl, fun hr => absurd hfull (hr _)⟩
    · have h := ih { t with tests := t.tests + 1, sent := t.sent ++ [c] }
      refine ⟨?_, ?_, ?_, fun hr => ?_⟩
      · exact Nat.succ_le_succ h.le
      · rw [h.sent, List.take_succ_cons, List.append_assoc, List.singleton_append]
      · exact h.status
      · exact congrArg (· + 1) (h.ready hr)

/-! ### Checked output -/

section Emits

variable {S : Type*} (tty : S → Terminal)

/-- From `s`, a computation that checks what it writes goes on with `out`
sent, or stops before the end of it. -/
def Emits (out : List Byte) (s : S) : Except S S → Prop
  | .ok s' => (tty s').sent = (tty s).sent ++ out ∧ (tty s').status = (tty s).status
  | .error s' => ¬ (tty s).Ready ∧ ∃ l, l <+: out ∧ l ≠ out ∧ (tty s').sent = (tty s).sent ++ l

variable {tty} {s : S}

theorem Emits.pure : Emits tty [] s (.ok s) := ⟨(List.append_nil _).symm, rfl⟩

theorem Emits.bind {a b : List Byte} {r : Except S S} {f : S → Except S S} (h : Emits tty a s r)
    (hf : ∀ s', r = .ok s' → Emits tty b s' (f s')) : Emits tty (a ++ b) s (r >>= f) := by
  cases r with
  | error s' =>
    obtain ⟨hr, l, hl, hne, hs⟩ := h
    refine ⟨hr, l, hl.trans (List.prefix_append a b), ?_, hs⟩
    -- a prefix of `a` that is all of `a ++ b` is all of `a`
    intro he
    apply hne
    apply hl.eq_of_length_le
    rw [he, List.length_append]
    omega
  | ok s' =>
    have hb := hf s' rfl
    show Emits tty (a ++ b) s (f s')
    revert hb
    cases f s' with
    | ok s'' =>
      intro hb
      exact ⟨by rw [hb.1, h.1, List.append_assoc], hb.2.trans h.2⟩
    | error s'' =>
      intro hb
      obtain ⟨hr, l, hl, hne, hs⟩ := hb
      refine ⟨fun hready => hr ?_, a ++ l, ?_, ?_, ?_⟩
      · unfold Terminal.Ready
        rw [h.2]
        exact hready
      · exact (List.prefix_append_right_inj a).mpr hl
      · intro he
        exact hne (List.append_cancel_left he)
      · rw [hs, h.1, List.append_assoc]

/-- On a terminal that is ready, all of the output is sent. -/
theorem Emits.ok_of_ready {out : List Byte} {r : Except S S} (h : Emits tty out s r) (hr : (tty s).Ready) :
    ∃ s', r = .ok s' ∧ (tty s').sent = (tty s).sent ++ out := by
  cases r with
  | ok s' => exact ⟨s', rfl, h.1⟩
  | error s' => exact absurd hr h.1

end Emits

end Tty
end Giet
end Smc
