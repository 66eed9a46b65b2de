/-
# The end of a format

`tty_printf` takes the byte after a `%` without looking at it first. If that is
the NUL at the end of the format, the scan goes on behind it, in whatever the
memory holds there.

After a byte other than `%` the scan is always at `printf_text`, so only the
last bytes of the format matter: it reads past its end exactly if the format
ends with an odd number of `%` (`scans_format_iff`). A terminal that is full in
time may still stop it.

Key definitions: `pending`, `percents`, `resume`, `ScansFormat`.
Key theorems: `scan_cons`, `scan_ne_none`, `scan_eq_none`, `scans_format_iff`.
-/
import Smc.App.Rendering

namespace Smc
namespace App
namespace TtyPrintf

open Giet.Tty

/-- With the format and its NUL alone in memory, `tty_printf` finds every byte
it reads, whatever the terminal does. -/
def ScansFormat (env : Env) (format : CString) : Prop :=
  ∀ status, ttyPrintf env (format.bytes ++ [0]) status ≠ none

/-- The number of `%` at the end of the format. -/
def percents (f : List Byte) : ℕ := (f.reverse.takeWhile (· == 0x25)).length

/-! ### Where the scan is at the end -/

/-- The scan is at `printf_arguments`. -/
def Pc.atArguments : Pc → Bool
  | .text _ => false
  | .arguments => true

/-- A `%` at `printf_text` is followed by an argument; any byte at
`printf_arguments` by text. -/
def pending (p : Bool) (f : List Byte) : Bool := f.foldl (fun p c => !p && c == 0x25) p

theorem pending_concat (p : Bool) (f : List Byte) (c : Byte) :
    pending p (f ++ [c]) = (!pending p f && c == 0x25) := by
  rw [pending, List.foldl_append]
  rfl

theorem percents_concat (f : List Byte) (c : Byte) :
    percents (f ++ [c]) = if c = 0x25 then percents f + 1 else 0 := by
  unfold percents
  rw [List.reverse_append, List.reverse_singleton, List.singleton_append, List.takeWhile_cons]
  by_cases hc : c = 0x25
  · rw [if_pos hc, if_pos (beq_iff_eq.mpr hc), List.length_cons]
  · rw [if_neg hc, if_neg (fun h => hc (beq_iff_eq.mp h)), List.length_nil]

/-- From the start, a directive is open after an odd number of `%`. -/
theorem pending_iff_odd (f : List Byte) : pending false f = true ↔ Odd (percents f) := by
  induction f using List.reverseRecOn with
  | nil => exact iff_of_false Bool.false_ne_true Nat.not_odd_zero
  | append_singleton f c ih =>
    rw [pending_concat, percents_concat]
    by_cases hc : c = 0x25
    · rw [if_pos hc, hc, Nat.odd_add_one, ← ih]
      simp
    · rw [if_neg hc, beq_false_of_ne hc, Bool.and_false]
      exact iff_of_false Bool.false_ne_true Nat.not_odd_zero

/-! ### The scan -/

variable {env : Env}

/-- On a terminal that is ready, a part of the function goes on. -/
theorem Does.ready {out : List Byte} {n : ℕ} {tab buf : List ℤ} {s : State} {r : Except State State}
    (h : Does out n tab buf s r) (hr : s.tty.Ready) : ∃ s', r = .ok s' ∧ s'.tty.Ready := by
  obtain ⟨s', rfl, -⟩ := h.emits.ok_of_ready hr
  refine ⟨s', rfl, ?_⟩
  unfold Terminal.Ready
  rw [show s'.tty.status = s.tty.status from h.emits.2]
  exact hr

/-- So does `printf_arguments`, with any byte. -/
theorem arguments_ready (env : Env) (c : Byte) {s : State} (hr : s.tty.Ready) :
    ∃ s', arguments env c s = .ok s' ∧ s'.tty.Ready := by
  by_cases hcode : ∃ dir : Directive, dir.code = c
  · obtain ⟨dir, rfl⟩ := hcode
    exact (arguments_does env dir s).ready hr
  · have hne : ∀ dir : Directive, c ≠ dir.code := fun dir he => hcode ⟨dir, he.symm⟩
    refine ⟨{ s with ap := s.ap + 1 }, ?_, hr⟩
    have hc : c ≠ 0x63 := hne .c
    have hd : c ≠ 0x64 := hne .d
    have hu : c ≠ 0x75 := hne .u
    have hx : c ≠ 0x78 := hne .x
    have hs : c ≠ 0x73 := hne .s
    unfold arguments
    dsimp only
    rw [if_neg hc, if_neg hd, if_neg hu, if_neg hx, if_neg hs]

/-- How the function goes on from `pc` after a part of it. -/
def resume (env : Env) (pc : Pc) (rest : List Byte) : Except State State → Option (Except State State)
  | .error s => some (.error s)
  | .ok s => scan env pc rest s

/-- What a byte other than the NUL does: it opens a directive or not, and the
scan goes on behind it. -/
theorem scan_cons {c : Byte} (hc0 : c ≠ 0) (pc : Pc) (rest : List Byte) (s : State) :
    ∃ pc' r, pc'.atArguments = (!pc.atArguments && c == 0x25) ∧
      (s.tty.Ready → ∃ s', r = .ok s' ∧ s'.tty.Ready) ∧ scan env pc (c :: rest) s = resume env pc' rest r := by
  cases pc with
  | text run =>
    by_cases hc : c = 0x25
    · refine ⟨.arguments, if run = [] then .ok s else sysWrite run s, by rw [hc]; rfl, (flush_does run s).ready, ?_⟩
      rw [scan, if_pos (.inr hc)]
      cases (if run = [] then .ok s else sysWrite run s : Except State State) with
      | error s' => rfl
      | ok s' => exact if_pos hc
    · refine ⟨.text (run ++ [c]), .ok s, ?_, fun hr => ⟨s, rfl, hr⟩, scan_literal _ ⟨hc0, hc⟩ run s⟩
      rw [beq_false_of_ne hc, Bool.and_false]
      rfl
  | arguments =>
    refine ⟨.text [], arguments env c s, rfl, arguments_ready env c, ?_⟩
    rw [scan]
    cases arguments env c s <;> rfl

/-- If no directive is open at the end, the scan stops at the NUL or before. -/
theorem scan_ne_none {f : List Byte} (hf : ∀ c ∈ f, c ≠ 0) (pc : Pc) (s : State)
    (h : pending pc.atArguments f = false) : scan env pc (f ++ [0]) s ≠ none := by
  induction f generalizing pc s with
  | nil =>
    cases pc with
    | arguments => cases h
    | text run =>
      rw [List.nil_append, scan_nul]
      exact Option.some_ne_none _
  | cons c f ih =>
    obtain ⟨pc', r, hpc, -, hscan⟩ := scan_cons (hf c List.mem_cons_self) pc (f ++ [0]) s
    rw [List.cons_append, hscan]
    cases r with
    | error s' => exact Option.some_ne_none _
    | ok s' =>
      apply ih (fun x hx => hf x (List.mem_cons_of_mem _ hx))
      rw [hpc]
      exact h

/-- If one is open, the scan leaves the memory on a terminal that is ready. -/
theorem scan_eq_none {f : List Byte} (hf : ∀ c ∈ f, c ≠ 0) (pc : Pc) {s : State} (hr : s.tty.Ready)
    (h : pending pc.atArguments f = true) : scan env pc (f ++ [0]) s = none := by
  induction f generalizing pc s with
  | nil =>
    cases pc with
    | text run => cases h
    | arguments =>
      obtain ⟨s', hs', -⟩ := arguments_ready env 0 hr
      rw [List.nil_append, scan, hs']
      rfl
  | cons c f ih =>
    obtain ⟨pc', r, hpc, hready, hscan⟩ := scan_cons (hf c List.mem_cons_self) pc (f ++ [0]) s
    obtain ⟨s', rfl, hr'⟩ := hready hr
    rw [List.cons_append, hscan]
    apply ih (fun x hx => hf x (List.mem_cons_of_mem _ hx)) pc' hr'
    rw [hpc]
    exact h

/-- **When the scan stays in the format.** For every format and all arguments:
no byte after the NUL is read, whatever the terminal does, exactly when the
format ends with an even number of `%`. -/
theorem scans_format_iff (env : Env) (format : CString) :
    ScansFormat env format ↔ Even (percents format.bytes) := by
  rw [← Nat.not_odd_iff_even, ← pending_iff_odd]
  constructor
  · intro h hopen
    have hready : (Terminal.start fun _ => 0).Ready := fun _ => show (0 : Word) &&& 0x2 ≠ 0x2 by decide
    exact h (fun _ => 0) (scan_eq_none format.ne_nul (.text []) hready hopen)
  · intro h status
    exact scan_ne_none format.ne_nul (.text []) _ (Bool.eq_false_iff.mpr h)

/-- After the format `%`, the byte behind the NUL is read. -/
theorem past_the_nul : ttyPrintf blank [0x25, 0] (fun _ => 0) = none ∧
    ¬ ScansFormat blank ⟨[0x25], by decide⟩ := by
  have hnone : ttyPrintf blank [0x25, 0] (fun _ => 0) = none := rfl
  exact ⟨hnone, fun h => h (fun _ => 0) hnone⟩

end TtyPrintf
end App
end Smc
