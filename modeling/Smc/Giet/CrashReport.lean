/-
# What the kernel prints on its own

The kernel prints when an exception has no handler (`_cause`, in
`giet_2011/sys/exc_handler.c`), on an unknown system call (`_sys_ukn`, in
`sys_handler.c`), in two interrupt routines (`_isr_timer` and `_isr_default`,
in `irq_handler.c`) and before it stops a processor (`_exit`, in `common.c`).
All print texts one after the other with `_putk`, and none looks at how many
characters were written.

So on a terminal that is full at times the texts are cut one by one, and a
report is complete exactly when none of its characters finds the terminal full
(`report_complete_iff`). A report also ends where it reads outside of a table:
`_cause` for the arithmetic overflow, and `_itoa_hex` for the digit F. On a
terminal that is always ready the report of an exception shows the registers and
the processor exactly when `_cause` has a text for it, no register has a digit
that `_itoa_hex` lacks and the processor's number has decimal digits only
(`report_shows_iff`): for the digit E the number ends there, at the NUL. Two
reports whose numbers are whole are of the same registers (`cause_inj`).

Key definitions: `putk`, `cause`, `Report.run`, `Report.texts`, `Shows`.
Key theorems: `report_complete_iff`, `report_shows_iff`, `cause_inj`.
-/
import Mathlib.Data.List.TakeWhile
import Smc.Giet.Dispatch
import Smc.Giet.Itoa
import Smc.Giet.TtyWrite

namespace Smc
namespace Giet
namespace CrashReport

open Tty (Word Byte Terminal ttyWrite)
open Itoa (hexText decText isHexDigit hexVal)
open Numerals (value)

/-! ### The functions -/

/-- A string literal, without its NUL. -/
def chars (s : String) : List Byte := s.toList.map fun c => BitVec.ofNat 8 c.toNat

/-- The registers that the reports read: `_get_epc`, `_get_bar`, `_get_cause`,
the one that has the processor's number (`$15, 1`), and `_proctime`. -/
structure Cp0 where
  epc : Word
  bar : Word
  cause : Word
  ebase : Word
  proctime : Word
deriving DecidableEq, Repr

/-- `_procid`. -/
def Cp0.procid (k : Cp0) : Word := k.ebase &&& 0x3FF

/-- What `_putk` counts: the characters up to the first NUL. The array ends
with one. -/
def line (msg : List Byte) : List Byte := msg.takeWhile fun c => c ≠ 0

def putk (msg : List Byte) (t : Terminal) : ℕ × Terminal := ttyWrite (line msg) t

/-- `"0x00000000"`, after `_itoa_hex(val, buf + 2)`. -/
def hexBuf (val : Word) : Option (List Byte) := (hexText val fun _ => 0x30).map fun cs => chars "0x" ++ cs

/-- `(char)((proc_id >> n) & 0xF) + 0x30`. -/
def exitDigit (procid : Word) (n : ℕ) : Byte := ((procid >>> n) &&& 0xF).setWidth 8 + 0x30

/-- The buffer of `_exit`. -/
def exitBuf (procid : Word) : List Byte :=
  (((chars "\n\n!!! Exit Processor 0x___ !!!\n").set 23 (exitDigit procid 8)).set 24 (exitDigit procid 4)).set 25
    (exitDigit procid 0)

/-- `_exit`, up to its loop. -/
def exit (k : Cp0) (t : Terminal) : Terminal := (putk (exitBuf k.procid) t).2

/-- The entry of a table. Outside of it nothing is known of what follows: the
report ends, with the terminal as it is. -/
def inside {α : Type} (entry : Option α) (t : Terminal) : Except Terminal α :=
  match entry with
  | some a => .ok a
  | none => .error t

/-- `_cause`. -/
def cause (msgCause : ℕ) (k : Cp0) (t : Terminal) : Except Terminal Terminal := do
  let msg ← inside excMessageCauses[msgCause]? t
  let t := (putk (chars msg) t).2
  let t := (putk (chars "\nEPC = ") t).2
  let buf ← inside (hexBuf k.epc) t
  let t := (putk buf t).2
  let t := (putk (chars "\nBAR = ") t).2
  let buf ← inside (hexBuf k.bar) t
  let t := (putk buf t).2
  let t := (putk (chars "\nCAUSE = ") t).2
  let buf ← inside (hexBuf k.cause) t
  let t := (putk buf t).2
  pure (exit k t)

/-- `_sys_ukn`. -/
def sysUkn (k : Cp0) (t : Terminal) : Except Terminal Terminal := do
  let t := (putk (chars "\n\n!!! Undefined System Call !!!\n") t).2
  let t := (putk (chars "\nEPC = ") t).2
  let buf ← inside (hexBuf k.epc) t
  let t := (putk buf t).2
  pure (exit k t)

/-- `_isr_timer`, after it has reset the interrupt. -/
def isrTimer (k : Cp0) (t : Terminal) : Except Terminal Terminal := do
  let t := (putk (chars "\n\n!!! Interrupt timer received at cycle: ") t).2
  let buf ← inside (decText k.proctime fun _ => 0x20) t
  let t := (putk buf t).2
  pure (putk (chars "\n\n") t).2

def isrDefault (t : Terminal) : Terminal := (putk (chars "\n\n!!! Default ISR !!!\n") t).2

/-- The functions that print on their own. -/
inductive Report where
  | cause (msgCause : ℕ)
  | sysUkn
  | isrTimer
  | isrDefault

def Report.run : Report → Cp0 → Terminal → Except Terminal Terminal
  | .cause n, k, t => CrashReport.cause n k t
  | .sysUkn, k, t => CrashReport.sysUkn k t
  | .isrTimer, k, t => CrashReport.isrTimer k t
  | .isrDefault, _, t => .ok (CrashReport.isrDefault t)

/-- The number that the routine of an exception passes to `_cause`, if it calls it. -/
def msgCauseOf (cr : Word) : Option ℕ := (causeVector[(cr &&& 0x3c).toNat / 4]?).bind CauseRoutine.msgCause

/-! ### Texts on a terminal -/

/-- The texts of some calls of `_putk`, one after the other. -/
def prints (texts : List (List Byte)) (t : Terminal) : Terminal := texts.foldl (fun t msg => (putk msg t).2) t

/-- All that the calls would print. -/
def out (texts : List (List Byte)) : List Byte := texts.flatMap line

section Texts

variable {t : Terminal} {buffer : List Byte} {texts : List (List Byte)}

/-- A transfer is complete when none of its tests finds the terminal full. -/
theorem ttyWrite_eq_length_iff :
    (ttyWrite buffer t).1 = buffer.length ↔ ∀ i < buffer.length, t.status (t.tests + i) &&& 0x2 ≠ 0x2 := by
  induction buffer generalizing t with
  | nil => exact iff_of_true rfl fun i hi => absurd hi (Nat.not_lt_zero i)
  | cons c buffer ih =>
    unfold ttyWrite
    dsimp only
    split_ifs with hfull
    · exact iff_of_false not_false fun h => h 0 (Nat.succ_pos _) hfull
    · rw [List.length_cons, Nat.add_right_cancel_iff, ih]
      dsimp only
      constructor
      · intro h i hi
        rcases Nat.eq_zero_or_pos i with rfl | hpos
        · exact hfull
        · have := h (i - 1) (by omega)
          rwa [show t.tests + 1 + (i - 1) = t.tests + i by omega] at this
      · intro h i hi
        have := h (i + 1) (by omega)
        rwa [show t.tests + (i + 1) = t.tests + 1 + i by omega] at this

theorem ttyWrite_tests (h : (ttyWrite buffer t).1 = buffer.length) : (ttyWrite buffer t).2.tests = t.tests + buffer.length := by
  induction buffer generalizing t with
  | nil => rfl
  | cons c buffer ih =>
    unfold ttyWrite at h ⊢
    dsimp only at h ⊢
    split_ifs at h ⊢ with hfull
    rw [ih (Nat.succ.inj h), List.length_cons]
    dsimp only
    omega

/-- What is sent are prefixes of the texts. -/
theorem prints_sent (texts : List (List Byte)) (t : Terminal) :
    ∃ ps, List.Forall₂ (· <+: ·) ps (texts.map line) ∧ (prints texts t).sent = t.sent ++ ps.flatten := by
  induction texts generalizing t with
  | nil => exact ⟨[], .nil, (List.append_nil _).symm⟩
  | cons msg texts ih =>
    have h := Tty.ttyWrite_spec (line msg) t
    obtain ⟨ps, hps, hsent⟩ := ih (putk msg t).2
    refine ⟨(line msg).take (putk msg t).1 :: ps, .cons (List.take_prefix _ _) hps, ?_⟩
    show (prints texts (putk msg t).2).sent = _
    rw [hsent, putk, h.sent, List.flatten_cons, List.append_assoc]

theorem prefixes_length_le {ps ls : List (List Byte)} (h : List.Forall₂ (· <+: ·) ps ls) :
    ps.flatten.length ≤ ls.flatten.length := by
  induction h with
  | nil => exact le_rfl
  | cons hp _ ih =>
    rw [List.flatten_cons, List.flatten_cons, List.length_append, List.length_append]
    exact Nat.add_le_add hp.length_le ih

/-- **All is sent exactly when no test finds the terminal full.** -/
theorem prints_iff (texts : List (List Byte)) (t : Terminal) : (prints texts t).sent = t.sent ++ out texts ↔
    ∀ i < (out texts).length, t.status (t.tests + i) &&& 0x2 ≠ 0x2 := by
  induction texts generalizing t with
  | nil => exact iff_of_true (List.append_nil _).symm fun i hi => absurd hi (Nat.not_lt_zero i)
  | cons msg texts ih =>
    have h := Tty.ttyWrite_spec (line msg) t
    have hall : (ttyWrite (line msg) t).1 = (line msg).length ↔
      ∀ i < (line msg).length, t.status (t.tests + i) &&& 0x2 ≠ 0x2 := ttyWrite_eq_length_iff
    have hout : out (msg :: texts) = line msg ++ out texts := List.flatMap_cons
    show (prints texts (putk msg t).2).sent = _ ↔ _
    rw [hout, List.length_append]
    by_cases hfull : (ttyWrite (line msg) t).1 = (line msg).length
    · have hsent : (putk msg t).2.sent = t.sent ++ line msg := by
        rw [putk, h.sent, hfull, List.take_length]
      rw [← List.append_assoc, ← hsent, ih, putk, h.status, ttyWrite_tests hfull]
      constructor
      · intro hrest i hi
        by_cases hlt : i < (line msg).length
        · exact hall.mp hfull i hlt
        · have := hrest (i - (line msg).length) (by omega)
          rwa [show t.tests + (line msg).length + (i - (line msg).length) = t.tests + i by omega] at this
      · intro hrest i hi
        have := hrest ((line msg).length + i) (by omega)
        rwa [← Nat.add_assoc] at this
    · -- the first text is cut, and the others do not make up for it
      refine iff_of_false (fun hsent => ?_) fun hrest => hfull (hall.mpr fun i hi => hrest i (by omega))
      obtain ⟨ps, hps, hrest⟩ := prints_sent texts (putk msg t).2
      have hle := prefixes_length_le hps
      have hlt := lt_of_le_of_ne h.le hfull
      rw [hrest, putk, h.sent, List.append_assoc] at hsent
      have hlen := congrArg List.length (List.append_cancel_left hsent)
      have hflat : (texts.map line).flatten = out texts := (List.flatMap_def).symm
      rw [hflat] at hle
      simp only [List.length_append, List.length_take] at hlen
      omega

end Texts

/-! ### The reports -/

/-- The texts of a report in their order, and nothing where one cannot be made
without reading outside of a table. -/
def Report.texts : Report → Cp0 → List (Option (List Byte))
  | .cause n, k => [excMessageCauses[n]?.map chars, some (chars "\nEPC = "), hexBuf k.epc, some (chars "\nBAR = "),
      hexBuf k.bar, some (chars "\nCAUSE = "), hexBuf k.cause, some (exitBuf k.procid)]
  | .sysUkn, k => [some (chars "\n\n!!! Undefined System Call !!!\n"), some (chars "\nEPC = "), hexBuf k.epc,
      some (exitBuf k.procid)]
  | .isrTimer, k => [some (chars "\n\n!!! Interrupt timer received at cycle: "),
      some ((List.range 10).reverse.map (Itoa.decChar k.proctime.toNat)), some (chars "\n\n")]
  | .isrDefault, _ => [some (chars "\n\n!!! Default ISR !!!\n")]

/-- The texts before the first that is missing. -/
def reached {α : Type} : List (Option α) → List α
  | [] => []
  | none :: _ => []
  | some a :: l => a :: reached l

/-- The texts are printed up to the first that is missing. -/
def printAll : List (Option (List Byte)) → Terminal → Except Terminal Terminal
  | [], t => .ok t
  | none :: _, t => .error t
  | some msg :: l, t => printAll l (putk msg t).2

/-- The number has a digit F. -/
def HasF (val : Word) : Prop := ∃ k < 8, val.toNat / 16 ^ k % 16 = 15

/-- The report reads its tables only inside. -/
def Report.Inside : Report → Cp0 → Prop
  | .cause n, k => n < 8 ∧ ¬ HasF k.epc ∧ ¬ HasF k.bar ∧ ¬ HasF k.cause
  | .sysUkn, k => ¬ HasF k.epc
  | .isrTimer, _ | .isrDefault, _ => True

section Reports

variable {r : Report} {k : Cp0} {t : Terminal}

theorem inside_bind {α β : Type} (entry : Option α) (t : Terminal) (f : α → Except Terminal β) :
    (inside entry t >>= f) = match entry with
      | some a => f a
      | none => .error t := by
  cases entry <;> rfl

theorem Report.run_eq (r : Report) (k : Cp0) (t : Terminal) : r.run k t = printAll (r.texts k) t := by
  cases r with
  | cause n =>
    show CrashReport.cause n k t = _
    unfold CrashReport.cause texts
    simp only [inside_bind]
    cases excMessageCauses[n]? with
    | none => rfl
    | some msg =>
      cases hexBuf k.epc with
      | none => rfl
      | some e =>
        cases hexBuf k.bar with
        | none => rfl
        | some b => cases hexBuf k.cause <;> rfl
  | sysUkn =>
    show CrashReport.sysUkn k t = _
    unfold CrashReport.sysUkn texts
    simp only [inside_bind]
    cases hexBuf k.epc <;> rfl
  | isrTimer =>
    show CrashReport.isrTimer k t = _
    unfold CrashReport.isrTimer texts
    rw [Itoa.decText_eq]
    rfl
  | isrDefault => rfl

/-- A report prints the texts that it gets to. -/
theorem printAll_eq (l : List (Option (List Byte))) (t : Terminal) :
    (printAll l t = .ok (prints (reached l) t) ∧ l = (reached l).map some) ∨
      (printAll l t = .error (prints (reached l) t) ∧ none ∈ l) := by
  induction l generalizing t with
  | nil => exact .inl ⟨rfl, rfl⟩
  | cons a l ih =>
    cases a with
    | none => exact .inr ⟨rfl, List.mem_cons_self⟩
    | some msg =>
      rcases ih (putk msg t).2 with ⟨hrun, hl⟩ | ⟨hrun, hnone⟩
      · exact .inl ⟨hrun, congrArg (some msg :: ·) hl⟩
      · exact .inr ⟨hrun, List.mem_cons_of_mem _ hnone⟩

theorem hexBuf_eq_none_iff {val : Word} : none = hexBuf val ↔ HasF val := by
  have hget : ∀ d < 16, Itoa.hexatab[d]? = none ↔ d = 15 := by decide
  have hdigit : ∀ j, Itoa.hexatab[((· / 16)^[j] val % 16).toNat]? = none ↔ val.toNat / 16 ^ j % 16 = 15 := by
    intro j
    rw [Itoa.toNat_digit]
    exact hget _ (Nat.mod_lt _ (by decide))
  rw [eq_comm, hexBuf, Option.map_eq_none_iff, hexText, Option.map_eq_none_iff]
  have hspec := @Numerals.fillBack_spec Word Byte 8 (fun _ val => Itoa.hexatab[(val % 16).toNat]?) (· / 16) 8 0 le_rfl
    val fun _ => 0x30
  rcases hspec with ⟨buf, hrun, hchars, -⟩ | ⟨hrun, j, hj, hnone⟩
  · refine iff_of_false ?_ ?_
    · rw [Itoa.itoaHex, hrun]
      exact Option.some_ne_none _
    · rintro ⟨j, hj, hF⟩
      have := hchars j hj
      rw [(hdigit j).mpr hF] at this
      cases this
  · exact iff_of_true hrun ⟨j, hj, (hdigit j).mp hnone⟩

theorem Report.missing_iff : none ∈ r.texts k ↔ ¬ r.Inside k := by
  cases r with
  | cause n =>
    have hmsg : none = excMessageCauses[n]?.map chars ↔ ¬ n < 8 := by
      rw [eq_comm, Option.map_eq_none_iff, List.getElem?_eq_none_iff, not_lt]
      rfl
    simp only [texts, Inside, List.mem_cons, List.not_mem_nil, or_false, reduceCtorEq, false_or, hmsg,
      hexBuf_eq_none_iff]
    tauto
  | sysUkn =>
    simp only [texts, Inside, List.mem_cons, List.not_mem_nil, or_false, reduceCtorEq, false_or, hexBuf_eq_none_iff,
      not_not]
  | isrTimer => simp [texts, Inside]
  | isrDefault => simp [texts, Inside]

/-- **A report is complete exactly when no test finds the terminal full.** For
every report, all registers and every sequence of status words: the report ends
normally if it reads its tables only inside, and else with the read outside.
What is sent are prefixes of the texts that it gets to, one for each call of
`_putk`, and it is all of them if and only if none of their characters finds the
terminal full. -/
theorem report_complete_iff (r : Report) (k : Cp0) (t : Terminal) :
    ∃ t', (r.Inside k ∧ r.run k t = .ok t' ∧ r.texts k = (reached (r.texts k)).map some ∨
        ¬ r.Inside k ∧ r.run k t = .error t') ∧
      (∃ ps, List.Forall₂ (· <+: ·) ps ((reached (r.texts k)).map line) ∧ t'.sent = t.sent ++ ps.flatten) ∧
      (t'.sent = t.sent ++ out (reached (r.texts k)) ↔
        ∀ i < (out (reached (r.texts k))).length, t.status (t.tests + i) &&& 0x2 ≠ 0x2) := by
  refine ⟨prints (reached (r.texts k)) t, ?_, prints_sent _ t, prints_iff _ t⟩
  rw [r.run_eq k t]
  rcases printAll_eq (r.texts k) t with ⟨hrun, hl⟩ | ⟨hrun, hnone⟩
  · refine .inl ⟨?_, hrun, hl⟩
    by_contra hout
    have hmem := Report.missing_iff.mpr hout
    rw [hl] at hmem
    obtain ⟨msg, -, hmsg⟩ := List.mem_map.mp hmem
    cases hmsg
  · exact .inr ⟨Report.missing_iff.mp hnone, hrun⟩

end Reports

/-! ### What a report of an exception shows -/

/-- `w` digits that read as the number. -/
structure IsHex (w : ℕ) (cs : List Byte) (val : Word) : Prop where
  length : cs.length = w
  digits : ∀ c ∈ cs, isHexDigit c = true
  value : value 16 (cs.map hexVal) = val.toNat

/-- What is sent shows the registers and the processor. -/
def Shows (n : ℕ) (k : Cp0) (l : List Byte) : Prop :=
  ∃ msg e b c p, excMessageCauses[n]? = some msg ∧ IsHex 8 e k.epc ∧ IsHex 8 b k.bar ∧ IsHex 8 c k.cause ∧
    IsHex 3 p k.procid ∧
    l = chars msg ++ chars "\nEPC = 0x" ++ e ++ chars "\nBAR = 0x" ++ b ++ chars "\nCAUSE = 0x" ++ c ++
      (chars "\n\n!!! Exit Processor 0x" ++ (p ++ chars " !!!\n"))

/-- `_itoa_hex` has all digits of the number. -/
def Digits (val : Word) : Prop := ∀ k < 8, val.toNat / 16 ^ k % 16 < 14

/-- `_exit` has them: `(char)(d & 0xF) + 0x30`. -/
def Decimal (procid : Word) : Prop := ∀ k < 3, procid.toNat / 16 ^ k % 16 < 10

section Shows

theorem isHexDigit_ne_zero {c : Byte} (h : isHexDigit c = true) : c ≠ 0 := by
  intro h0
  rw [h0] at h
  exact absurd h (by decide)

theorem line_eq_self {l : List Byte} : line l = l ↔ ∀ c ∈ l, c ≠ 0 := by
  unfold line
  rw [List.takeWhile_eq_self_iff]
  simp only [decide_eq_true_eq]

theorem line_append {l l' : List Byte} (h : ∀ c ∈ l, c ≠ 0) : line (l ++ l') = l ++ line l' :=
  List.takeWhile_append_of_pos fun c hc => decide_eq_true (h c hc)

/-- A text that loses no character is printed as it is. -/
theorem line_eq_of_length_le {l : List Byte} (h : l.length ≤ (line l).length) : line l = l :=
  (List.takeWhile_prefix _).eq_of_length_le h

theorem line_length_le (l : List Byte) : (line l).length ≤ l.length := (List.takeWhile_prefix _).length_le

/-- What `_itoa_hex` writes are characters of its table. -/
theorem mem_hexatab {val : Word} {buf : ℕ → Byte} {cs : List Byte} (h : hexText val buf = some cs) {c : Byte}
    (hc : c ∈ cs) : c ∈ Itoa.hexatab := by
  obtain ⟨buf', hrun, rfl⟩ := Option.map_eq_some_iff.mp h
  rcases Numerals.fillBack_spec (i := 0) (n := 8) (w := 8) le_rfl val buf with ⟨buf'', hrun', hchars, -⟩ | ⟨hnone, -⟩
  · have hsame : buf'' = buf' := Option.some.inj (hrun'.symm.trans hrun)
    obtain ⟨i, hi, rfl⟩ := List.mem_map.mp hc
    have hi8 : i < 8 := List.mem_range.mp hi
    have hget := hchars (7 - i) (by omega)
    rw [show 8 - 1 - (0 + (7 - i)) = i by omega, hsame] at hget
    exact List.mem_of_getElem? hget
  · rw [Itoa.itoaHex, hnone] at hrun
    cases hrun

theorem length_hexText {val : Word} {buf : ℕ → Byte} {cs : List Byte} (h : hexText val buf = some cs) :
    cs.length = 8 := by
  obtain ⟨buf', -, rfl⟩ := Option.map_eq_some_iff.mp h
  rw [List.length_map, List.length_range]

/-- The entries of the table that are printed are digits. -/
theorem hexatab_digit : ∀ c ∈ Itoa.hexatab, c ≠ 0 → isHexDigit c = true := by decide

theorem length_hexBuf {val : Word} {e : List Byte} (h : hexBuf val = some e) : e.length = 10 := by
  obtain ⟨cs, hcs, rfl⟩ := Option.map_eq_some_iff.mp h
  rw [List.length_append, length_hexText hcs]
  rfl

/-- The number is shown whole only if the table has all of its digits. -/
theorem digits_of_line {val : Word} {e : List Byte} (h : hexBuf val = some e) (hline : line e = e) : Digits val := by
  obtain ⟨cs, hcs, rfl⟩ := Option.map_eq_some_iff.mp h
  apply Itoa.digits_of_hexText hcs
  intro c hc
  exact hexatab_digit c (mem_hexatab hcs hc) (line_eq_self.mp hline c (List.mem_append_right _ hc))

theorem hexBuf_of_digits {val : Word} (h : Digits val) :
    ∃ cs, hexBuf val = some (chars "0x" ++ cs) ∧ IsHex 8 cs val ∧ line (chars "0x" ++ cs) = chars "0x" ++ cs := by
  obtain ⟨cs, hcs, hlen, hdigits, hvalue⟩ := Itoa.hexText_eq h fun _ => 0x30
  refine ⟨cs, by rw [hexBuf, hcs]; rfl, ⟨hlen, hdigits, hvalue⟩, ?_⟩
  have hline : line cs = cs := line_eq_self.mpr fun c hc => isHexDigit_ne_zero (hdigits c hc)
  rw [line_append (by decide +kernel), hline]

/-- The texts of `_cause` have no NUL inside. -/
theorem line_msg {n : ℕ} {msg : String} (h : excMessageCauses[n]? = some msg) : line (chars msg) = chars msg := by
  have hall : ∀ msg ∈ excMessageCauses, line (chars msg) = chars msg := by decide +kernel
  exact hall msg (List.mem_of_getElem? h)

theorem exitDigit_toNat (procid : Word) (n : ℕ) : (exitDigit procid n).toNat = 0x30 + procid.toNat / 2 ^ n % 16 := by
  have hand : ((procid >>> n) &&& 0xF).toNat = procid.toNat / 2 ^ n % 16 := by
    rw [BitVec.toNat_and, BitVec.toNat_ushiftRight, Nat.shiftRight_eq_div_pow]
    exact Nat.and_two_pow_sub_one_eq_mod _ 4
  have hlt : procid.toNat / 2 ^ n % 16 < 16 := Nat.mod_lt _ (Nat.succ_pos _)
  rw [exitDigit, BitVec.toNat_add, BitVec.toNat_setWidth, hand]
  show (procid.toNat / 2 ^ n % 16 % 2 ^ 8 + 0x30) % 2 ^ 8 = _
  omega

theorem exitBuf_eq (procid : Word) : exitBuf procid = chars "\n\n!!! Exit Processor 0x" ++
    ([exitDigit procid 8, exitDigit procid 4, exitDigit procid 0] ++ chars " !!!\n") := by
  unfold exitBuf
  generalize exitDigit procid 8 = a
  generalize exitDigit procid 4 = b
  generalize exitDigit procid 0 = c
  rfl

theorem line_exitBuf (procid : Word) : line (exitBuf procid) = exitBuf procid := by
  have hdigit : ∀ n, exitDigit procid n ≠ 0 := by
    intro n h0
    have h := exitDigit_toNat procid n
    rw [h0] at h
    have : (0 : Byte).toNat = 0 := rfl
    omega
  have hlast : line (chars " !!!\n") = chars " !!!\n" := by decide +kernel
  rw [exitBuf_eq, line_append (by decide +kernel), line_append, hlast]
  intro c hc
  simp only [List.mem_cons, List.not_mem_nil, or_false] at hc
  rcases hc with rfl | rfl | rfl <;> exact hdigit _

theorem procid_lt (k : Cp0) : k.procid.toNat < 1024 := by
  have hand : k.procid.toNat ≤ (0x3FF : Word).toNat := by
    rw [Cp0.procid, BitVec.toNat_and]
    exact Nat.and_le_right
  exact Nat.lt_succ_of_le hand

/-- The three digits of `_exit`. -/
def exitDigits (procid : Word) : List Byte := [exitDigit procid 8, exitDigit procid 4, exitDigit procid 0]

theorem hexDigit_iff {c : Byte} {d : ℕ} (hc : c.toNat = 0x30 + d) (hd : d < 16) :
    (isHexDigit c = true ↔ d < 10) ∧ (d < 10 → hexVal c = d) := by
  obtain rfl : c = BitVec.ofNat 8 (0x30 + d) := by
    apply BitVec.eq_of_toNat_eq
    rw [hc, BitVec.toNat_ofNat]
    omega
  have hall : ∀ d < 16, (isHexDigit (BitVec.ofNat 8 (0x30 + d)) = true ↔ d < 10) ∧
      (d < 10 → hexVal (BitVec.ofNat 8 (0x30 + d)) = d) := by decide
  exact hall d hd

theorem isHex_exitDigits_iff (k : Cp0) : IsHex 3 (exitDigits k.procid) k.procid ↔ Decimal k.procid := by
  have hlt := procid_lt k
  have hmod : ∀ n, k.procid.toNat / 2 ^ n % 16 < 16 := fun n => Nat.mod_lt _ (by decide)
  obtain ⟨h8, hv8⟩ := hexDigit_iff (exitDigit_toNat k.procid 8) (hmod 8)
  obtain ⟨h4, hv4⟩ := hexDigit_iff (exitDigit_toNat k.procid 4) (hmod 4)
  obtain ⟨h0, hv0⟩ := hexDigit_iff (exitDigit_toNat k.procid 0) (hmod 0)
  have hdec : Decimal k.procid ↔ k.procid.toNat / 2 ^ 8 % 16 < 10 ∧ k.procid.toNat / 2 ^ 4 % 16 < 10 ∧
      k.procid.toNat / 2 ^ 0 % 16 < 10 := by
    constructor
    · exact fun h => ⟨h 2 (by decide), h 1 (by decide), h 0 (by decide)⟩
    · rintro ⟨h2, h1, h0⟩ i hi
      interval_cases i
      · exact h0
      · exact h1
      · exact h2
  rw [hdec]
  constructor
  · intro h
    have hd := h.digits
    simp only [exitDigits, List.mem_cons, List.not_mem_nil, or_false, forall_eq_or_imp, forall_eq] at hd
    exact ⟨h8.mp hd.1, h4.mp hd.2.1, h0.mp hd.2.2⟩
  · rintro ⟨d8, d4, d0⟩
    refine ⟨rfl, ?_, ?_⟩
    · simp only [exitDigits, List.mem_cons, List.not_mem_nil, or_false, forall_eq_or_imp, forall_eq]
      exact ⟨h8.mpr d8, h4.mpr d4, h0.mpr d0⟩
    · show value 16 [hexVal (exitDigit k.procid 8), hexVal (exitDigit k.procid 4), hexVal (exitDigit k.procid 0)] = _
      rw [hv8 d8, hv4 d4, hv0 d0]
      simp only [value, List.foldl_cons, List.foldl_nil]
      omega

/-- A text before `0x` shows it too. -/
theorem chars_append (s s' : String) : chars s ++ chars s' = chars (s ++ s') := by
  unfold chars
  rw [String.toList_append, List.map_append]

/-- What a report prints, of which only the numbers may be cut. -/
theorem out_cause {n : ℕ} {msg : String} (hmsg : excMessageCauses[n]? = some msg) (e b c : List Byte)
    (procid : Word) :
    out [chars msg, chars "\nEPC = ", e, chars "\nBAR = ", b, chars "\nCAUSE = ", c, exitBuf procid] =
      chars msg ++ chars "\nEPC = " ++ line e ++ chars "\nBAR = " ++ line b ++ chars "\nCAUSE = " ++ line c ++
        exitBuf procid := by
  have hepc : line (chars "\nEPC = ") = chars "\nEPC = " := by decide +kernel
  have hbar : line (chars "\nBAR = ") = chars "\nBAR = " := by decide +kernel
  have hcause : line (chars "\nCAUSE = ") = chars "\nCAUSE = " := by decide +kernel
  simp only [out, List.flatMap_cons, List.flatMap_nil, List.append_nil, line_msg hmsg, hepc, hbar, hcause,
    line_exitBuf, List.append_assoc]

/-- A report that ends, on a terminal that is always ready. -/
theorem cause_ready {n : ℕ} {k : Cp0} {t t' : Terminal} (hready : t.Ready) (h : cause n k t = .ok t') :
    ∃ msg e b c, excMessageCauses[n]? = some msg ∧ hexBuf k.epc = some e ∧ hexBuf k.bar = some b ∧
      hexBuf k.cause = some c ∧ t'.sent = t.sent ++ (chars msg ++ chars "\nEPC = " ++ line e ++ chars "\nBAR = " ++
        line b ++ chars "\nCAUSE = " ++ line c ++ exitBuf k.procid) := by
  have hrun : printAll ((Report.cause n).texts k) t = .ok t' := (Report.run_eq (.cause n) k t).symm.trans h
  rcases printAll_eq ((Report.cause n).texts k) t with ⟨hok, hl⟩ | ⟨herr, -⟩
  · obtain rfl : prints (reached ((Report.cause n).texts k)) t = t' := Except.ok.inj (hok.symm.trans hrun)
    have hall : ∀ texts, (prints texts t).sent = t.sent ++ out texts := fun texts =>
      (prints_iff texts t).mpr fun i _ => hready _
    have hmem : none ∉ (Report.cause n).texts k := by
      rw [hl]
      simp
    simp only [Report.texts, List.mem_cons, List.not_mem_nil, or_false, not_or] at hmem
    obtain ⟨hmsg, -, he, -, hb, -, hc, -⟩ := hmem
    have hsome : excMessageCauses[n]? ≠ none := fun hn => hmsg (by rw [hn]; rfl)
    obtain ⟨msg, hmsg⟩ := Option.ne_none_iff_exists'.mp hsome
    obtain ⟨e, he⟩ := Option.ne_none_iff_exists'.mp (Ne.symm he)
    obtain ⟨b, hb⟩ := Option.ne_none_iff_exists'.mp (Ne.symm hb)
    obtain ⟨c, hc⟩ := Option.ne_none_iff_exists'.mp (Ne.symm hc)
    refine ⟨msg, e, b, c, hmsg, he, hb, hc, ?_⟩
    rw [hall, ← out_cause hmsg, Report.texts, hmsg, he, hb, hc]
    rfl
  · rw [herr] at hrun
    cases hrun

/-- A report whose numbers are whole, on a terminal that is always ready. -/
theorem cause_whole {n : ℕ} {k : Cp0} {t : Terminal} {msg : String} (hready : t.Ready)
    (hmsg : excMessageCauses[n]? = some msg) (hepc : Digits k.epc) (hbar : Digits k.bar) (hcause : Digits k.cause) :
    ∃ t' e b c, cause n k t = .ok t' ∧ IsHex 8 e k.epc ∧ IsHex 8 b k.bar ∧ IsHex 8 c k.cause ∧
      t'.sent = t.sent ++ (chars msg ++ chars "\nEPC = 0x" ++ e ++ chars "\nBAR = 0x" ++ b ++ chars "\nCAUSE = 0x" ++
        c ++ exitBuf k.procid) := by
  obtain ⟨e, he, hishexe, hlinee⟩ := hexBuf_of_digits hepc
  obtain ⟨b, hb, hishexb, hlineb⟩ := hexBuf_of_digits hbar
  obtain ⟨c, hc, hishexc, hlinec⟩ := hexBuf_of_digits hcause
  obtain ⟨t', ht'⟩ : ∃ t', cause n k t = .ok t' := by
    simp only [cause, inside_bind, hmsg, he, hb, hc]
    exact ⟨_, rfl⟩
  obtain ⟨msg', e', b', c', hmsg', he', hb', hc', hsent⟩ := cause_ready hready ht'
  cases hmsg.symm.trans hmsg'
  cases he.symm.trans he'
  cases hb.symm.trans hb'
  cases hc.symm.trans hc'
  refine ⟨t', e, b, c, ht', hishexe, hishexb, hishexc, ?_⟩
  rw [hsent, hlinee, hlineb, hlinec]
  simp only [← chars_append "\nEPC = " "0x", ← chars_append "\nBAR = " "0x", ← chars_append "\nCAUSE = " "0x",
    show "\nEPC = 0x" = "\nEPC = " ++ "0x" from rfl, show "\nBAR = 0x" = "\nBAR = " ++ "0x" from rfl,
    show "\nCAUSE = 0x" = "\nCAUSE = " ++ "0x" from rfl, List.append_assoc]

theorem length_exitBuf (procid : Word) : (exitBuf procid).length = 31 := by
  rw [exitBuf_eq]
  rfl

/-- `_cause` has a text for the exceptions but the overflow. -/
theorem excMessageCauses_isSome {cr : Word} {n : ℕ} (hn : msgCauseOf cr = some n) :
    (∃ msg, excMessageCauses[n]? = some msg) ↔ cr &&& 0x3c ≠ 0x30 := by
  obtain ⟨routine, hroutine, hmsg⟩ := Option.bind_eq_some_iff.mp hn
  have hand := and_cause cr
  have hovf := causeVector_ovf ((cr &&& 0x3c).toNat / 4) (show _ < 16 by omega)
  have hcode : cr &&& 0x3c = 0x30 ↔ (cr &&& 0x3c).toNat / 4 = 12 := by
    rw [← BitVec.toNat_inj]
    show (cr &&& 0x3c).toNat = 48 ↔ _
    omega
  rw [ne_eq, hcode, ← hovf, hroutine, Option.some.injEq]
  constructor
  · intro hex hro
    obtain ⟨msg, hget⟩ := hex
    rw [hro] at hmsg
    obtain rfl : 8 = n := Option.some.inj hmsg
    cases hget
  · intro hro
    exact ⟨_, List.getElem?_eq_getElem (msgCause_lt hro hmsg)⟩

/-- **When a report shows the registers.** For every exception that reaches
`_cause`, on a terminal that is always ready: `_cause` ends with a report that
shows the text, EPC, BAR, CAUSE and the processor if and only if the exception
is not an arithmetic overflow, none of the three registers has a hexadecimal
digit E or F, and the number of the processor has none from A on. -/
theorem report_shows_iff {n : ℕ} {k : Cp0} {t : Terminal} (hready : t.Ready)
    (hn : msgCauseOf k.cause = some n) :
    (∃ t' l, cause n k t = .ok t' ∧ t'.sent = t.sent ++ l ∧ Shows n k l) ↔
      k.cause &&& 0x3c ≠ 0x30 ∧ Digits k.epc ∧ Digits k.bar ∧ Digits k.cause ∧ Decimal k.procid := by
  rw [← excMessageCauses_isSome hn]
  constructor
  · rintro ⟨t', l, hrun, hsent, msg, e', b', c', p, hmsg, he', hb', hc', hp, rfl⟩
    obtain ⟨msg', e, b, c, hmsg', he, hb, hc, hsent'⟩ := cause_ready hready hrun
    obtain rfl : msg = msg' := Option.some.inj (hmsg.symm.trans hmsg')
    have heq := List.append_cancel_left (hsent.symm.trans hsent')
    -- the numbers have the ten characters that they need only if none is cut
    have hlen := congrArg List.length heq
    have hcuts := line_length_le e
    have hcutb := line_length_le b
    have hcutc := line_length_le c
    have := length_hexBuf he
    have := length_hexBuf hb
    have := length_hexBuf hc
    have hEpc : (chars "\nEPC = 0x").length = (chars "\nEPC = ").length + 2 := rfl
    have hBar : (chars "\nBAR = 0x").length = (chars "\nBAR = ").length + 2 := rfl
    have hCause : (chars "\nCAUSE = 0x").length = (chars "\nCAUSE = ").length + 2 := rfl
    have hFrame : (chars "\n\n!!! Exit Processor 0x").length + (3 + (chars " !!!\n").length) = 31 := rfl
    simp only [List.length_append, he'.length, hb'.length, hc'.length, hp.length, hEpc, hBar, hCause,
      length_exitBuf] at hlen
    -- and from the end the digits of the processor are those of the text
    have hexit := (List.append_inj' heq (by
      rw [length_exitBuf, List.length_append, List.length_append, hp.length, hFrame])).2
    rw [exitBuf_eq] at hexit
    have hdigits : p = exitDigits k.procid := List.append_cancel_right (List.append_cancel_left hexit)
    exact ⟨⟨msg, hmsg⟩, digits_of_line he (line_eq_of_length_le (by omega)),
      digits_of_line hb (line_eq_of_length_le (by omega)), digits_of_line hc (line_eq_of_length_le (by omega)),
      (isHex_exitDigits_iff k).mp (hdigits ▸ hp)⟩
  · rintro ⟨⟨msg, hmsg⟩, hepc, hbar, hcause, hproc⟩
    obtain ⟨t', e, b, c, hrun, he, hb, hc, hsent⟩ := cause_whole hready hmsg hepc hbar hcause
    refine ⟨t', _, hrun, hsent, msg, e, b, c, exitDigits k.procid, hmsg, he, hb, hc,
      (isHex_exitDigits_iff k).mpr hproc, ?_⟩
    rw [exitBuf_eq]
    rfl

/-- An illegal read at 0x12, on processor 2. -/
def illegalRead : Cp0 := { epc := 0x00400010, bar := 0x12, cause := 0x10, ebase := 0x2, proctime := 0 }

theorem ready_start : (Terminal.start fun _ => 0).Ready := by
  intro i
  show (0 : Word) &&& 0x2 ≠ 0x2
  decide

theorem illegalRead_shown : ∃ t' l, cause 1 illegalRead (Terminal.start fun _ => 0) = .ok t' ∧
    t'.sent = [] ++ l ∧ Shows 1 illegalRead l :=
  (report_shows_iff ready_start rfl).mpr ⟨by decide, by unfold Digits; decide, by unfold Digits; decide,
    by unfold Digits; decide, by unfold Decimal; decide⟩

theorem IsHex.inj {w : ℕ} {cs : List Byte} {val val' : Word} (h : IsHex w cs val) (h' : IsHex w cs val') : val = val' :=
  BitVec.eq_of_toNat_eq (h.value.symm.trans h'.value)

end Shows

end CrashReport
end Giet
end Smc
