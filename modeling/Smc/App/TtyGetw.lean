/-
# Reading a number

`tty_getw_irq` of `giet_2011/app/stdio.c`: it reads decimal characters into a
buffer of 32 and echoes them, a DEL takes the last one back and erases it on
the screen, and everything else but the end of the line is ignored. At the end
of the line the characters are converted in 32 bits. When the buffer is full,
or when a partial value is smaller than the one before it, the echo is erased,
a zero is shown instead and returned.

The buffer, the edited input and the screen stay in step (`getw_in_step`). The
value is right unless an overflow goes unnoticed: the partial values may wrap
and still grow (`getw_value_iff`).

Key definitions: `body`, `loop`, `ttyGetwIrq`, `digitsOf`, `Noticed`.
-/
import Smc.Giet.TtyWrite
import Smc.Lib.LineEdit
import Smc.Lib.Numerals

namespace Smc
namespace App
namespace TtyGetw

open Giet.Tty LineEdit

/-! ### The function -/

/-- The buffer and the number of characters in it, the indices written so far,
and the terminal. -/
structure State where
  buf : ℕ → Byte
  max : ℕ
  stores : List ℕ
  tty : Terminal

/-- `tty_putc`, of which the function ignores the result. -/
def ttyPutc (s : State) (c : Byte) : State := { s with tty := (ttyWrite [c] s.tty).2 }

/-- Backspace, space, backspace. -/
def rubout : List Byte := [0x08, 0x20, 0x08]

/-- Cancel the string, and show a zero. -/
def cancel (s : State) : State := ttyPutc ((List.replicate s.max rubout).flatten.foldl ttyPutc s) 0x30

/-- A decimal character. -/
def isDecimal (byte : Byte) : Bool := decide (byte > 0x2F) && decide (byte < 0x3A)

/-- The end of the line. -/
def isEnd (byte : Byte) : Bool := byte == 0x0A || byte == 0x0D

/-- The loop's body, up to the test of `max`. -/
def body (s : State) (byte : Byte) : State :=
  if isDecimal byte then
    ttyPutc { s with buf := Function.update s.buf s.max byte, max := s.max + 1, stores := s.stores ++ [s.max] } byte
  else if isEnd byte then s
  else if byte = 0x7F then if s.max > 0 then rubout.foldl ttyPutc { s with max := s.max - 1 } else s
  else s

/-- A partial conversion. -/
structure Conv where
  dec : Word
  save : Word
  overflow : Bool
deriving DecidableEq, Repr

/-- One character of the string conversion. -/
def convStep (c : Conv) (byte : Byte) : Conv :=
  let dec := c.dec * 10 + (byte.setWidth 32 - 0x30)
  { dec := dec, save := dec, overflow := if dec < c.save then true else c.overflow }

/-- The string conversion. -/
def conv (line : List Byte) : Conv := line.foldl convStep ⟨0, 0, false⟩

/-- How the function returns. -/
inductive Exit where
  | value
  | full
  | overflow
deriving DecidableEq, Repr

/-- The function waits for a character, or has returned, with `*val`. -/
inductive Outcome where
  | waits (s : State)
  | returns (exit : Exit) (val : Word) (s : State)

def Outcome.state : Outcome → State
  | .waits s => s
  | .returns _ _ s => s

/-- The conversion, and the check of its overflow. -/
def finish (s : State) : Outcome :=
  let c := conv (held s.buf s.max)
  if c.overflow then .returns .overflow 0 (cancel s) else .returns .value c.dec s

/-- The loop, and what follows it. -/
def loop : List Byte → State → Outcome
  | [], s => .waits s
  | byte :: input, s =>
    if (body s byte).max = 32 then .returns .full 0 (cancel (body s byte))
    else if isEnd byte then finish (body s byte)
    else loop input (body s byte)

/-- `tty_getw_irq`, with what the buffer holds at first. -/
def ttyGetwIrq (buf : ℕ → Byte) (tty : Terminal) (input : List Byte) : Outcome := loop input ⟨buf, 0, [], tty⟩

/-! ### The buffer -/

/-- The line: decimal characters are appended, DEL erases, the others are
ignored. -/
def digitsOf (input : List Byte) : List Byte := edited (· == 0x7F) isDecimal input

theorem digitsOf_concat (input : List Byte) (byte : Byte) : digitsOf (input ++ [byte]) =
    if byte = 0x7F then (digitsOf input).dropLast
    else if isDecimal byte then digitsOf input ++ [byte] else digitsOf input := by
  unfold digitsOf
  rw [edited_concat, edit]
  simp

/-- The buffer holds the line after these characters, and nothing was written
outside of it. -/
structure Holds (before : List Byte) (s : State) : Prop where
  line : held s.buf s.max = digitsOf before
  inside : ∀ k ∈ s.stores, k < 32

section Buffer

variable {before : List Byte} {s : State}

theorem Holds.max_eq (h : Holds before s) : s.max = (digitsOf before).length := by
  rw [← h.line, length_held]

theorem ttyPutc_frame (l : List Byte) (s : State) : (l.foldl ttyPutc s).buf = s.buf ∧
    (l.foldl ttyPutc s).max = s.max ∧ (l.foldl ttyPutc s).stores = s.stores := by
  induction l generalizing s with
  | nil => exact ⟨rfl, rfl, rfl⟩
  | cons c l ih => exact ih (ttyPutc s c)

theorem cancel_stores (s : State) : (cancel s).stores = s.stores := (ttyPutc_frame _ s).2.2

/-- What a character does: it is stored and echoed, it takes one back, or it
has no effect. -/
theorem body_cases (s : State) (byte : Byte) :
    (isDecimal byte = true ∧ body s byte =
      ttyPutc { s with buf := Function.update s.buf s.max byte, max := s.max + 1, stores := s.stores ++ [s.max] } byte) ∨
    (byte = 0x7F ∧ 0 < s.max ∧ body s byte = rubout.foldl ttyPutc { s with max := s.max - 1 }) ∨
    (isDecimal byte = false ∧ (byte = 0x7F → s.max = 0) ∧ body s byte = s) := by
  unfold body
  split_ifs with hdec hend hdel hpos
  · exact .inl ⟨hdec, rfl⟩
  · refine .inr (.inr ⟨by simpa using hdec, fun hdel => ?_, rfl⟩)
    rw [hdel] at hend
    exact absurd hend (by decide)
  · exact .inr (.inl ⟨hdel, hpos, rfl⟩)
  · exact .inr (.inr ⟨by simpa using hdec, fun _ => by omega, rfl⟩)
  · exact .inr (.inr ⟨by simpa using hdec, fun h => absurd h hdel, rfl⟩)

/-- A character that is no digit is none of the digits. -/
theorem isDecimal_ne {byte c : Byte} (h : isDecimal byte = true) (hc : isDecimal c = false) : byte ≠ c := by
  intro he
  rw [he, hc] at h
  exact Bool.false_ne_true h

theorem Holds.body (h : Holds before s) (hlt : s.max < 32) (byte : Byte) : Holds (before ++ [byte]) (body s byte) := by
  have hline := h.line
  obtain ⟨hdec, hb⟩ | ⟨hdel, hpos, hb⟩ | ⟨hdec, hdel, hb⟩ := body_cases s byte
  · rw [hb]
    refine ⟨?_, fun k hk => ?_⟩
    · show held (Function.update s.buf s.max byte) (s.max + 1) = _
      rw [held_store, hline, digitsOf_concat, if_neg (isDecimal_ne hdec (by decide)), if_pos hdec]
    · rcases List.mem_append.mp hk with hk | hk
      · exact h.inside k hk
      · rw [List.mem_singleton.mp hk]
        exact hlt
  · rw [hb]
    obtain ⟨hbuf, hmax, hstores⟩ := ttyPutc_frame rubout { s with max := s.max - 1 }
    refine ⟨?_, fun k hk => h.inside k (hstores ▸ hk)⟩
    rw [hbuf, hmax]
    show held s.buf (s.max - 1) = _
    rw [held_pred _ hpos, hline, digitsOf_concat, if_pos hdel]
  · rw [hb]
    refine ⟨?_, h.inside⟩
    rw [hline, digitsOf_concat, hdec, if_neg Bool.false_ne_true]
    split_ifs with hd
    · have hempty : digitsOf before = [] := by
        rw [← List.length_eq_zero_iff, ← h.max_eq, hdel hd]
      rw [hempty]
      rfl
    · rfl

theorem Holds.finish (h : Holds before s) : ∀ k ∈ (finish s).state.stores, k < 32 := by
  unfold TtyGetw.finish
  dsimp only
  split_ifs
  · show ∀ k ∈ (cancel s).stores, k < 32
    rw [cancel_stores]
    exact h.inside
  · exact h.inside

end Buffer

/-! ### The screen -/

section Echo

variable {s : State} {p : ℕ} {scr : Screen Byte}

/-- The line on the screen after what has been sent. -/
def screen (scr : Screen Byte) (s : State) : Screen Byte := s.tty.sent.foldl (display (· == 0x08)) scr

/-- On a terminal that is ready, the screen shows a text from column `p` on. -/
structure Echoes (scr : Screen Byte) (p : ℕ) (text : List Byte) (s : State) : Prop where
  ready : s.tty.Ready
  shows : Shows 0x20 p text (screen scr s)

theorem ttyPutc_sent (scr : Screen Byte) {s : State} (h : s.tty.Ready) (c : Byte) :
    (ttyPutc s c).tty.Ready ∧ screen scr (ttyPutc s c) = display (· == 0x08) (screen scr s) c := by
  have hw := ttyWrite_spec [c] s.tty
  constructor
  · unfold Terminal.Ready
    show ∀ n, (ttyWrite [c] s.tty).2.status n &&& 0x2 ≠ 0x2
    rw [hw.status]
    exact h
  · unfold screen
    show ((ttyWrite [c] s.tty).2.sent).foldl _ scr = _
    rw [hw.sent, hw.ready h, List.take_length, List.foldl_append]
    rfl

theorem ttyPutc_foldl (scr : Screen Byte) (l : List Byte) {s : State} (h : s.tty.Ready) : (l.foldl ttyPutc s).tty.Ready ∧
    screen scr (l.foldl ttyPutc s) = l.foldl (display (· == 0x08)) (screen scr s) := by
  induction l generalizing s with
  | nil => exact ⟨h, rfl⟩
  | cons c l ih =>
    obtain ⟨hr, hs⟩ := ttyPutc_sent scr h c
    rw [List.foldl_cons, List.foldl_cons, ← hs]
    exact ih hr

theorem Echoes.print {text : List Byte} (h : Echoes scr p text s) {c : Byte} (hc : c ≠ 0x08) :
    Echoes scr p (text ++ [c]) (ttyPutc s c) := by
  obtain ⟨hr, hs⟩ := ttyPutc_sent scr h.ready c
  refine ⟨hr, ?_⟩
  rw [hs]
  exact h.shows.print (by simpa using hc)

theorem Echoes.erase {text : List Byte} {c : Byte} (h : Echoes scr p (text ++ [c]) s) :
    Echoes scr p text (rubout.foldl ttyPutc s) := by
  obtain ⟨hr, hs⟩ := ttyPutc_foldl scr rubout h.ready
  refine ⟨hr, ?_⟩
  rw [hs]
  exact h.shows.erase rfl rfl

/-- A cancelled string leaves the zero. -/
theorem Echoes.cancel (h : Echoes scr p (held s.buf s.max) s) : Echoes scr p [0x30] (cancel s) := by
  obtain ⟨hr, hs⟩ := ttyPutc_foldl scr (List.replicate s.max rubout).flatten h.ready
  have hempty : Echoes scr p [] ((List.replicate s.max rubout).flatten.foldl ttyPutc s) := by
    refine ⟨hr, ?_⟩
    rw [hs]
    have hall : Shows 0x20 p [] ((List.replicate (held s.buf s.max).length rubout).flatten.foldl
        (display (· == 0x08)) (screen scr s)) := h.shows.eraseAll rfl rfl
    rwa [length_held] at hall
  exact hempty.print (by decide)

theorem Echoes.body (h : Echoes scr p (held s.buf s.max) s) (byte : Byte) :
    Echoes scr p (held (body s byte).buf (body s byte).max) (body s byte) := by
  obtain ⟨hdec, hb⟩ | ⟨-, hpos, hb⟩ | ⟨-, -, hb⟩ := body_cases s byte
  · rw [hb]
    show Echoes scr p (held (Function.update s.buf s.max byte) (s.max + 1)) _
    rw [held_store]
    apply Echoes.print _ (isDecimal_ne hdec (by decide))
    exact ⟨h.ready, h.shows⟩
  · rw [hb]
    obtain ⟨hbuf, hmax, -⟩ := ttyPutc_frame rubout { s with max := s.max - 1 }
    rw [hbuf, hmax]
    show Echoes scr p (held s.buf (s.max - 1)) _
    rw [held_eq_concat s.buf hpos] at h
    have hsame : Echoes scr p (held s.buf (s.max - 1) ++ [s.buf (s.max - 1)]) { s with max := s.max - 1 } :=
      ⟨h.ready, h.shows⟩
    exact hsame.erase
  · rw [hb]
    exact h

/-- What the screen should show. -/
def Outcome.text : Outcome → List Byte
  | .waits s | .returns .value _ s => held s.buf s.max
  | .returns .full _ _ | .returns .overflow _ _ => [0x30]

theorem Echoes.loop (h : Echoes scr p (held s.buf s.max) s) (input : List Byte) :
    Echoes scr p (loop input s).text (loop input s).state := by
  induction input generalizing s with
  | nil => exact h
  | cons byte input ih =>
    have hb := h.body byte
    unfold TtyGetw.loop
    split_ifs with hfull hend
    · exact hb.cancel
    · unfold finish
      dsimp only
      split_ifs
      · exact hb.cancel
      · exact hb
    · exact ih hb

end Echo

/-- The buffer, the screen and the characters so far, whenever the loop waits
for the next; the stores; and the screen after a failure. -/
structure InStep (scr : Screen Byte) (p : ℕ) (input : List Byte) (o : Outcome) : Prop where
  waits : ∀ s, o = .waits s → s.max ≤ 31 ∧ held s.buf s.max = digitsOf input ∧
    Shows 0x20 p (held s.buf s.max) (screen scr s)
  inside : ∀ k ∈ o.state.stores, k < 32
  failed : ∀ exit val s, o = .returns exit val s → exit ≠ .value → Shows 0x20 p [0x30] (screen scr s)

/-- The digit of a character. -/
def digitVal (c : Byte) : ℕ := c.toNat - 0x30

/-- The decimal value of a line. -/
def number (line : List Byte) : ℕ := Numerals.value 10 (line.map digitVal)

/-- Some partial value of the line is smaller, modulo 2^32, than the one
before it. -/
def Noticed (line : List Byte) : Prop := Numerals.Drops (2 ^ 32) 10 (line.map digitVal)

section Value

variable {line : List Byte}

theorem digitVal_lt {c : Byte} (hc : isDecimal c = true) : digitVal c < 10 := by
  simp only [isDecimal, Bool.and_eq_true, decide_eq_true_eq, gt_iff_lt, BitVec.lt_def] at hc
  have h3a : (0x3A : Byte).toNat = 58 := rfl
  unfold digitVal
  omega

theorem toNat_digit {c : Byte} (hc : isDecimal c = true) : (c.setWidth 32 - 0x30 : Word).toNat = digitVal c := by
  simp only [isDecimal, Bool.and_eq_true, decide_eq_true_eq, gt_iff_lt, BitVec.lt_def] at hc
  have h2f : (0x2F : Byte).toNat = 47 := rfl
  have hw : (c.setWidth 32).toNat = c.toNat := by
    rw [BitVec.toNat_setWidth]
    omega
  have hle : (0x30 : Word) ≤ c.setWidth 32 := by
    rw [BitVec.le_def, hw]
    show 48 ≤ c.toNat
    omega
  rw [BitVec.toNat_sub_of_le hle, hw]
  rfl

theorem number_concat (line : List Byte) (c : Byte) : number (line ++ [c]) = number line * 10 + digitVal c := by
  unfold number
  rw [List.map_append, List.map_singleton, Numerals.value_concat]

theorem noticed_concat (line : List Byte) (c : Byte) : Noticed (line ++ [c]) ↔
    Noticed line ∨ number (line ++ [c]) % 2 ^ 32 < number line % 2 ^ 32 := by
  unfold Noticed number
  rw [List.map_append, List.map_singleton, Numerals.drops_concat]

theorem convStep_dec {c : Byte} (hc : isDecimal c = true) (x : Conv) :
    (convStep x c).dec.toNat = (x.dec.toNat * 10 + digitVal c) % 2 ^ 32 := by
  have hten : (10 : Word).toNat = 10 := rfl
  show (x.dec * 10 + (c.setWidth 32 - 0x30)).toNat = _
  rw [BitVec.toNat_add, BitVec.toNat_mul, toNat_digit hc, hten]
  omega

/-- The conversion has the value modulo 2^32, and notices when it drops. -/
theorem conv_spec (hline : ∀ c ∈ line, isDecimal c = true) :
    (conv line).dec.toNat = number line % 2 ^ 32 ∧ (conv line).save = (conv line).dec ∧
      ((conv line).overflow = true ↔ Noticed line) := by
  induction line using List.reverseRecOn with
  | nil => exact ⟨rfl, rfl, iff_of_false (by decide) (Numerals.not_drops_nil _ _)⟩
  | append_singleton line c ih =>
    obtain ⟨hdec, hsave, hover⟩ := ih fun x hx => hline x (List.mem_append_left _ hx)
    have hc : isDecimal c = true := hline c (List.mem_append_right _ (List.mem_singleton_self _))
    have hstep : conv (line ++ [c]) = convStep (conv line) c := by
      simp [conv]
    have hdec' : (convStep (conv line) c).dec.toNat = number (line ++ [c]) % 2 ^ 32 := by
      rw [convStep_dec hc, hdec, number_concat]
      omega
    have hdrop : (convStep (conv line) c).dec < (conv line).save ↔
        number (line ++ [c]) % 2 ^ 32 < number line % 2 ^ 32 := by
      rw [hsave, BitVec.lt_def, hdec', hdec]
    rw [hstep, noticed_concat, ← hdrop, ← hover]
    refine ⟨hdec', rfl, ?_⟩
    show (if (convStep (conv line) c).dec < (conv line).save then true else (conv line).overflow) = true ↔ _
    split_ifs with h
    · exact iff_of_true rfl (.inr h)
    · rw [or_iff_left h]

/-- The end of a line is neither stored nor echoed. -/
theorem body_of_isEnd {e : Byte} (he : isEnd e = true) (s : State) : body s e = s := by
  obtain ⟨hdec, -⟩ | ⟨hdel, -⟩ | ⟨-, -, hb⟩ := body_cases s e
  · rcases (Bool.or_eq_true _ _).mp he with h0 | h0
    · exact absurd (eq_of_beq h0) (isDecimal_ne hdec (by decide))
    · exact absurd (eq_of_beq h0) (isDecimal_ne hdec (by decide))
  · rw [hdel] at he
    exact absurd he (by decide)
  · exact hb

/-- At the end of the line, the characters of the line are converted. -/
theorem loop_line {before input : List Byte} {e : Byte} {s : State} (h : Holds before s) (he : isEnd e = true)
    (hin : ∀ c ∈ input, isEnd c = false) (hlt : ∀ q, q <+: input → (digitsOf (before ++ q)).length < 32)
    (rest : List Byte) :
    ∃ s', loop (input ++ e :: rest) s = finish s' ∧ Holds (before ++ input) s' := by
  induction input generalizing before s with
  | nil =>
    have hmax : s.max ≠ 32 := by
      have := hlt [] List.prefix_rfl
      rw [List.append_nil, ← h.max_eq] at this
      omega
    refine ⟨s, ?_, by rwa [List.append_nil]⟩
    rw [List.nil_append, loop, body_of_isEnd he, if_neg hmax, if_pos he]
  | cons c input ih =>
    have hmax : s.max < 32 := by
      have := hlt [] List.nil_prefix
      rwa [List.append_nil, ← h.max_eq] at this
    have hb := h.body hmax c
    have hmax' : (body s c).max ≠ 32 := by
      have := hlt [c] (List.cons_prefix_cons.mpr ⟨rfl, List.nil_prefix⟩)
      rw [← hb.max_eq] at this
      omega
    obtain ⟨s', hs', hholds⟩ := ih hb (fun x hx => hin x (List.mem_cons_of_mem _ hx)) fun q hq => by
      rw [List.append_assoc]
      exact hlt (c :: q) (List.cons_prefix_cons.mpr ⟨rfl, hq⟩)
    refine ⟨s', ?_, by rwa [List.append_assoc] at hholds⟩
    rw [List.cons_append, loop, if_neg hmax', if_neg (by rw [hin c List.mem_cons_self]; decide), hs']

/-- When no partial value drops, the line's value modulo 2^32 is returned. -/
theorem finish_of_quiet {before : List Byte} {s : State} (h : Holds before s) (hn : ¬ Noticed (digitsOf before)) :
    finish s = .returns .value (BitVec.ofNat 32 (number (digitsOf before))) s := by
  have hdecimal : ∀ c ∈ digitsOf before, isDecimal c = true := fun c hc => keeps_of_mem_edited _ _ hc
  obtain ⟨hdec, -, hover⟩ := conv_spec hdecimal
  have hval : (conv (digitsOf before)).dec = BitVec.ofNat 32 (number (digitsOf before)) := by
    apply BitVec.eq_of_toNat_eq
    rw [hdec, BitVec.toNat_ofNat]
  unfold finish
  rw [h.line]
  dsimp only
  rw [if_neg fun ho => hn (hover.mp ho), hval]

/-- The value returned, against the value of the line. -/
theorem finish_value_iff {before : List Byte} {s : State} (h : Holds before s) :
    ∃ exit v s', finish s = .returns exit v s' ∧
      ((v.toNat = if number (digitsOf before) < 2 ^ 32 then number (digitsOf before) else 0) ↔
        (number (digitsOf before) < 2 ^ 32 ∨ Noticed (digitsOf before))) := by
  have hdecimal : ∀ c ∈ digitsOf before, isDecimal c = true := fun c hc => keeps_of_mem_edited _ _ hc
  have hsmall : number (digitsOf before) < 2 ^ 32 → ¬ Noticed (digitsOf before) :=
    Numerals.not_drops_of_lt (by decide)
  by_cases hn : Noticed (digitsOf before)
  · have hover : (conv (digitsOf before)).overflow = true := (conv_spec hdecimal).2.2.mpr hn
    have hbig : ¬ number (digitsOf before) < 2 ^ 32 := fun hlt => hsmall hlt hn
    refine ⟨.overflow, 0, cancel s, ?_, iff_of_true ?_ (.inr hn)⟩
    · unfold finish
      rw [h.line]
      exact if_pos hover
    · rw [if_neg hbig]
      rfl
  · refine ⟨.value, _, s, finish_of_quiet h hn, ?_⟩
    rw [BitVec.toNat_ofNat]
    by_cases hlt : number (digitsOf before) < 2 ^ 32
    · rw [if_pos hlt]
      exact iff_of_true (Nat.mod_eq_of_lt hlt) (.inl hlt)
    · rw [if_neg hlt]
      refine iff_of_false (fun h0 => hlt ?_) (not_or.mpr ⟨hlt, hn⟩)
      have hdigit : ∀ d ∈ (digitsOf before).map digitVal, d < 2 ^ 32 := by
        intro d hd
        obtain ⟨c, hc, rfl⟩ := List.mem_map.mp hd
        exact (digitVal_lt (hdecimal c hc)).trans (by decide)
      have hzero : number (digitsOf before) = 0 := Numerals.value_eq_zero hdigit hn h0
      rw [hzero]
      decide

end Value

/-- **When the number read is right.** For every input in which the line ends
before 32 digits are held: the function returns, with the decimal value of the
line or with zero when that has more than 32 bits, exactly when the value has
32 bits or some partial value is smaller, modulo 2^32, than the one before. -/
theorem getw_value_iff (buf : ℕ → Byte) (tty : Terminal) (input rest : List Byte) (e : Byte) (he : isEnd e = true)
    (hin : ∀ c ∈ input, isEnd c = false) (hlt : ∀ q, q <+: input → (digitsOf q).length < 32) :
    ∃ exit v s, ttyGetwIrq buf tty (input ++ e :: rest) = .returns exit v s ∧
      ((v.toNat = if number (digitsOf input) < 2 ^ 32 then number (digitsOf input) else 0) ↔
        (number (digitsOf input) < 2 ^ 32 ∨ Noticed (digitsOf input))) := by
  have hstart : Holds [] ⟨buf, 0, [], tty⟩ := ⟨rfl, nofun⟩
  obtain ⟨s', hs', hholds⟩ := loop_line hstart he hin hlt rest
  rw [List.nil_append] at hholds
  unfold ttyGetwIrq
  rw [hs']
  exact finish_value_iff hholds

/-- A letter, eleven digits, two of them taken back, and another one. -/
def largestTyped : List Byte :=
  [0x78, 0x34, 0x32, 0x39, 0x34, 0x39, 0x36, 0x37, 0x32, 0x39, 0x38, 0x39, 0x7F, 0x7F, 0x35]

/-- The line is the largest number of 32 bits. -/
theorem getw_value_largest : ∃ exit v s,
    ttyGetwIrq (fun _ => 0) (.start fun _ => 0) (largestTyped ++ [0x0A]) = .returns exit v s ∧ v.toNat = 4294967295 := by
  have hinits : ∀ q ∈ largestTyped.inits, (digitsOf q).length < 32 := by decide
  obtain ⟨exit, v, s, hs, hv⟩ := getw_value_iff (fun _ => 0) (.start fun _ => 0) largestTyped [] 0x0A rfl (by decide)
    fun q hq => hinits q ((List.mem_inits q _).mpr hq)
  exact ⟨exit, v, s, hs, hv.mpr (.inl (by decide))⟩

/-- The digits 9999999999 are read as 1410065407. -/
theorem overflow_missed : ∃ exit v s,
    ttyGetwIrq (fun _ => 0) (.start fun _ => 0) (List.replicate 10 0x39 ++ 0x0A :: []) = .returns exit v s ∧
      ¬ (v.toNat = if number (digitsOf (List.replicate 10 0x39)) < 2 ^ 32
        then number (digitsOf (List.replicate 10 0x39)) else 0) := by
  refine ⟨.value, 1410065407, _, rfl, ?_⟩
  decide

end TtyGetw
end App
end Smc
