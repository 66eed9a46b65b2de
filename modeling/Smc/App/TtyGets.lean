/-
# Reading a line

`tty_gets_irq` of `giet_2011/app/stdio.c`: it reads characters into a buffer
until a line feed, or until the buffer has room for the final NUL only, and a
DEL takes the last character back. The input is the characters that arrive;
`SYSCALL_TTY_READ_IRQ` is repeated until it has one, so that the function
waits when there are no more.

A DEL on an empty line has no character to take back, and the function stores
it like any other (`edits_iff`). The bound of the loop is `bufsize - 1`, which
for `bufsize` zero is the largest word (`stores_inside_iff`).

Key definitions: `ttyGetsIrq`, `EditsLine`, `DelOnEmpty`.
-/
import Smc.Giet.Tty
import Smc.Lib.LineEdit

namespace Smc
namespace App
namespace TtyGets

open Giet.Tty LineEdit

/-- The buffer and the index; the stores made so far, and the characters read
that did not end the line. -/
structure State where
  buf : ℕ → Byte
  index : Word
  stores : List (ℕ × Byte)
  consumed : List Byte

/-- `buf[index] = c`. -/
def State.store (s : State) (c : Byte) : State :=
  { s with buf := Function.update s.buf s.index.toNat c, stores := s.stores ++ [(s.index.toNat, c)] }

/-- The part of the loop for a character that is no line feed. -/
def take (byte : Byte) (s : State) : State :=
  let s := { s with consumed := s.consumed ++ [byte] }
  if byte = 0x7F ∧ s.index > 0 then { s with index := s.index - 1 }
  else
    let s := s.store byte
    { s with index := s.index + 1 }

/-- The function waits for a character, or has returned. -/
inductive Outcome where
  | waits (s : State)
  | returns (s : State)

def Outcome.state : Outcome → State
  | .waits s => s
  | .returns s => s

/-- The loop, and the NUL behind it. -/
def loop (bufsize : Word) : List Byte → State → Outcome
  | [], s => if s.index < bufsize - 1 then .waits s else .returns (s.store 0)
  | byte :: input, s =>
    if s.index < bufsize - 1 then
      if byte = 0x0A then .returns (s.store 0) else loop bufsize input (take byte s)
    else .returns (s.store 0)

/-- `tty_gets_irq`, with what the buffer holds at first. -/
def ttyGetsIrq (buf : ℕ → Byte) (bufsize : Word) (input : List Byte) : Outcome :=
  loop bufsize input ⟨buf, 0, [], []⟩

/-! ### The rule -/

/-- The line: DEL erases, everything else is appended. -/
def lineOf (input : List Byte) : List Byte := edited (· == 0x7F) (fun _ => true) input

/-- What a return should leave: the line in the buffer, closed by a NUL and
short enough, and no DEL stored on the way. -/
structure EditsLine (bufsize : Word) (s : State) : Prop where
  line : held s.buf s.index.toNat = lineOf s.consumed
  nul : s.buf s.index.toNat = 0
  length_le : s.index.toNat ≤ bufsize.toNat - 1
  noDel : ∀ x ∈ s.stores, x.2 ≠ 0x7F

/-- The line is open after `input`: no line feed has closed it, and it has
never had `limit` characters. -/
def Open (limit : ℕ) (before input : List Byte) : Prop :=
  0x0A ∉ input ∧ ∀ p, p <+: input → (lineOf (before ++ p)).length < limit

/-- After the characters `before`, a DEL arrives while the line is open and
empty. -/
def DelOnEmpty (limit : ℕ) (before input : List Byte) : Prop :=
  ∃ p q, input = p ++ 0x7F :: q ∧ Open limit before p ∧ lineOf (before ++ p) = []

section Rule

variable {limit : ℕ} {before input : List Byte} {c : Byte}

theorem lineOf_concat : lineOf (before ++ [c]) =
    if c = 0x7F then (lineOf before).dropLast else lineOf before ++ [c] := by
  unfold lineOf
  rw [edited_concat, edit]
  simp

theorem not_delOnEmpty_nil : ¬ DelOnEmpty limit before [] := by
  intro h
  obtain ⟨p, q, hp, -⟩ := h
  simp at hp

theorem open_cons : Open limit before (c :: input) ↔
    (lineOf before).length < limit ∧ c ≠ 0x0A ∧ Open limit (before ++ [c]) input := by
  unfold Open
  constructor
  · intro h
    refine ⟨?_, ?_, ?_, fun p hp => ?_⟩
    · simpa using h.2 [] List.nil_prefix
    · exact fun hc => h.1 (hc ▸ List.mem_cons_self)
    · exact fun hm => h.1 (List.mem_cons_of_mem _ hm)
    · rw [List.append_assoc]
      exact h.2 (c :: p) (List.cons_prefix_cons.mpr ⟨rfl, hp⟩)
  · intro h
    obtain ⟨hlen, hc, hm, hp⟩ := h
    refine ⟨?_, fun p hpre => ?_⟩
    · rw [List.mem_cons]
      exact not_or.mpr ⟨hc.symm, hm⟩
    · cases p with
      | nil => simpa using hlen
      | cons a p =>
        obtain ⟨rfl, htail⟩ := List.cons_prefix_cons.mp hpre
        have := hp p htail
        rwa [List.append_assoc] at this

theorem delOnEmpty_cons : DelOnEmpty limit before (c :: input) ↔
    (lineOf before).length < limit ∧
      ((c = 0x7F ∧ lineOf before = []) ∨ (c ≠ 0x0A ∧ DelOnEmpty limit (before ++ [c]) input)) := by
  constructor
  · intro h
    obtain ⟨p, q, hin, hopen, hempty⟩ := h
    cases p with
    | nil =>
      obtain ⟨rfl, rfl⟩ := List.cons.inj hin
      exact ⟨by simpa using hopen.2 [] List.prefix_rfl, .inl ⟨rfl, by simpa using hempty⟩⟩
    | cons a p =>
      obtain ⟨rfl, rfl⟩ := List.cons.inj hin
      obtain ⟨hlen, hc, hrest⟩ := open_cons.mp hopen
      refine ⟨hlen, .inr ⟨hc, p, q, rfl, hrest, ?_⟩⟩
      rwa [List.append_assoc]
  · intro h
    obtain ⟨hlen, ⟨rfl, hempty⟩ | ⟨hc, p, q, rfl, hopen, hempty⟩⟩ := h
    · refine ⟨[], input, rfl, ⟨List.not_mem_nil, fun p hp => ?_⟩, by simpa using hempty⟩
      rw [List.prefix_nil.mp hp]
      simpa using hlen
    · refine ⟨c :: p, q, rfl, open_cons.mpr ⟨hlen, hc, hopen⟩, ?_⟩
      rwa [List.append_assoc] at hempty

end Rule

/-! ### The loop -/

section Loop

variable {bufsize : Word} {s : State}

/-- A store adds itself to the record and nothing else. -/
theorem forall_mem_store {P : ℕ × Byte → Prop} {c : Byte} (h : ∀ x ∈ s.stores, P x) (hnew : P (s.index.toNat, c)) :
    ∀ x ∈ (s.store c).stores, P x := by
  intro x hx
  rcases List.mem_append.mp hx with hx | hx
  · exact h x hx
  · rw [List.mem_singleton.mp hx]
    exact hnew

theorem mem_take {x : ℕ × Byte} {byte : Byte} (h : x ∈ s.stores) : x ∈ (take byte s).stores := by
  unfold take
  dsimp only
  split_ifs
  · exact h
  · exact List.mem_append_left _ h

/-- A store is not undone. -/
theorem mem_loop (bufsize : Word) {x : ℕ × Byte} (input : List Byte) (h : x ∈ s.stores) :
    x ∈ (loop bufsize input s).state.stores := by
  induction input generalizing s with
  | nil =>
    unfold loop
    split_ifs
    · exact h
    · exact List.mem_append_left _ h
  | cons byte input ih =>
    unfold loop
    split_ifs
    · exact List.mem_append_left _ h
    · exact ih (mem_take h)
    · exact List.mem_append_left _ h

/-- The buffer holds the line, after these characters. -/
structure Holds (bufsize : Word) (before : List Byte) (s : State) : Prop where
  line : held s.buf s.index.toNat = lineOf before
  consumed : s.consumed = before
  length_le : s.index.toNat ≤ bufsize.toNat - 1
  noDel : ∀ x ∈ s.stores, x.2 ≠ 0x7F

variable {before : List Byte}

theorem Holds.length_eq (h : Holds bufsize before s) : (lineOf before).length = s.index.toNat := by
  rw [← h.line, length_held]

/-- The NUL closes the line. -/
theorem Holds.close (h : Holds bufsize before s) : EditsLine bufsize (s.store 0) where
  line := by
    show held (Function.update s.buf s.index.toNat 0) s.index.toNat = lineOf s.consumed
    rw [held_update_of_le _ _ (le_refl _), h.line, h.consumed]
  nul := Function.update_self _ _ _
  length_le := h.length_le
  noDel := forall_mem_store h.noDel (show (0 : Byte) ≠ 0x7F by decide)

/-- The bound of the loop. -/
theorem bound_toNat (hb : 1 ≤ bufsize.toNat) : (bufsize - 1).toNat = bufsize.toNat - 1 := by
  have hle : (1 : Word) ≤ bufsize := by
    rw [BitVec.le_def]
    exact hb
  rw [BitVec.toNat_sub_of_le hle]
  rfl

theorem index_pred {i : Word} (h : i > 0) : (i - 1).toNat = i.toNat - 1 := by
  rw [BitVec.toNat_sub_of_le (show (1 : Word) ≤ i from h)]
  rfl

theorem index_succ {i : Word} (h : i.toNat + 1 < 2 ^ 32) : (i + 1).toNat = i.toNat + 1 := by
  rw [BitVec.toNat_add]
  exact Nat.mod_eq_of_lt h

theorem Holds.take (h : Holds bufsize before s) (hlt : s.index.toNat < bufsize.toNat - 1) {byte : Byte}
    (hdel : ¬ (byte = 0x7F ∧ lineOf before = [])) : Holds bufsize (before ++ [byte]) (take byte s) := by
  have hlen := h.length_eq
  have hbuf := bufsize.isLt
  unfold TtyGets.take
  dsimp only
  split_ifs with hc
  · obtain ⟨rfl, hpos⟩ := hc
    have hpos' : 0 < s.index.toNat := hpos
    refine ⟨?_, by rw [h.consumed], ?_, h.noDel⟩
    · show held s.buf (s.index - 1).toNat = _
      rw [index_pred hpos, held_pred _ hpos', h.line, lineOf_concat, if_pos rfl]
    · show (s.index - 1).toNat ≤ _
      rw [index_pred hpos]
      omega
  · have hne : byte ≠ 0x7F := by
      intro hbyte
      have hzero : ¬ 0 < s.index.toNat := fun hpos => hc ⟨hbyte, hpos⟩
      exact hdel ⟨hbyte, List.length_eq_zero_iff.mp (by omega)⟩
    have hidx : (s.index + 1).toNat = s.index.toNat + 1 := index_succ (by omega)
    refine ⟨?_, by rw [← h.consumed]; rfl, ?_, forall_mem_store h.noDel hne⟩
    · show held (Function.update s.buf s.index.toNat byte) (s.index + 1).toNat = _
      rw [hidx, held_store, h.line, lineOf_concat, if_neg hne]
    · show (s.index + 1).toNat ≤ _
      omega

theorem Holds.index_eq_zero (h : Holds bufsize before s) (hempty : lineOf before = []) : s.index = 0 := by
  apply BitVec.eq_of_toNat_eq
  rw [← h.length_eq, hempty]
  rfl

/-- A DEL on an empty line is stored. -/
theorem del_stored (h : s.index = 0) : (0, (0x7F : Byte)) ∈ (take 0x7F s).stores := by
  have hnot : ¬ ((0x7F : Byte) = 0x7F ∧ s.index > 0) := by
    rw [h]
    decide
  unfold take
  dsimp only
  rw [if_neg hnot]
  show _ ∈ s.stores ++ [(s.index.toNat, 0x7F)]
  rw [h]
  exact List.mem_append_right _ (List.mem_singleton_self _)

theorem loop_edits_iff (hb : 1 ≤ bufsize.toNat) (input : List Byte) (h : Holds bufsize before s) {s' : State}
    (hret : loop bufsize input s = .returns s') :
    EditsLine bufsize s' ↔ ¬ DelOnEmpty (bufsize.toNat - 1) before input := by
  induction input generalizing s before with
  | nil =>
    unfold loop at hret
    split_ifs at hret
    obtain rfl := Outcome.returns.inj hret
    exact iff_of_true h.close not_delOnEmpty_nil
  | cons byte input ih =>
    have hbound : s.index < bufsize - 1 ↔ (lineOf before).length < bufsize.toNat - 1 := by
      rw [BitVec.lt_def, bound_toNat hb, h.length_eq]
    unfold loop at hret
    rw [delOnEmpty_cons, ← hbound]
    split_ifs at hret with hlt hlf
    · obtain rfl := Outcome.returns.inj hret
      refine iff_of_true h.close fun hdel => ?_
      obtain ⟨-, ⟨hc, -⟩ | ⟨hc, -⟩⟩ := hdel
      · exact absurd (hlf.symm.trans hc) (by decide)
      · exact hc hlf
    · have hlt' : s.index.toNat < bufsize.toNat - 1 := by
        rw [← h.length_eq]
        exact hbound.mp hlt
      by_cases hdel : byte = 0x7F ∧ lineOf before = []
      · -- the character is stored, and stays in the record
        refine iff_of_false (fun he => ?_) (not_not.mpr ⟨hlt, .inl hdel⟩)
        obtain ⟨rfl, hempty⟩ := hdel
        have hmem := mem_loop bufsize input (del_stored (h.index_eq_zero hempty))
        rw [hret] at hmem
        exact he.noDel _ hmem rfl
      · rw [ih (h.take hlt' hdel) hret]
        simp only [hlt, hdel, hlf, false_or, true_and, ne_eq, not_false_eq_true]
    · obtain rfl := Outcome.returns.inj hret
      exact iff_of_true h.close fun hdel => hlt hdel.1

/-- **When a line is edited by the rule.** For every buffer of one byte or
more and every input on which the function returns: the characters in front of
the NUL are the line of the characters consumed, one less than `bufsize` at
most, with no DEL ever stored, exactly when no DEL arrives on an empty line
that is still open. -/
theorem edits_iff (buf : ℕ → Byte) (bufsize : Word) (hb : 1 ≤ bufsize.toNat) (input : List Byte) (s : State)
    (hret : ttyGetsIrq buf bufsize input = .returns s) :
    EditsLine bufsize s ↔ ¬ DelOnEmpty (bufsize.toNat - 1) [] input := by
  have hstart : Holds bufsize [] ⟨buf, 0, [], []⟩ := ⟨rfl, rfl, Nat.zero_le _, nofun⟩
  exact loop_edits_iff hb input hstart hret

/-- Two letters, one of them taken back. -/
theorem edits_one : EditsLine 8 ⟨Function.update (Function.update (Function.update (fun _ => 0) 0 0x61) 1 0x62) 1 0, 1,
    [(0, 0x61), (1, 0x62), (1, 0)], [0x61, 0x62, 0x7F]⟩ := by
  apply (edits_iff (fun _ => 0) 8 (by decide) [0x61, 0x62, 0x7F, 0x0A] _ rfl).mpr
  intro h
  simp only [delOnEmpty_cons] at h
  have hline : lineOf [0x61, 0x62] ≠ [] := by decide
  simp_all [not_delOnEmpty_nil]

/-- A DEL in front of the line feed is the line. -/
theorem del_kept : ∃ s, ttyGetsIrq (fun _ => 0) 8 [0x7F, 0x0A] = .returns s ∧ ¬ EditsLine 8 s := by
  refine ⟨_, rfl, fun h => ?_⟩
  exact h.noDel (0, 0x7F) List.mem_cons_self rfl

/-! ### The stores -/

/-- The stores made so far are inside the buffer. -/
def Inside (bufsize : Word) (s : State) : Prop := ∀ x ∈ s.stores, x.1 < bufsize.toNat

theorem Inside.store (h : Inside bufsize s) (hlt : s.index.toNat < bufsize.toNat) (c : Byte) :
    Inside bufsize (s.store c) :=
  forall_mem_store h hlt

theorem Inside.take (h : Inside bufsize s) (hlt : s.index.toNat < bufsize.toNat - 1) (byte : Byte) :
    Inside bufsize (take byte s) ∧ (TtyGets.take byte s).index.toNat ≤ bufsize.toNat - 1 := by
  have hbuf := bufsize.isLt
  unfold TtyGets.take
  dsimp only
  split_ifs with hdel
  · refine ⟨h, ?_⟩
    show (s.index - 1).toNat ≤ _
    rw [index_pred hdel.2]
    omega
  · refine ⟨Inside.store (s := { s with consumed := s.consumed ++ [byte] }) h (by dsimp only; omega) byte, ?_⟩
    show (s.index + 1).toNat ≤ _
    rw [index_succ (by omega)]
    omega

/-- The index stays below the bound that stops the loop. -/
theorem Inside.loop (hb : 1 ≤ bufsize.toNat) (input : List Byte) (h : Inside bufsize s)
    (hle : s.index.toNat ≤ bufsize.toNat - 1) : Inside bufsize (loop bufsize input s).state := by
  induction input generalizing s with
  | nil =>
    unfold TtyGets.loop
    split_ifs
    · exact h
    · exact h.store (by omega) 0
  | cons byte input ih =>
    unfold TtyGets.loop
    split_ifs with hlt hlf
    · exact h.store (by omega) 0
    · rw [BitVec.lt_def, bound_toNat hb] at hlt
      obtain ⟨hin, hidx⟩ := h.take hlt byte
      exact ih hin hidx
    · exact h.store (by omega) 0

/-- **When the stores stay in the buffer.** For every `bufsize` and every
input: every store is to an index below `bufsize`, exactly when there is a
byte of buffer or no character at all. -/
theorem stores_inside_iff (buf : ℕ → Byte) (bufsize : Word) (input : List Byte) :
    Inside bufsize (ttyGetsIrq buf bufsize input).state ↔ 1 ≤ bufsize.toNat ∨ input = [] := by
  by_cases hb : 1 ≤ bufsize.toNat
  · have hstart : Inside bufsize ⟨buf, 0, [], []⟩ := nofun
    exact iff_of_true (hstart.loop hb input (Nat.zero_le _)) (.inl hb)
  · obtain rfl : bufsize = 0 := BitVec.eq_of_toNat_eq (show bufsize.toNat = 0 by omega)
    cases input with
    | nil => exact iff_of_true nofun (.inr rfl)
    | cons byte input =>
      refine iff_of_false (fun h => ?_) (by simp)
      -- the first character is stored at 0, or the NUL is
      have hmem : ∃ c, (0, c) ∈ (ttyGetsIrq buf 0 (byte :: input)).state.stores := by
        unfold ttyGetsIrq loop
        rw [if_pos (show (0 : Word) < 0 - 1 by decide)]
        split_ifs with hlf
        · exact ⟨0, List.mem_singleton_self _⟩
        · refine ⟨byte, mem_loop 0 input ?_⟩
          unfold take
          dsimp only
          rw [if_neg (fun hdel => absurd hdel.2 (by decide))]
          exact List.mem_singleton_self _
      obtain ⟨c, hc⟩ := hmem
      exact Nat.not_lt_zero _ (h _ hc)

/-- A line feed alone overruns a buffer of no bytes. -/
theorem empty_overrun : ¬ Inside 0 (ttyGetsIrq (fun _ => 0) 0 [0x0A]).state := by
  intro h
  exact absurd (h (0, 0) (List.mem_singleton_self _)) (by decide)

end Loop

end TtyGets
end App
end Smc
