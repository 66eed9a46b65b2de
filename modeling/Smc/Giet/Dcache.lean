/-
# Invalidating a buffer in the data cache

`_dcache_buf_invalidate` (`giet_2011/sys/common.c`) invalidates the cache lines
of a memory buffer, so that after a disk read the processor does not take old
data from its cache. It reads the size of a line from a configuration register,
and goes from the buffer's address on in steps of a line.

The addresses are not aligned to lines. If the buffer does not begin on a line
its last bytes may be in a line that no step goes to, and as the index is a
32-bit word the loop does not end for a buffer whose last step comes round. The
two are exactly when the function is wrong (`invalidates_iff`). For a disk read
of blocks of whole lines it is right only if the buffer is aligned
(`iocRead_invalidates_iff`).

Key definitions: `lineSize`, `dcacheBufInvalidate`, `Invalidates`.
Key theorems: `dcacheBufInvalidate_eq`, `dcacheBufInvalidate_eq_none`,
`invalidates_iff`.
-/
import Smc.Lib.Blocks
import Smc.Giet.Drivers

namespace Smc
namespace Giet
namespace Dcache

open Drivers (Word)
open Blocks (forBlocks blocks)

/-! ### The function -/

/-- Bits 12 to 10 of the configuration register. -/
def lineField (config : Word) : Word := (config >>> 10) &&& 7

def lineSize (config : Word) : Word := 2#32 <<< (lineField config).toNat

/-- `for (i = 0; i < size; i += line_size)`, from an index on and with a bound
on the number of passes: the addresses given to the `cache` instruction. -/
def invalidateFrom (lineSize buffer size : Word) : ℕ → Word → Option (List Word)
  | 0, _ => none
  | n + 1, i =>
    if i < size then (invalidateFrom lineSize buffer size n (i + lineSize)).map ((buffer + i) :: ·) else some []

/-- The function with a bound on its passes; `none` if it does not end within it. -/
def dcacheBufInvalidate (config buffer size : Word) (n : ℕ) : Option (List Word) :=
  invalidateFrom (lineSize config) buffer size n 0

/-- The cache line of an address. -/
def line (config : Word) (a : ℕ) : ℕ := a / (lineSize config).toNat

/-- The loop ends, and the lines it invalidates are those with a byte of the
buffer. -/
def Invalidates (config buffer size : Word) : Prop :=
  ∃ n as, dcacheBufInvalidate config buffer size n = some as ∧
    ∀ l, (∃ a ∈ as, line config a.toNat = l) ↔
      ∃ b, buffer.toNat ≤ b ∧ b < buffer.toNat + size.toNat ∧ line config b = l

/-! ### The loop -/

variable {config buffer size : Word}

theorem lineSize_toNat (config : Word) : ∃ r ≤ 8, (lineSize config).toNat = 2 ^ r := by
  have hfield : (lineField config).toNat ≤ 7 := by
    rw [lineField, BitVec.toNat_and]
    exact Nat.and_le_right
  refine ⟨(lineField config).toNat + 1, by omega, ?_⟩
  have hle : 2 ^ (lineField config).toNat ≤ 2 ^ 7 := Nat.pow_le_pow_right (by decide) hfield
  have htwo : (2#32).toNat = 2 := rfl
  calc (lineSize config).toNat = 2 * 2 ^ (lineField config).toNat % 2 ^ 32 := by
        rw [lineSize, BitVec.toNat_shiftLeft, Nat.shiftLeft_eq, htwo]
    _ = 2 * 2 ^ (lineField config).toNat := Nat.mod_eq_of_lt (by omega)
    _ = 2 ^ ((lineField config).toNat + 1) := (pow_succ' _ _).symm

theorem invalidateFrom_mono {step i : Word} {as : List Word} {n n' : ℕ} (hn : n ≤ n')
    (h : invalidateFrom step buffer size n i = some as) : invalidateFrom step buffer size n' i = some as := by
  induction n generalizing n' i as with
  | zero => cases h
  | succ n ih =>
    obtain ⟨n', rfl⟩ := Nat.exists_eq_succ_of_ne_zero (by omega : n' ≠ 0)
    unfold invalidateFrom at h ⊢
    by_cases hi : i < size
    · rw [if_pos hi] at h ⊢
      obtain ⟨rest, hrest, rfl⟩ := Option.map_eq_some_iff.mp h
      rw [ih (by omega) hrest]
      rfl
    · rw [if_neg hi] at h ⊢
      exact h

/-- The body of the loop, for `forBlocks`. -/
def visit (buffer : Word) (as : List Word) (i : Word) : Except Unit (List Word) := .ok (as ++ [buffer + i])

/-- The loop is a walk over blocks that starts at 0. -/
theorem forBlocks_visit (step : Word) (n : ℕ) (i : Word) (as : List Word) :
    forBlocks step 0 size () (visit buffer) n i as =
      match invalidateFrom step buffer size n i with
      | none => .error ()
      | some rest => .ok (as ++ rest) := by
  induction n generalizing i as with
  | zero => rfl
  | succ n ih =>
    have hzero : i ≥ (0 : Word) := Nat.zero_le _
    rw [forBlocks, invalidateFrom]
    by_cases hi : i < size
    · rw [if_pos ⟨hi, hzero⟩, if_pos hi]
      show forBlocks step 0 size () (visit buffer) n (i + step) (as ++ [buffer + i]) = _
      rw [ih]
      cases invalidateFrom step buffer size n (i + step) with
      | none => rfl
      | some rest =>
        show Except.ok (as ++ [buffer + i] ++ rest) = Except.ok (as ++ (buffer + i) :: rest)
        rw [List.append_assoc]
        rfl
    · rw [if_neg (fun h => hi h.1), if_neg hi]
      exact congrArg Except.ok (List.append_nil as).symm

theorem foldlM_visit (l as : List Word) : l.foldlM (visit buffer) as = .ok (as ++ l.map (buffer + ·)) := by
  induction l generalizing as with
  | nil => rw [List.map_nil, List.append_nil]; rfl
  | cons i l ih =>
    show l.foldlM (visit buffer) (as ++ [buffer + i]) = _
    rw [ih, List.append_assoc]
    rfl

section Runs

variable {r : ℕ}

theorem dcacheBufInvalidate_eq (hr : r ≤ 8) (hL : (lineSize config).toNat = 2 ^ r) (hends : size.toNat + 2 ^ r ≤ 2 ^ 32) :
    dcacheBufInvalidate config buffer size (2 ^ 32 + 1) = some ((blocks 32 r 0 size.toNat).map (buffer + ·)) := by
  have hwalk : forBlocks (lineSize config) 0 size () (visit buffer) (2 ^ 32 + 1) 0 [] = _ :=
    Blocks.forBlocks_eq hL (by omega) (dvd_zero _) (.inr hends) []
  rw [forBlocks_visit, foldlM_visit] at hwalk
  unfold dcacheBufInvalidate
  cases hrun : invalidateFrom (lineSize config) buffer size (2 ^ 32 + 1) 0 with
  | none =>
    rw [hrun] at hwalk
    cases hwalk
  | some as =>
    rw [hrun] at hwalk
    exact congrArg some (Except.ok.inj hwalk)

theorem dcacheBufInvalidate_eq_none (hr : r ≤ 8) (hL : (lineSize config).toNat = 2 ^ r)
    (hround : 2 ^ 32 < size.toNat + 2 ^ r) (n : ℕ) : dcacheBufInvalidate config buffer size n = none := by
  have hwalk : forBlocks (lineSize config) 0 size () (visit buffer) n 0 [] = .error () :=
    Blocks.forBlocks_eq_out hL (by omega) rfl hround (fun as i => ⟨_, rfl⟩) n 0 [] (dvd_zero _)
  rw [forBlocks_visit] at hwalk
  unfold dcacheBufInvalidate
  cases hrun : invalidateFrom (lineSize config) buffer size n 0 with
  | none => rfl
  | some as =>
    rw [hrun] at hwalk
    cases hwalk

end Runs

/-! ### The lines -/

theorem exists_div_eq_iff {a n L l : ℕ} (hL : 0 < L) (hn : 0 < n) :
    (∃ b, a ≤ b ∧ b < a + n ∧ b / L = l) ↔ a / L ≤ l ∧ l ≤ (a + (n - 1)) / L := by
  constructor
  · intro h
    obtain ⟨b, hle, hlt, rfl⟩ := h
    exact ⟨Nat.div_le_div_right hle, Nat.div_le_div_right (by omega)⟩
  · intro h
    obtain ⟨hfirst, hlast⟩ := h
    have hmul : l * L ≤ a + (n - 1) := (Nat.le_div_iff_mul_le hL).mp hlast
    rcases Nat.eq_or_lt_of_le hfirst with heq | hlt
    · exact ⟨a, le_rfl, by omega, heq⟩
    · have habove : a < l * L := (Nat.div_lt_iff_lt_mul hL).mp hlt
      exact ⟨l * L, habove.le, by omega, Nat.mul_div_cancel l hL⟩

theorem exists_blocks_line_iff {r : ℕ} {l : ℕ} (hspace : buffer.toNat + size.toNat ≤ 2 ^ 32) (hn : 0 < size.toNat) :
    (∃ a ∈ (blocks 32 r 0 size.toNat).map (buffer + ·), a.toNat / 2 ^ r = l) ↔
      buffer.toNat / 2 ^ r ≤ l ∧ l ≤ buffer.toNat / 2 ^ r + (size.toNat - 1) / 2 ^ r := by
  have hpos : 0 < 2 ^ r := Nat.two_pow_pos r
  have hsize := size.isLt
  constructor
  · intro h
    obtain ⟨a, ha, rfl⟩ := h
    obtain ⟨i, hi, rfl⟩ := List.mem_map.mp ha
    obtain ⟨⟨j, hj⟩, -, hlt⟩ := (Blocks.mem_blocks_iff (by omega) (dvd_zero _) i).mp hi
    have hjle : j ≤ (size.toNat - 1) / 2 ^ r := (Nat.le_div_iff_mul_le hpos).mpr (by rw [Nat.mul_comm]; omega)
    rw [BitVec.toNat_add, Nat.mod_eq_of_lt (by omega), hj, Nat.add_mul_div_left _ _ hpos]
    omega
  · intro h
    obtain ⟨hfirst, hlast⟩ := h
    obtain ⟨j, rfl⟩ := Nat.exists_eq_add_of_le hfirst
    have hj : j * 2 ^ r ≤ size.toNat - 1 := (Nat.le_div_iff_mul_le hpos).mp (by omega)
    rw [Nat.mul_comm] at hj
    have hi : (BitVec.ofNat 32 (2 ^ r * j)).toNat = 2 ^ r * j := by
      rw [BitVec.toNat_ofNat, Nat.mod_eq_of_lt (by omega)]
    refine ⟨buffer + BitVec.ofNat 32 (2 ^ r * j), List.mem_map_of_mem ?_, ?_⟩
    · apply (Blocks.mem_blocks_iff (by omega) (dvd_zero _) _).mpr
      rw [hi]
      exact ⟨dvd_mul_right _ _, Nat.zero_le _, by omega⟩
    · rw [BitVec.toNat_add, hi, Nat.mod_eq_of_lt (by omega), Nat.add_mul_div_left _ _ hpos]

/-- Both go from the same first line; they are the same if the last line is. -/
theorem lines_iff {a q e : ℕ} (hae : a ≤ e) : (∀ l, (a ≤ l ∧ l ≤ a + q) ↔ (a ≤ l ∧ l ≤ e)) ↔ a + q = e := by
  constructor
  · intro h
    have hlast := (h (a + q)).mp ⟨by omega, le_rfl⟩
    have hlast' := (h e).mpr ⟨hae, le_rfl⟩
    omega
  · intro h l
    rw [h]

theorem add_div_eq_iff {a n L : ℕ} (hL : 0 < L) : a / L + n / L = (a + n) / L ↔ a % L + n % L < L := by
  rw [Nat.add_div hL]
  by_cases h : L ≤ a % L + n % L
  · rw [if_pos h]
    omega
  · rw [if_neg h]
    omega

/-- If the loop ends, what counts is which lines the steps go to. -/
theorem invalidates_iff_lines {r : ℕ} (hr : r ≤ 8) (hL : (lineSize config).toNat = 2 ^ r)
    (hends : size.toNat + 2 ^ r ≤ 2 ^ 32) :
    Invalidates config buffer size ↔ ∀ l, (∃ a ∈ (blocks 32 r 0 size.toNat).map (buffer + ·), a.toNat / 2 ^ r = l) ↔
      ∃ b, buffer.toNat ≤ b ∧ b < buffer.toNat + size.toNat ∧ b / 2 ^ r = l := by
  have hrun : dcacheBufInvalidate config buffer size (2 ^ 32 + 1) = _ := dcacheBufInvalidate_eq hr hL hends
  unfold Invalidates line
  rw [hL]
  constructor
  · intro h
    obtain ⟨n, as, hn, hlines⟩ := h
    -- two bounds that are enough give the same addresses
    have hsame : some as = some ((blocks 32 r 0 size.toNat).map (buffer + ·)) := by
      rcases Nat.le_total n (2 ^ 32 + 1) with hle | hle
      · rw [← hrun]
        exact (invalidateFrom_mono hle hn).symm
      · rw [← hn]
        exact invalidateFrom_mono hle hrun
    rwa [Option.some.inj hsame] at hlines
  · intro hlines
    exact ⟨_, _, hrun, hlines⟩

theorem invalidates_iff_two_pow {r : ℕ} (hr : r ≤ 8) (hL : (lineSize config).toNat = 2 ^ r)
    (hspace : buffer.toNat + size.toNat ≤ 2 ^ 32) :
    Invalidates config buffer size ↔ size.toNat + 2 ^ r ≤ 2 ^ 32 ∧
      (size.toNat = 0 ∨ buffer.toNat % 2 ^ r + (size.toNat - 1) % 2 ^ r < 2 ^ r) := by
  have hpos : 0 < 2 ^ r := Nat.two_pow_pos r
  by_cases hends : size.toNat + 2 ^ r ≤ 2 ^ 32
  · rw [invalidates_iff_lines hr hL hends, and_iff_right hends]
    rcases Nat.eq_zero_or_pos size.toNat with hzero | hn
    · rw [hzero]
      refine iff_of_true (fun l => iff_of_false ?_ ?_) (.inl rfl)
      · intro h
        obtain ⟨a, ha, -⟩ := h
        obtain ⟨i, hi, -⟩ := List.mem_map.mp ha
        have hlt := ((Blocks.mem_blocks_iff (Nat.zero_le _) (dvd_zero _) i).mp hi).2.2
        omega
      · intro h
        obtain ⟨b, hle, hlt, -⟩ := h
        omega
    · have hmono : buffer.toNat / 2 ^ r ≤ (buffer.toNat + (size.toNat - 1)) / 2 ^ r :=
        Nat.div_le_div_right (Nat.le_add_right _ _)
      simp only [exists_blocks_line_iff hspace hn, exists_div_eq_iff hpos hn]
      rw [lines_iff hmono, add_div_eq_iff hpos, or_iff_right (by omega)]
  · refine iff_of_false (fun h => ?_) (fun h => hends h.1)
    obtain ⟨n, as, hrun, -⟩ := h
    rw [dcacheBufInvalidate_eq_none hr hL (by omega)] at hrun
    cases hrun

/-- **When the function is right.** For every buffer that does not run past the
end of the memory and every size of a line: the loop ends and invalidates
exactly the lines of the buffer, if and only if the size is not within a line of
2^32, and the offset of the buffer in its line and that of its last byte from
the last step are together less than a line. -/
theorem invalidates_iff (config buffer size : Word) (hspace : buffer.toNat + size.toNat ≤ 2 ^ 32) :
    Invalidates config buffer size ↔ size.toNat + (lineSize config).toNat ≤ 2 ^ 32 ∧
      (size.toNat = 0 ∨ buffer.toNat % (lineSize config).toNat + (size.toNat - 1) % (lineSize config).toNat <
        (lineSize config).toNat) := by
  obtain ⟨r, hr, hL⟩ := lineSize_toNat config
  rw [hL]
  exact invalidates_iff_two_pow hr hL hspace

/-- A buffer from the middle of a line of sixteen bytes to the end of the third
line after it. -/
theorem invalidates_fourLines : Invalidates 0xC00 0x1008 56 :=
  (invalidates_iff 0xC00 0x1008 56 (by decide)).mpr ⟨by decide, .inr (by decide)⟩

/-- Two bytes on both sides of a line's end: the second line is missed. Nearly
all of the memory: the loop does not end. -/
theorem line_missed : ¬ Invalidates 0xC00 0x100F 2 ∧ ¬ Invalidates 0xC00 0 0xFFFFFFFF := by
  have hL : (lineSize 0xC00).toNat = 2 ^ 4 := by decide
  rw [invalidates_iff_two_pow (by decide) hL (by decide), invalidates_iff_two_pow (by decide) hL (by decide)]
  decide

/-- The cache before a disk read of blocks of whole lines: all lines of the
buffer are invalidated exactly if it begins with one, or there is nothing to
read. -/
theorem iocRead_invalidates_iff {b : Drivers.Board} {count : Word}
    (hblock : (lineSize config).toNat ∣ b.blockSize.toNat)
    (hspace : buffer.toNat + (b.blockSize * count).toNat ≤ 0x80000000) :
    Invalidates config buffer (b.blockSize * count) ↔
      (b.blockSize * count).toNat = 0 ∨ (lineSize config).toNat ∣ buffer.toNat := by
  obtain ⟨r, hr, hL⟩ := lineSize_toNat config
  have hle : 2 ^ r ≤ 2 ^ 8 := Nat.pow_le_pow_right (by decide) hr
  have hpos : 0 < 2 ^ r := Nat.two_pow_pos r
  rw [hL] at hblock ⊢
  have hdvd : 2 ^ r ∣ (b.blockSize * count).toNat := by
    rw [BitVec.toNat_mul, Nat.dvd_mod_iff (pow_dvd_pow 2 (by omega))]
    exact dvd_mul_of_dvd_left hblock _
  rw [invalidates_iff_two_pow hr hL (by omega), and_iff_right (by omega)]
  apply or_congr_right'
  intro hn
  -- the last byte is the last of a line after the last step
  have hlast : ((b.blockSize * count).toNat - 1) % 2 ^ r = 2 ^ r - 1 := by
    obtain ⟨q, hq⟩ := hdvd
    have hq0 : q ≠ 0 := by
      rintro rfl
      exact hn hq
    obtain ⟨k, rfl⟩ := Nat.exists_eq_succ_of_ne_zero hq0
    calc ((b.blockSize * count).toNat - 1) % 2 ^ r = (2 ^ r * k + (2 ^ r - 1)) % 2 ^ r := by
          rw [hq, Nat.mul_succ, Nat.add_sub_assoc hpos]
      _ = (2 ^ r - 1) % 2 ^ r := Nat.mul_add_mod _ _ _
      _ = 2 ^ r - 1 := Nat.mod_eq_of_lt (by omega)
  rw [hlast, Nat.dvd_iff_mod_eq_zero]
  omega

end Dcache
end Giet
end Smc
