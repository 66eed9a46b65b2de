/-
# Walks over aligned blocks

A loop that visits the blocks of `2 ^ r` addresses that a range meets: it
starts at the block of the range's first address and goes on block by block,
in `w`-bit words, while it is below the end of the range and not before its
own start. The second test stops a walk that comes round.

When the first block is not the block of 0, or the block past the end does not
come round, the walk ends and is a walk over a list (`forBlocks_eq`). Every
block of the list meets the range and every address of the range is in one, so
what depends on the block only holds for a block of the list if and only if it
does for an address of the range (`exists_blocks_iff`). Otherwise every block
passes the test and the walk goes round for ever (`forBlocks_eq_out`).

Key definitions: `forBlocks`, `blocks`.
Key theorems: `forBlocks_eq`, `forBlocks_eq_out`, `mem_blocks_iff`,
`exists_blocks_iff`.
-/
import Mathlib.Tactic

namespace Smc
namespace Blocks

variable {w : ℕ} {S E : Type*}

/-- `for (a = lo; a < hi && a >= lo; a += step) body`, with a bound on the
number of passes; `out` stands for a loop that does not end. -/
def forBlocks (step lo hi : BitVec w) (out : E) (body : S → BitVec w → Except E S) :
    ℕ → BitVec w → S → Except E S
  | 0, _, _ => .error out
  | n + 1, a, s => if a < hi ∧ a ≥ lo then body s a >>= forBlocks step lo hi out body n (a + step) else .ok s

/-- What every pass keeps holds after the loop. -/
theorem foldlM_keeps {X : Type*} {P : S → Prop} {f : S → X → Except E S} (hf : ∀ s x s', P s → f s x = .ok s' → P s') :
    ∀ {xs : List X} {s s' : S}, P s → xs.foldlM f s = .ok s' → P s'
  | [], _, _, hs, h => Except.ok.inj h ▸ hs
  | x :: xs, s, s', hs, h => by
    rw [List.foldlM_cons] at h
    cases hx : f s x with
    | error e =>
      rw [hx] at h
      cases h
    | ok s1 =>
      rw [hx] at h
      exact foldlM_keeps hf (hf s x s1 hs hx) h

theorem forBlocks_keeps {P : S → Prop} {step lo hi : BitVec w} {out : E} {body : S → BitVec w → Except E S}
    (hbody : ∀ s a s', P s → body s a = .ok s' → P s') :
    ∀ {n : ℕ} {a : BitVec w} {s s' : S}, P s → forBlocks step lo hi out body n a s = .ok s' → P s'
  | 0, _, _, _, _, h => by cases h
  | n + 1, a, s, s', hs, h => by
    rw [forBlocks] at h
    split_ifs at h with ha
    · cases hx : body s a with
      | error e =>
        rw [hx] at h
        cases h
      | ok s1 =>
        rw [hx] at h
        exact forBlocks_keeps hbody (hbody s a s1 hs hx) h
    · exact Except.ok.inj h ▸ hs

/-- The number of blocks from `lo` that begin below `hi`. -/
def count (r lo hi : ℕ) : ℕ := (hi - lo + (2 ^ r - 1)) / 2 ^ r

/-- The blocks from `lo` that begin below `hi`. -/
def blocks (w r lo hi : ℕ) : List (BitVec w) := (List.range' lo (count r lo hi) (2 ^ r)).map (BitVec.ofNat w)

theorem lt_count_iff {r lo hi i : ℕ} : i < count r lo hi ↔ lo + 2 ^ r * i < hi := by
  have hpos : 0 < 2 ^ r := Nat.two_pow_pos r
  rw [count, Nat.lt_div_iff_mul_lt hpos, mul_comm]
  omega

/-- An aligned word has its whole block in the address space. -/
theorem add_two_pow_le {r a : ℕ} (hr : r ≤ w) (hdvd : 2 ^ r ∣ a) (ha : a < 2 ^ w) : a + 2 ^ r ≤ 2 ^ w := by
  obtain ⟨q, hq⟩ := hdvd
  obtain ⟨p, hp⟩ := pow_dvd_pow 2 hr
  have hlt : q < p := by
    rw [hq, hp] at ha
    exact lt_of_mul_lt_mul_left ha (Nat.zero_le _)
  calc a + 2 ^ r = 2 ^ r * (q + 1) := by rw [hq, Nat.mul_succ]
    _ ≤ 2 ^ r * p := Nat.mul_le_mul_left _ hlt
    _ = 2 ^ w := hp.symm

section Walk

variable {r : ℕ} {step lo hi : BitVec w} {out : E} {body : S → BitVec w → Except E S}

/-- The walk from the block `a`, with `n` blocks to go. -/
theorem forBlocks_from (hstep : step.toNat = 2 ^ r) (hr : r ≤ w) (hends : 0 < lo.toNat ∨ hi.toNat + 2 ^ r ≤ 2 ^ w) :
    ∀ (n fuel a : ℕ) (s : S), n < fuel → a < 2 ^ w → 2 ^ r ∣ a → lo.toNat ≤ a → (∀ i < n, a + 2 ^ r * i < hi.toNat) →
      hi.toNat ≤ a + 2 ^ r * n →
      forBlocks step lo hi out body fuel (BitVec.ofNat w a) s =
        ((List.range' a n (2 ^ r)).map (BitVec.ofNat w)).foldlM body s := by
  intro n
  induction n with
  | zero =>
    intro fuel a s hfuel ha _ _ _ hdone
    obtain ⟨fuel, rfl⟩ := Nat.exists_eq_succ_of_ne_zero (by omega : fuel ≠ 0)
    rw [forBlocks, if_neg]
    · rfl
    · rw [BitVec.lt_def, BitVec.toNat_ofNat, Nat.mod_eq_of_lt ha]
      omega
  | succ n ih =>
    intro fuel a s hfuel ha hdvd hle hbelow hdone
    obtain ⟨fuel, rfl⟩ := Nat.exists_eq_succ_of_ne_zero (by omega : fuel ≠ 0)
    have hhi := hi.isLt
    have hfirst : a < hi.toNat := by simpa using hbelow 0 (by omega)
    have hcond : BitVec.ofNat w a < hi ∧ BitVec.ofNat w a ≥ lo := by
      rw [ge_iff_le, BitVec.lt_def, BitVec.le_def, BitVec.toNat_ofNat, Nat.mod_eq_of_lt ha]
      exact ⟨hfirst, hle⟩
    have hnext : BitVec.ofNat w a + step = BitVec.ofNat w (a + 2 ^ r) := by
      rw [← hstep, BitVec.ofNat_add, BitVec.ofNat_toNat, BitVec.setWidth_eq]
    rw [forBlocks, if_pos hcond, List.range'_succ, List.map_cons, List.foldlM_cons, hnext]
    congr 1
    funext s'
    by_cases hwrap : a + 2 ^ r < 2 ^ w
    · apply ih fuel (a + 2 ^ r) s' (by omega) hwrap (hdvd.add (dvd_refl _)) (by omega)
      · intro i hi'
        have := hbelow (i + 1) (by omega)
        rw [Nat.mul_succ] at this
        omega
      · rw [Nat.mul_succ] at hdone
        omega
    · -- the walk has come to the end of the address space: the next word is 0
      have hend : a + 2 ^ r = 2 ^ w := by
        have hle' := add_two_pow_le hr hdvd ha
        omega
      have hn : n = 0 := by
        by_contra hn
        have := hbelow 1 (by omega)
        omega
      have hlo : 0 < lo.toNat := by omega
      subst hn
      obtain ⟨fuel, rfl⟩ := Nat.exists_eq_succ_of_ne_zero (by omega : fuel ≠ 0)
      rw [forBlocks, if_neg]
      · rfl
      · rw [hend, ge_iff_le, BitVec.le_def, BitVec.toNat_ofNat, Nat.mod_self]
        omega

/-- A walk that ends is a walk over its blocks. -/
theorem forBlocks_eq (hstep : step.toNat = 2 ^ r) (hr : r ≤ w) (hdvd : 2 ^ r ∣ lo.toNat)
    (hends : 0 < lo.toNat ∨ hi.toNat + 2 ^ r ≤ 2 ^ w) (s : S) :
    forBlocks step lo hi out body (2 ^ w + 1) lo s = (blocks w r lo.toNat hi.toNat).foldlM body s := by
  have hhi := hi.isLt
  have hpos : 0 < 2 ^ r := Nat.two_pow_pos r
  have hcount : count r lo.toNat hi.toNat < 2 ^ w + 1 := by
    have hle : count r lo.toNat hi.toNat ≤ hi.toNat := by
      by_contra hlt
      have := lt_count_iff.mp (not_le.mp hlt)
      have : hi.toNat ≤ 2 ^ r * hi.toNat := Nat.le_mul_of_pos_left _ hpos
      omega
    omega
  have hlo : lo = BitVec.ofNat w lo.toNat := by rw [BitVec.ofNat_toNat, BitVec.setWidth_eq]
  have hwalk : forBlocks step lo hi out body (2 ^ w + 1) (BitVec.ofNat w lo.toNat) s =
      (blocks w r lo.toNat hi.toNat).foldlM body s := by
    apply forBlocks_from hstep hr hends _ _ _ _ hcount lo.isLt hdvd le_rfl
    · exact fun i hi' => lt_count_iff.mp hi'
    · exact not_lt.mp fun hlt => absurd (lt_count_iff.mpr hlt) (lt_irrefl _)
  rwa [← hlo] at hwalk

/-- A walk from the block of 0 to an end in the last block does not end. -/
theorem forBlocks_eq_out (hstep : step.toNat = 2 ^ r) (hr : r ≤ w) (hlo : lo.toNat = 0) (hhi : 2 ^ w < hi.toNat + 2 ^ r)
    (hbody : ∀ s a, ∃ s', body s a = .ok s') : ∀ (fuel : ℕ) (a : BitVec w) (s : S), 2 ^ r ∣ a.toNat →
      forBlocks step lo hi out body fuel a s = .error out := by
  have hdvd : 2 ^ r ∣ 2 ^ w := pow_dvd_pow 2 hr
  intro fuel
  induction fuel with
  | zero =>
    intro a s _
    rfl
  | succ fuel ih =>
    intro a s ha
    have hlast : a.toNat + 2 ^ r ≤ 2 ^ w := add_two_pow_le hr ha a.isLt
    have hcond : a < hi ∧ a ≥ lo := by
      rw [ge_iff_le, BitVec.lt_def, BitVec.le_def]
      omega
    obtain ⟨s', hs'⟩ := hbody s a
    rw [forBlocks, if_pos hcond, hs']
    apply ih
    rw [BitVec.toNat_add, hstep]
    exact (Nat.dvd_mod_iff hdvd).mpr (dvd_add ha (dvd_refl _))

end Walk

theorem nodup_blocks {r lo hi : ℕ} (hhi : hi ≤ 2 ^ w) : (blocks w r lo hi).Nodup := by
  apply List.Nodup.map_on _ (List.nodup_range' (2 ^ r) (Nat.two_pow_pos r))
  intro x hx y hy hxy
  obtain ⟨i, hi', rfl⟩ := List.mem_range'.mp hx
  obtain ⟨j, hj', rfl⟩ := List.mem_range'.mp hy
  have hltx := lt_count_iff.mp hi'
  have hlty := lt_count_iff.mp hj'
  have he := congrArg BitVec.toNat hxy
  rwa [BitVec.toNat_ofNat, BitVec.toNat_ofNat, Nat.mod_eq_of_lt (by omega), Nat.mod_eq_of_lt (by omega)] at he

/-- The blocks from `lo` to `hi` are the words there that are aligned. -/
theorem mem_blocks_iff {r lo hi : ℕ} (hhi : hi ≤ 2 ^ w) (hdvd : 2 ^ r ∣ lo) (b : BitVec w) :
    b ∈ blocks w r lo hi ↔ 2 ^ r ∣ b.toNat ∧ lo ≤ b.toNat ∧ b.toNat < hi := by
  simp only [blocks, List.mem_map, List.mem_range']
  constructor
  · intro h
    obtain ⟨x, ⟨i, hi', rfl⟩, rfl⟩ := h
    have hlt := lt_count_iff.mp hi'
    rw [BitVec.toNat_ofNat, Nat.mod_eq_of_lt (by omega)]
    exact ⟨dvd_add hdvd (dvd_mul_right _ _), by omega, hlt⟩
  · intro h
    obtain ⟨hb, hle, hlt⟩ := h
    obtain ⟨i, hi'⟩ := (Nat.dvd_sub hb hdvd : 2 ^ r ∣ b.toNat - lo)
    have hsum : lo + 2 ^ r * i = b.toNat := by omega
    refine ⟨_, ⟨i, lt_count_iff.mpr (by omega), rfl⟩, ?_⟩
    rw [hsum, BitVec.ofNat_toNat, BitVec.setWidth_eq]

/-- Something about blocks holds for one that the walk from the block of `base`
visits, if and only if it does for the block of an address of the range. -/
theorem exists_blocks_iff {r base hi : ℕ} (hhi : hi ≤ 2 ^ w) (hne : base < hi) (P : ℕ → Prop) :
    (∃ b ∈ blocks w r (base / 2 ^ r * 2 ^ r) hi, P (b.toNat / 2 ^ r)) ↔ ∃ a, base ≤ a ∧ a < hi ∧ P (a / 2 ^ r) := by
  have hpos : 0 < 2 ^ r := Nat.two_pow_pos r
  have hbase : base / 2 ^ r * 2 ^ r ≤ base := Nat.div_mul_le_self base (2 ^ r)
  constructor
  · rintro ⟨b, hb, hP⟩
    simp only [blocks, List.mem_map, List.mem_range'] at hb
    obtain ⟨x, ⟨i, hi', rfl⟩, rfl⟩ := hb
    have hlt := lt_count_iff.mp hi'
    rw [BitVec.toNat_ofNat, Nat.mod_eq_of_lt (by omega)] at hP
    have hdiv : (base / 2 ^ r * 2 ^ r + 2 ^ r * i) / 2 ^ r = base / 2 ^ r + i := by
      rw [← mul_comm i, ← add_mul, Nat.mul_div_cancel _ hpos]
    rw [hdiv] at hP
    cases i with
    | zero => exact ⟨base, le_rfl, hne, by simpa using hP⟩
    | succ i =>
      refine ⟨base / 2 ^ r * 2 ^ r + 2 ^ r * (i + 1), ?_, hlt, by rwa [hdiv]⟩
      have := Nat.lt_div_mul_add hpos (a := base)
      rw [Nat.mul_succ]
      omega
  · rintro ⟨a, hle, hlt, hP⟩
    have hmono : base / 2 ^ r ≤ a / 2 ^ r := Nat.div_le_div_right hle
    have ha : a / 2 ^ r * 2 ^ r ≤ a := Nat.div_mul_le_self a (2 ^ r)
    have hblock : base / 2 ^ r * 2 ^ r + 2 ^ r * (a / 2 ^ r - base / 2 ^ r) = a / 2 ^ r * 2 ^ r := by
      rw [← mul_comm (a / 2 ^ r - base / 2 ^ r), ← add_mul]
      congr 1
      omega
    refine ⟨BitVec.ofNat w (a / 2 ^ r * 2 ^ r), ?_, ?_⟩
    · simp only [blocks, List.mem_map, List.mem_range']
      refine ⟨_, ⟨a / 2 ^ r - base / 2 ^ r, lt_count_iff.mpr (by omega), rfl⟩, by rw [hblock]⟩
    · rw [BitVec.toNat_ofNat, Nat.mod_eq_of_lt (by omega), Nat.mul_div_cancel _ hpos]
      exact hP

end Blocks
end Smc
