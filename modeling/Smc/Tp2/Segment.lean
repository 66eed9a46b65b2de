/-
# Segments and their indices

`IntTab` (`TP2/TP2_etudiant/int_tab.h`) is a short array of `int` that ends
with -1: the index of a component, one number for each level of the
interconnect. A `Segment` (`segment.h`, `segment.cpp`) is a range of addresses
with the index of the target that serves it and its cacheability.

`contains` knows a segment that ends with the address space, where the end
wraps to 0; `isOverlapping` does not, and finds no collision with one
(`collision_exact_iff`).

Key definitions: `IntTab.get`, `IntTab.sum`, `IntTab.idMatches`,
`Segment.isOverlapping`.
-/
import Mathlib.Data.BitVec
import Smc.Tp2.VciSignals

namespace Smc
namespace Tp2

/-- `IntTab`: the values before the -1. There is room for ten with it. -/
structure IntTab where
  mValues : List (BitVec 32)
  length_le : mValues.length ≤ 9
  ne_end : ∀ v ∈ mValues, v ≠ -1
deriving DecidableEq

namespace IntTab

variable (t other : IntTab)

def level : ℕ := t.mValues.length

/-- `operator[]`, which throws `Level out of bounds`. -/
def get (level : ℕ) : Option (BitVec 32) := if level > t.level then none else some (t.mValues.getD level (-1))

/-- `sum`, of the first `level` values; its default is all of them. -/
def sum (level : ℕ) : BitVec 32 := (t.mValues.take level).sum

/-- `idMatches`: the values are the same as far as both have some. -/
def idMatches : Bool := (t.mValues.zip other.mValues).all fun v => v.1 = v.2

/-- The first `n` values. -/
def take (n : ℕ) : IntTab where
  mValues := t.mValues.take n
  length_le := by
    have := t.length_le
    rw [List.length_take]
    omega
  ne_end v hv := t.ne_end v (List.mem_of_mem_take hv)

variable {t other}

theorem getD_of_lt {n : ℕ} (h : n < t.level) : t.mValues.getD n (-1) = t.mValues.get ⟨n, h⟩ := by
  simp [List.getD, show n < t.mValues.length from h]

theorem get_of_lt {n : ℕ} (h : n < t.level) : t.get n = some (t.mValues.get ⟨n, h⟩) := by
  have hn : ¬ n > t.level := by omega
  rw [get, if_neg hn, getD_of_lt h]

theorem idMatches_iff : t.idMatches other = true ↔ ∀ n < t.level, n < other.level → t.get n = other.get n := by
  simp only [idMatches, List.all_eq_true, decide_eq_true_eq]
  constructor
  · intro h n hn hn'
    rw [get_of_lt hn, get_of_lt hn']
    have hlen : n < (t.mValues.zip other.mValues).length := by
      rw [List.length_zip]
      exact lt_min hn hn'
    have hmem := h _ (List.get_mem (t.mValues.zip other.mValues) ⟨n, hlen⟩)
    simpa using hmem
  · intro h v hv
    obtain ⟨n, hn, rfl⟩ := List.getElem_of_mem hv
    rw [List.length_zip, lt_min_iff] at hn
    have hget := h n hn.1 hn.2
    rw [get_of_lt hn.1, get_of_lt hn.2] at hget
    simpa using hget

theorem level_take {n : ℕ} (h : n ≤ t.level) : (t.take n).level = n := by
  simpa [level, take] using h

theorem get_take {n m : ℕ} (hm : m < n) (h : n ≤ t.level) : (t.take n).get m = t.get m := by
  rw [get_of_lt (t := t.take n) (by rwa [level_take h]), get_of_lt (t := t) (by omega)]
  simp [take]

/-- The bits of some levels, as a natural number. -/
def bits (t : IntTab) (n : ℕ) : ℕ := ((t.mValues.take n).map BitVec.toNat).sum

theorem bits_succ {n : ℕ} (h : n < t.level) : t.bits (n + 1) = t.bits n + (t.mValues.get ⟨n, h⟩).toNat := by
  rw [bits, bits, List.take_succ_eq_append_getElem h, List.map_append, List.sum_append, List.map_singleton,
    List.sum_singleton]
  rfl

theorem bits_mono {n m : ℕ} (h : n ≤ m) : t.bits n ≤ t.bits m := by
  rw [bits, bits]
  apply List.Sublist.sum_le_sum
  · exact (List.take_sublist_take_left h).map _
  · exact fun _ _ => Nat.zero_le _

theorem list_sum_toNat (l : List (BitVec 32)) : l.sum.toNat = (l.map BitVec.toNat).sum % 2 ^ 32 := by
  induction l with
  | nil => rfl
  | cons v l ih => rw [List.sum_cons, List.map_cons, List.sum_cons, BitVec.toNat_add, ih, Nat.add_mod_mod]

/-- The sum of the levels is their number of bits, if that is small. -/
theorem sum_toNat {n : ℕ} (h : t.bits n < 2 ^ 32) : (t.sum n).toNat = t.bits n := by
  rw [sum, list_sum_toNat]
  exact Nat.mod_eq_of_lt h

end IntTab

/-- `Segment`. -/
structure Segment extends Extent where
  mName : String
  mTargetIndex : IntTab
  mCacheability : Bool
deriving DecidableEq

namespace Segment

variable (s other : Segment)

/-- The address past the segment, in 32 bits. -/
def endAddress : BitVec 32 := s.mBaseAddress + s.mSize

def isOverlapping : Bool :=
  if other.endAddress ≤ s.mBaseAddress then false
  else if s.endAddress ≤ other.mBaseAddress then false
  else true

variable {s other}

/-- The segment has an address, and ends in the address space. -/
structure Proper (s : Segment) : Prop where
  nonempty : 0 < s.mSize.toNat
  inSpace : s.mBaseAddress.toNat + s.mSize.toNat < 2 ^ 32

theorem Proper.endAddress_toNat (h : s.Proper) : s.endAddress.toNat = s.mBaseAddress.toNat + s.mSize.toNat := by
  rw [endAddress, BitVec.toNat_add]
  exact Nat.mod_eq_of_lt h.inSpace

theorem Proper.contains_iff (h : s.Proper) (a : BitVec 32) : s.contains a = true ↔
    s.mBaseAddress.toNat ≤ a.toNat ∧ a.toNat < s.endAddress.toNat := by
  rw [Extent.contains_iff h.inSpace.le h.nonempty, h.endAddress_toNat]

/-- Segments overlap when they share an address. -/
theorem isOverlapping_iff (h : s.Proper) (h' : other.Proper) : s.isOverlapping other = true ↔
    ∃ a, s.contains a = true ∧ other.contains a = true := by
  have hn := h.nonempty
  have hn' := h'.nonempty
  have he := h.endAddress_toNat
  have he' := h'.endAddress_toNat
  simp only [isOverlapping, h.contains_iff, h'.contains_iff, BitVec.le_def]
  constructor
  · intro ho
    split_ifs at ho with h1 h2
    -- the later of the two bases is in both
    by_cases hle : s.mBaseAddress.toNat ≤ other.mBaseAddress.toNat
    · exact ⟨other.mBaseAddress, by omega, by omega⟩
    · exact ⟨s.mBaseAddress, by omega, by omega⟩
  · rintro ⟨a, ha, ha'⟩
    rw [if_neg (by omega), if_neg (by omega)]

/-! ### Segments that end with the address space -/

/-- The address past the segment, not reduced. -/
def limit (s : Segment) : ℕ := s.mBaseAddress.toNat + s.mSize.toNat

/-- The segment has an address, and all of them have 32 bits. -/
structure InMemory (s : Segment) : Prop where
  nonempty : 0 < s.mSize.toNat
  inSpace : s.limit ≤ 2 ^ 32

theorem InMemory.contains_iff (h : s.InMemory) (a : BitVec 32) : s.contains a = true ↔
    s.mBaseAddress.toNat ≤ a.toNat ∧ a.toNat < s.limit :=
  Extent.contains_iff h.inSpace h.nonempty a

theorem InMemory.base_lt_limit (h : s.InMemory) : s.mBaseAddress.toNat < s.limit := by
  have := h.nonempty
  unfold limit
  omega

/-- Some address is in both exactly when neither ends before the other begins. -/
theorem InMemory.common_iff (h : s.InMemory) (h' : other.InMemory) :
    (∃ a, s.contains a = true ∧ other.contains a = true) ↔
      s.mBaseAddress.toNat < other.limit ∧ other.mBaseAddress.toNat < s.limit := by
  have hs := h.base_lt_limit
  have ho := h'.base_lt_limit
  simp only [h.contains_iff, h'.contains_iff]
  constructor
  · intro hex
    obtain ⟨a, ha, ha'⟩ := hex
    omega
  · intro hc
    -- the later of the two bases is in both
    by_cases hle : s.mBaseAddress.toNat ≤ other.mBaseAddress.toNat
    · exact ⟨other.mBaseAddress, by omega, by omega⟩
    · exact ⟨s.mBaseAddress, by omega, by omega⟩

theorem InMemory.endAddress_toNat (h : s.InMemory) :
    s.endAddress.toNat = if s.limit = 2 ^ 32 then 0 else s.limit := by
  have hle := h.inSpace
  rw [endAddress, BitVec.toNat_add]
  unfold limit at hle ⊢
  split_ifs with he
  · rw [he, Nat.mod_self]
  · exact Nat.mod_eq_of_lt (by omega)

/-- No segment overlaps one that ends with the address space. -/
theorem InMemory.isOverlapping_iff_lt (h : s.InMemory) (h' : other.InMemory) : s.isOverlapping other = true ↔
    s.limit < 2 ^ 32 ∧ other.limit < 2 ^ 32 ∧
      s.mBaseAddress.toNat < other.limit ∧ other.mBaseAddress.toNat < s.limit := by
  have hle := h.inSpace
  have hle' := h'.inSpace
  simp only [isOverlapping, BitVec.le_def, h.endAddress_toNat, h'.endAddress_toNat]
  split_ifs <;> simp <;> omega

/-- **Collision detection is exact except at the top of memory.** Two
segments are found to overlap exactly when they share an address, unless one
of them ends with the address space and they do share one. -/
theorem collision_exact_iff (h : s.InMemory) (h' : other.InMemory) :
    (s.isOverlapping other = true ↔ ∃ a, s.contains a = true ∧ other.contains a = true) ↔
      (s.limit < 2 ^ 32 ∧ other.limit < 2 ^ 32) ∨
        s.limit ≤ other.mBaseAddress.toNat ∨ other.limit ≤ s.mBaseAddress.toNat := by
  rw [h.isOverlapping_iff_lt h', h.common_iff h']
  constructor
  · intro hiff
    by_contra hc
    have hcommon : s.mBaseAddress.toNat < other.limit ∧ other.mBaseAddress.toNat < s.limit := by omega
    have := hiff.mpr hcommon
    omega
  · intro hc
    constructor
    · intro ho
      exact ho.2.2
    · intro ho
      omega

/-- The last page of the address space. -/
def topSegment : Segment where
  mName := "top"
  mBaseAddress := 0xFFFFF000#32
  mSize := 0x1000#32
  mTargetIndex := ⟨[0], by simp, by simp⟩
  mCacheability := true

theorem topSegment_inMemory : topSegment.InMemory where
  nonempty := by decide
  inSpace := by decide

/-- The first page does not meet the last one, and is found not to. -/
theorem collision_exact_below :
    (({ topSegment with mBaseAddress := 0#32 } : Segment).isOverlapping topSegment = true ↔
      ∃ a, ({ topSegment with mBaseAddress := 0#32 } : Segment).contains a = true ∧
        topSegment.contains a = true) :=
  (collision_exact_iff (s := { topSegment with mBaseAddress := 0#32 })
    ⟨by decide, by decide⟩ topSegment_inMemory).mpr (Or.inr (Or.inl (by norm_num [limit, topSegment])))

/-- A segment at the top of memory does not overlap itself. -/
theorem top_missed : ¬ (topSegment.isOverlapping topSegment = true ↔
    ∃ a, topSegment.contains a = true ∧ topSegment.contains a = true) := by
  intro h
  have hmeet : topSegment.isOverlapping topSegment = true := h.mpr ⟨0xFFFFF000#32, by decide, by decide⟩
  exact absurd hmeet (by decide)

end Segment
end Tp2
end Smc
