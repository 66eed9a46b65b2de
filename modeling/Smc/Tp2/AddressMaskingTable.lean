/-
# The masking tables of TP2, and tables made from a mask

`AddressMaskingTable` takes a field of a word: `m_drop_bits` low bits are
dropped and the next `m_use_bits` kept
(`TP2/TP2_etudiant/address_masking_table.h`). Like `AddressDecodingTable` it
is made for given numbers of bits, or from a mask.

The two constructors from a mask count its zeros and its ones with the same
two loops, make the table and assert that it has the mask. The first loop has
no end for the mask 0. `1 << use_bits` is an `int`, undefined for the mask of
32 ones, and an array of so many entries cannot be made if it has 2^31 bytes or
more. For every other mask both constructors do what they should.

Key definitions: `AddressMaskingTable.ofMask`, `Contiguous`, `Parses`.
Key theorem: `parses_iff`.
-/
import Mathlib.Data.Nat.Bitwise
import Smc.Tp2.AddressDecodingTable

namespace Smc
namespace Tp2

open AddressDecodingTable (TableError Entry Allocates fields IsMask field)

/-- `AddressMaskingTable<uint32_t>`. -/
structure AddressMaskingTable where
  mUseBits : ℕ
  mDropBits : ℕ
  mLowMask : BitVec 32
deriving DecidableEq, Repr

namespace AddressMaskingTable

/-- `init`: `1 << use_bits` is an `int` and wraps for 31 bits. -/
def init (useBits dropBits : BitVec 32) : Except TableError AddressMaskingTable :=
  if useBits.toNat < 32 then .ok ⟨useBits.toNat, dropBits.toNat, (1 : BitVec 32) <<< useBits.toNat - 1⟩
  else .error .undefined

variable (t : AddressMaskingTable)

def mask : BitVec 32 := t.mLowMask <<< t.mDropBits

def getDrop : ℕ := t.mDropBits

/-- `operator[]`. -/
def get (addr : BitVec 32) : BitVec 32 := (addr >>> t.mDropBits) &&& t.mLowMask

/-- `AddressMaskingTable(mask)`. -/
def ofMask (mask : BitVec 32) : Except TableError AddressMaskingTable :=
  match fields mask with
  | .error e => .error e
  | .ok (useBits, dropBits) =>
    match init (BitVec.ofNat 32 useBits) (BitVec.ofNat 32 dropBits) with
    | .error e => .error e
    | .ok t => if t.mask = mask then .ok t else .error .assertion

/-- The low mask has its ones in the bits in use. -/
theorem lowMask_toNat {u : ℕ} (hu : u < 32) : ((1 : BitVec 32) <<< u - 1).toNat = 2 ^ u - 1 := by
  have hlt : 2 ^ u < 2 ^ 32 := Nat.pow_lt_pow_right (by decide) hu
  have hpos : 0 < 2 ^ u := Nat.two_pow_pos u
  have hshift : ((1 : BitVec 32) <<< u).toNat = 2 ^ u := by
    rw [BitVec.toNat_shiftLeft, Nat.shiftLeft_eq]
    show 1 * 2 ^ u % 2 ^ 32 = _
    omega
  rw [BitVec.toNat_sub, hshift]
  show (2 ^ 32 - 1 + 2 ^ u) % 2 ^ 32 = _
  omega

/-- A table for less than 32 bits takes the field of an address. -/
theorem init_eq (use drop : BitVec 32) (hu : use.toNat < 32) :
    ∃ t, init use drop = .ok t ∧ t.mUseBits = use.toNat ∧ t.mDropBits = drop.toNat ∧
      t.mLowMask = BitVec.ofNat 32 (2 ^ use.toNat - 1) ∧
      ∀ a, (t.get a).toNat = field use.toNat drop.toNat a := by
  rw [init, if_pos hu]
  have hlow := lowMask_toNat hu
  refine ⟨_, rfl, rfl, rfl, ?_, fun a => ?_⟩
  · apply BitVec.eq_of_toNat_eq
    have hlt : 2 ^ use.toNat < 2 ^ 32 := Nat.pow_lt_pow_right (by decide) hu
    rw [hlow, BitVec.toNat_ofNat, Nat.mod_eq_of_lt (by omega)]
  · rw [get, BitVec.toNat_and, hlow, Nat.and_two_pow_sub_one_eq_mod, BitVec.toNat_ushiftRight,
      Nat.shiftRight_eq_div_pow]
    rfl

end AddressMaskingTable

/-! ### What a mask should give -/

/-- The set bits of the mask: there are some, and none is missing between
two. -/
structure Contiguous (mask : BitVec 32) : Prop where
  nonzero : mask ≠ 0
  between : ∀ i j k, i ≤ j → j ≤ k → mask.getLsbD i = true → mask.getLsbD k = true → mask.getLsbD j = true

/-- A constructor from a mask ends; it passes its assertion exactly for the
contiguous masks; and then the table has the mask, and the slot of an address
is its masked bits, shifted down. -/
structure Parses {τ : Type} (mask : BitVec 32) (make : Except TableError τ) (maskOf : τ → BitVec 32)
    (slot : τ → BitVec 32 → ℕ) : Prop where
  ends : make ≠ .error .diverges
  passes_iff : (∃ t, make = .ok t) ↔ Contiguous mask
  mask_eq : ∀ t, make = .ok t → maskOf t = mask
  slot_eq : ∀ t, make = .ok t → ∀ a, slot t a = ((a &&& mask) >>> mask.ctz.toNat).toNat

section Masks

variable {mask : BitVec 32} {useBits dropBits : ℕ}

theorem getLsbD_eq_testBit (x : BitVec 32) (i : ℕ) : x.getLsbD i = x.toNat.testBit i := (BitVec.testBit_toNat x).symm

theorem AddressDecodingTable.IsMask.getLsbD_iff (h : IsMask mask useBits dropBits) (i : ℕ) :
    mask.getLsbD i = true ↔ dropBits ≤ i ∧ i < dropBits + useBits := by
  rw [getLsbD_eq_testBit, h.testBit]
  simp only [Bool.and_eq_true, decide_eq_true_eq]
  omega

theorem AddressDecodingTable.IsMask.ne_zero (h : IsMask mask useBits dropBits) : mask ≠ 0 := by
  intro h0
  have hpos := h.pos
  have hbit := (h.getLsbD_iff dropBits).mpr ⟨le_rfl, by omega⟩
  rw [h0] at hbit
  simp at hbit

/-- The zeros below the ones. -/
theorem AddressDecodingTable.IsMask.ctz_eq (h : IsMask mask useBits dropBits) : mask.ctz.toNat = dropBits := by
  have hpos := h.pos
  apply le_antisymm
  · by_contra hlt
    have hlow := BitVec.getLsbD_false_of_lt_ctz (not_le.mp hlt)
    rw [(h.getLsbD_iff dropBits).mpr ⟨le_rfl, by omega⟩] at hlow
    cases hlow
  · exact ((h.getLsbD_iff _).mp (BitVec.getLsbD_true_ctz_of_ne_zero h.ne_zero)).1

/-- A mask of contiguous ones is a block of ones above zeros. -/
theorem contiguous_iff : Contiguous mask ↔ ∃ u d, IsMask mask u d := by
  constructor
  · intro h
    have hne : mask.toNat ≠ 0 := fun h0 => h.nonzero (BitVec.eq_of_toNat_eq h0)
    -- from the lowest one to the highest
    have hlow := BitVec.getLsbD_true_ctz_of_ne_zero h.nonzero
    obtain ⟨top, htop, habove⟩ := Nat.exists_most_significant_bit hne
    have htop' : mask.getLsbD top = true := by rw [getLsbD_eq_testBit, htop]
    have hle : mask.ctz.toNat ≤ top := by
      by_contra hlt
      rw [BitVec.getLsbD_false_of_lt_ctz (not_le.mp hlt)] at htop'
      cases htop'
    have hwidth : top < 32 := by
      by_contra hge
      rw [BitVec.getLsbD_of_ge _ _ (not_lt.mp hge)] at htop'
      cases htop'
    refine ⟨top - mask.ctz.toNat + 1, mask.ctz.toNat, by omega, by omega, ?_⟩
    apply Nat.eq_of_testBit_eq
    intro i
    rw [← Nat.shiftLeft_eq, Nat.testBit_shiftLeft, Nat.testBit_two_pow_sub_one]
    by_cases hi : mask.ctz.toNat ≤ i
    · by_cases hi' : i ≤ top
      · rw [← getLsbD_eq_testBit, h.between _ i _ hi hi' hlow htop']
        simp [hi]
        omega
      · rw [habove i (by omega)]
        simp [hi]
        omega
    · rw [← getLsbD_eq_testBit, BitVec.getLsbD_false_of_lt_ctz (not_le.mp hi)]
      simp [hi]
  · intro h
    obtain ⟨u, d, h⟩ := h
    refine ⟨h.ne_zero, fun i j k hij hjk hi hk => ?_⟩
    rw [h.getLsbD_iff] at hi hk ⊢
    omega

/-- The masked bits of an address, shifted down, are its field. -/
theorem AddressDecodingTable.IsMask.field_eq (h : IsMask mask useBits dropBits) (a : BitVec 32) :
    ((a &&& mask) >>> mask.ctz.toNat).toNat = field useBits dropBits a := by
  apply Nat.eq_of_testBit_eq
  intro j
  rw [h.ctz_eq, BitVec.toNat_ushiftRight, Nat.testBit_shiftRight, BitVec.toNat_and, Nat.testBit_and, h.testBit,
    AddressDecodingTable.field_testBit, Bool.and_comm]
  congr 1
  simp

/-! ### The loops -/

/-- The first loop does not end for the mask 0. -/
theorem skipZeros_zero : ∀ n drop, AddressDecodingTable.skipZeros n drop 0 = none
  | 0, _ => rfl
  | n + 1, drop => by
    rw [AddressDecodingTable.skipZeros, if_pos rfl]
    exact skipZeros_zero n (drop + 1)

/-- The second loop counts no more ones than there are bits. -/
theorem countOnes_le (drop : ℕ) : ∀ (k n use m : ℕ), m < 2 ^ k → AddressDecodingTable.countOnes drop n use m ≤ use + k
  | _, 0, use, _, _ => Nat.le_add_right use _
  | 0, n + 1, use, m, hm => by
    have h0 : m = 0 := by omega
    rw [h0, AddressDecodingTable.countOnes, if_neg (by omega)]
    exact Nat.le_refl use
  | k + 1, n + 1, use, m, hm => by
    rw [AddressDecodingTable.countOnes]
    split_ifs
    · have hhalf : m / 2 < 2 ^ k := by
        rw [pow_succ] at hm
        omega
      have := countOnes_le drop k n (use + 1) (m / 2) hhalf
      omega
    · omega

/-- It counts on from what it has. -/
theorem le_countOnes (drop : ℕ) : ∀ (n use m : ℕ), use ≤ AddressDecodingTable.countOnes drop n use m
  | 0, use, _ => Nat.le_refl use
  | n + 1, use, m => by
    rw [AddressDecodingTable.countOnes]
    split_ifs
    · have := le_countOnes drop n (use + 1) (m / 2)
      omega
    · exact Nat.le_refl use

/-- What it counts are ones. -/
theorem countOnes_ones (drop : ℕ) : ∀ n use m, m % 2 ^ (AddressDecodingTable.countOnes drop n use m - use) =
    2 ^ (AddressDecodingTable.countOnes drop n use m - use) - 1
  | 0, use, m => by
    rw [AddressDecodingTable.countOnes, Nat.sub_self, pow_zero, Nat.mod_one]
    rfl
  | n + 1, use, m => by
    rw [AddressDecodingTable.countOnes]
    split_ifs with hone
    · have ih := countOnes_ones drop n (use + 1) (m / 2)
      have hle := le_countOnes drop n (use + 1) (m / 2)
      generalize AddressDecodingTable.countOnes drop n (use + 1) (m / 2) = c at ih hle ⊢
      obtain ⟨k, rfl⟩ : ∃ k, c = use + 1 + k := ⟨c - (use + 1), by omega⟩
      have hk : use + 1 + k - use = k + 1 := by omega
      rw [Nat.add_sub_cancel_left] at ih
      rw [hk, pow_succ', Nat.mod_mul, ih, hone.1]
      have := Nat.two_pow_pos k
      omega
    · rw [Nat.sub_self, pow_zero, Nat.mod_one]
      rfl

/-- Every mask but 0 has `u` ones above `d` zeros, and maybe more. -/
theorem fields_spec (h : mask ≠ 0) : ∃ u d x, fields mask = .ok (u, d) ∧ 0 < u ∧ u + d ≤ 32 ∧
    mask.toNat = 2 ^ d * x ∧ x % 2 ^ u = 2 ^ u - 1 := by
  have hne : mask.toNat ≠ 0 := fun h0 => h (BitVec.eq_of_toNat_eq h0)
  obtain ⟨d, x, hodd, hx⟩ := Nat.exists_eq_two_pow_mul_odd hne
  have hx2 : x % 2 = 1 := Nat.odd_iff.mp hodd
  have hlt := mask.isLt
  have hd : d < 32 := by
    by_contra hge
    have hpow : 2 ^ 32 ≤ 2 ^ d := Nat.pow_le_pow_right (by decide) (not_lt.mp hge)
    have hle : 2 ^ d ≤ 2 ^ d * x := Nat.le_mul_of_pos_right _ (by omega)
    omega
  have hsmall : x < 2 ^ (32 - d) := by
    have hsplit : 2 ^ d * 2 ^ (32 - d) = 2 ^ 32 := by rw [← pow_add, Nat.add_sub_cancel' hd.le]
    rw [hx, ← hsplit] at hlt
    exact lt_of_mul_lt_mul_left hlt (Nat.zero_le _)
  refine ⟨AddressDecodingTable.countOnes d 34 0 x, d, x, ?_, ?_, ?_, hx, countOnes_ones d 34 0 x⟩
  · rw [fields, hx, mul_comm, AddressDecodingTable.skipZeros_eq hx2 d 33 0 (by omega)]
    dsimp only
    rw [zero_add]
  · rw [AddressDecodingTable.countOnes, if_pos ⟨hx2, by omega⟩]
    exact le_countOnes d 33 1 (x / 2)
  · have := countOnes_le d (32 - d) 34 0 x hsmall
    omega

theorem fields_zero : fields 0 = .error .diverges := by
  have hzero : (0 : BitVec 32).toNat = 0 := rfl
  rw [fields, hzero, skipZeros_zero]

/-- The assertion holds for a mask of these ones only. -/
theorem isMask_of_shift {u d : ℕ} (hu : 0 < u) (hw : u + d ≤ 32)
    (h : BitVec.ofNat 32 (2 ^ u - 1) <<< d = mask) : IsMask mask u d := by
  refine ⟨hu, hw, ?_⟩
  have hpow : 2 ^ u ≤ 2 ^ 32 := Nat.pow_le_pow_right (by decide) (by omega)
  have hpos : 0 < 2 ^ u := Nat.two_pow_pos u
  have hfit : (2 ^ u - 1) * 2 ^ d < 2 ^ 32 := by
    calc (2 ^ u - 1) * 2 ^ d < 2 ^ u * 2 ^ d := Nat.mul_lt_mul_of_pos_right (by omega) (Nat.two_pow_pos d)
      _ = 2 ^ (u + d) := (pow_add 2 u d).symm
      _ ≤ 2 ^ 32 := Nat.pow_le_pow_right (by decide) hw
  rw [← h, BitVec.toNat_shiftLeft, BitVec.toNat_ofNat, Nat.mod_eq_of_lt (a := 2 ^ u - 1) (by omega), Nat.shiftLeft_eq]
  exact Nat.mod_eq_of_lt hfit

/-! ### The constructors -/

/-- The masks with 31 ones or more in a row. -/
theorem wide_cases {u d x : ℕ} (hw : u + d ≤ 32) (hmask : mask.toNat = 2 ^ d * x) (hx : x % 2 ^ u = 2 ^ u - 1)
    (hu : 31 ≤ u) : (u = 31 ∧ (mask = 0x7FFFFFFF ∨ mask = 0xFFFFFFFE)) ∨ mask = 0xFFFFFFFF := by
  have hlt := mask.isLt
  simp only [BitVec.toNat_eq]
  obtain ⟨rfl, rfl⟩ | ⟨rfl, rfl⟩ | ⟨rfl, rfl⟩ : (u = 31 ∧ d = 0) ∨ (u = 31 ∧ d = 1) ∨ (u = 32 ∧ d = 0) := by omega
  · show (31 = 31 ∧ (mask.toNat = 2147483647 ∨ mask.toNat = 4294967294)) ∨ mask.toNat = 4294967295
    omega
  · show (31 = 31 ∧ (mask.toNat = 2147483647 ∨ mask.toNat = 4294967294)) ∨ mask.toNat = 4294967295
    omega
  · show (32 = 31 ∧ (mask.toNat = 2147483647 ∨ mask.toNat = 4294967294)) ∨ mask.toNat = 4294967295
    omega

/-- The assertion at the end of both constructors. -/
theorem parses_assert {τ : Type} (maskOf : τ → BitVec 32) (slot : τ → BitVec 32 → ℕ) {t : τ} {u d : ℕ} (hu : 0 < u)
    (hw : u + d ≤ 32) (hfields : fields mask = .ok (u, d)) (hmask : maskOf t = BitVec.ofNat 32 (2 ^ u - 1) <<< d)
    (hslot : ∀ a, slot t a = field u d a) :
    Parses mask (if maskOf t = mask then .ok t else .error .assertion) maskOf slot := by
  have hpass : maskOf t = mask ↔ IsMask mask u d := by
    rw [hmask]
    exact ⟨isMask_of_shift hu hw, AddressDecodingTable.shift_lowMask_eq⟩
  have hof : ∀ t', (if maskOf t = mask then .ok t else .error .assertion : Except TableError τ) = .ok t' →
      maskOf t = mask ∧ t = t' := by
    intro t' ht'
    split_ifs at ht' with hm
    exact ⟨hm, Except.ok.inj ht'⟩
  refine ⟨?_, ?_, fun t' ht' => ?_, fun t' ht' a => ?_⟩
  · split_ifs <;> nofun
  · rw [contiguous_iff]
    constructor
    · intro h
      obtain ⟨t', ht'⟩ := h
      exact ⟨u, d, hpass.mp (hof t' ht').1⟩
    · intro h
      obtain ⟨u', d', hm⟩ := h
      obtain ⟨rfl, rfl⟩ : u' = u ∧ d' = d := by
        have := (AddressDecodingTable.fields_eq hm).symm.trans hfields
        simpa using this
      exact ⟨t, if_pos (hpass.mpr hm)⟩
  · obtain ⟨hm, rfl⟩ := hof t' ht'
    exact hm
  · obtain ⟨hm, rfl⟩ := hof t' ht'
    rw [hslot, (hpass.mp hm).field_eq]

/-- A constructor that throws for a mask that is not contiguous. -/
theorem parses_error {τ : Type} {make : Except TableError τ} {maskOf : τ → BitVec 32} {slot : τ → BitVec 32 → ℕ}
    {e : TableError} (he : make = .error e) (hne : e ≠ .diverges) (hnot : ¬ Contiguous mask) :
    Parses mask make maskOf slot := by
  have hno : ∀ t, make ≠ .ok t := by
    intro t ht
    rw [ht] at he
    cases he
  refine ⟨fun h => ?_, ?_, fun t ht => absurd ht (hno t), fun t ht => absurd ht (hno t)⟩
  · rw [he] at h
    exact hne (Except.error.inj h)
  · exact iff_of_false (fun ⟨t, ht⟩ => hno t ht) hnot

/-- A constructor that does not give a table for a contiguous mask. -/
theorem not_parses {τ : Type} {make : Except TableError τ} {maskOf : τ → BitVec 32} {slot : τ → BitVec 32 → ℕ}
    {u d : ℕ} {e : TableError} (hm : IsMask mask u d) (he : make = .error e) : ¬ Parses mask make maskOf slot := by
  intro h
  obtain ⟨t, ht⟩ := h.passes_iff.mpr (contiguous_iff.mpr ⟨u, d, hm⟩)
  rw [he] at ht
  cases ht

theorem ofNat_toNat_of_le {n : ℕ} (h : n ≤ 32) : (BitVec.ofNat 32 n).toNat = n := by
  rw [BitVec.toNat_ofNat]
  omega

/-- `AddressMaskingTable(mask)`. -/
theorem masking_parses_iff (mask : BitVec 32) :
    Parses mask (AddressMaskingTable.ofMask mask) AddressMaskingTable.mask (fun t a => (t.get a).toNat) ↔
      mask ≠ 0 ∧ mask ≠ 0xFFFFFFFF := by
  constructor
  · intro h
    refine ⟨?_, ?_⟩
    · rintro rfl
      apply h.ends
      rw [AddressMaskingTable.ofMask, fields_zero]
    · rintro rfl
      have hm : IsMask 0xFFFFFFFF 32 0 := ⟨by decide, by decide, by decide⟩
      refine not_parses (e := .undefined) hm ?_ h
      rw [AddressMaskingTable.ofMask, AddressDecodingTable.fields_eq hm]
      rfl
  · intro h
    obtain ⟨u, d, x, hfields, hu, hw, hmask, hx⟩ := fields_spec h.1
    have hlt : u < 32 := by
      by_contra hge
      have := wide_cases hw hmask hx (by omega)
      rcases this with ⟨h31, -⟩ | hfull
      · omega
      · exact h.2 hfull
    have huse := ofNat_toNat_of_le hlt.le
    have hdrop := ofNat_toNat_of_le (show d ≤ 32 by omega)
    obtain ⟨t, ht, -, htd, hlow, hget⟩ :=
      AddressMaskingTable.init_eq (BitVec.ofNat 32 u) (BitVec.ofNat 32 d) (by rwa [huse])
    rw [huse, hdrop] at hget
    rw [huse] at hlow
    rw [hdrop] at htd
    have hparses := parses_assert AddressMaskingTable.mask (fun t a => (t.get a).toNat) hu hw hfields
      (by rw [AddressMaskingTable.mask, hlow, htd]) hget
    rw [AddressMaskingTable.ofMask, hfields]
    dsimp only
    rw [ht]
    exact hparses

/-- `AddressDecodingTable(mask)`. -/
theorem decoding_parses_iff (α : Type) [Entry α] (mask : BitVec 32) :
    Parses mask (AddressDecodingTable.ofMask mask) AddressDecodingTable.mask (AddressDecodingTable.id (α := α)) ↔
      mask ≠ 0 ∧ ∀ u d, IsMask mask u d → u < 32 ∧ Allocates α u := by
  constructor
  · intro h
    refine ⟨?_, fun u d hm => ?_⟩
    · rintro rfl
      apply h.ends
      rw [AddressDecodingTable.ofMask, fields_zero]
    · by_contra hnot
      by_cases hu : u < 32
      · exact not_parses hm (AddressDecodingTable.ofMask_eq_error hm hu fun ha => hnot ⟨hu, ha⟩) h
      · refine not_parses (e := .undefined) hm ?_ h
        have huse := ofNat_toNat_of_le (show u ≤ 32 by have := hm.width; omega)
        simp only [AddressDecodingTable.ofMask, AddressDecodingTable.fields_eq hm, AddressDecodingTable.init, huse,
          if_pos (not_lt.mp hu)]
  · rintro ⟨h0, hall⟩
    obtain ⟨u, d, x, hfields, hu, hw, -, -⟩ := fields_spec h0
    have huse := ofNat_toNat_of_le (show u ≤ 32 by omega)
    have hdrop := ofNat_toNat_of_le (show d ≤ 32 by omega)
    by_cases ha : u < 32 ∧ Allocates α u
    · obtain ⟨t, ht, htu, htd⟩ : ∃ t : AddressDecodingTable α,
          AddressDecodingTable.init (BitVec.ofNat 32 u) (BitVec.ofNat 32 d) = .ok t ∧
            t.mUseBits = (BitVec.ofNat 32 u).toNat ∧ t.mDropBits = (BitVec.ofNat 32 d).toNat :=
        AddressDecodingTable.init_eq (by rw [huse]; exact ha.1) (by rw [huse]; exact ha.2)
      rw [huse] at htu
      rw [hdrop] at htd
      have hparses := parses_assert AddressDecodingTable.mask (AddressDecodingTable.id (α := α)) (t := t) hu hw hfields
        (by rw [AddressDecodingTable.mask, t.lowMask_eq, htu, htd])
        (fun a => by rw [t.id_eq_field (by omega), htu, htd])
      rw [AddressDecodingTable.ofMask, hfields]
      dsimp only
      rw [ht]
      exact hparses
    · -- what is counted is not the mask
      have hnot : ¬ Contiguous mask := by
        intro hc
        obtain ⟨u', d', hm⟩ := contiguous_iff.mp hc
        obtain ⟨rfl, rfl⟩ : u' = u ∧ d' = d := by
          have := (AddressDecodingTable.fields_eq hm).symm.trans hfields
          simpa using this
        exact ha (hall u' d' hm)
      by_cases hu32 : u < 32
      · refine parses_error (e := .badArrayNewLength) ?_ (by decide) hnot
        simp only [AddressDecodingTable.ofMask, hfields, AddressDecodingTable.init, huse, if_neg (not_le.mpr hu32),
          if_neg fun h => ha ⟨hu32, h⟩]
      · refine parses_error (e := .undefined) ?_ (by decide) hnot
        simp only [AddressDecodingTable.ofMask, hfields, AddressDecodingTable.init, huse, if_pos (not_lt.mp hu32)]

/-- The masks that a table of `bool` cannot be made for. -/
theorem narrow_iff (mask : BitVec 32) : (∀ u d, IsMask mask u d → u < 32 ∧ Allocates Bool u) ↔
    mask ≠ 0xFFFFFFFF ∧ mask ≠ 0x7FFFFFFF ∧ mask ≠ 0xFFFFFFFE := by
  simp only [AddressDecodingTable.allocates_bool_iff]
  constructor
  · intro h
    refine ⟨?_, ?_, ?_⟩
    · rintro rfl
      have := (h 32 0 ⟨by decide, by decide, by decide⟩).2
      omega
    · rintro rfl
      have := (h 31 0 ⟨by decide, by decide, by decide⟩).2
      omega
    · rintro rfl
      have := (h 31 1 ⟨by decide, by decide, by decide⟩).2
      omega
  · rintro ⟨hfull, h31, h31'⟩ u d hm
    have hle : u ≤ 30 := by
      by_contra hge
      have hodd : (2 ^ u - 1) % 2 ^ u = 2 ^ u - 1 := Nat.mod_eq_of_lt (by have := Nat.two_pow_pos u; omega)
      rcases wide_cases hm.width (hm.eq.trans (Nat.mul_comm _ _)) hodd (by omega) with ⟨-, h | h⟩ | h
      · exact h31 h
      · exact h31' h
      · exact hfull h
    exact ⟨by omega, hle⟩

/-- **Which masks are parsed.** For every mask: `AddressMaskingTable(mask)`
ends, passes its assertion exactly for the contiguous masks and takes the
masked bits, unless there is no one or no zero in the mask;
`AddressDecodingTable(mask)` does so for the same masks, but for a block of 31
ones if its entries are `bool`, and of 29 ones or more if they are `int`. -/
theorem parses_iff (mask : BitVec 32) :
    (Parses mask (AddressMaskingTable.ofMask mask) AddressMaskingTable.mask (fun t a => (t.get a).toNat) ↔
      mask ≠ 0 ∧ mask ≠ 0xFFFFFFFF) ∧
    (Parses mask (AddressDecodingTable.ofMask mask) AddressDecodingTable.mask (AddressDecodingTable.id (α := Bool)) ↔
      mask ≠ 0 ∧ mask ≠ 0xFFFFFFFF ∧ mask ≠ 0x7FFFFFFF ∧ mask ≠ 0xFFFFFFFE) ∧
    (Parses mask (AddressDecodingTable.ofMask mask) AddressDecodingTable.mask
        (AddressDecodingTable.id (α := BitVec 32)) ↔
      mask ≠ 0 ∧ ∀ u d, IsMask mask u d → u ≤ 28) := by
  refine ⟨masking_parses_iff mask, ?_, ?_⟩
  · rw [decoding_parses_iff, narrow_iff]
  · rw [decoding_parses_iff]
    refine and_congr_right fun _ => forall₃_congr fun u d hm => ?_
    rw [AddressDecodingTable.allocates_int_iff]
    omega

/-- No one in the mask, no zero, 31 ones, and 29 ones for a table of `int`. -/
theorem masks_refused :
    ¬ Parses 0 (AddressMaskingTable.ofMask 0) AddressMaskingTable.mask (fun t a => (t.get a).toNat) ∧
    ¬ Parses 0xFFFFFFFF (AddressMaskingTable.ofMask 0xFFFFFFFF) AddressMaskingTable.mask
      (fun t a => (t.get a).toNat) ∧
    ¬ Parses 0x7FFFFFFF (AddressDecodingTable.ofMask 0x7FFFFFFF) AddressDecodingTable.mask
      (AddressDecodingTable.id (α := Bool)) ∧
    ¬ Parses 0x1FFFFFFF (AddressDecodingTable.ofMask 0x1FFFFFFF) AddressDecodingTable.mask
      (AddressDecodingTable.id (α := BitVec 32)) := by
  refine ⟨fun h => ?_, fun h => ?_, fun h => ?_, fun h => ?_⟩
  · exact ((masking_parses_iff 0).mp h).1 rfl
  · exact ((masking_parses_iff 0xFFFFFFFF).mp h).2 rfl
  · have hm : IsMask 0x7FFFFFFF 31 0 := ⟨by decide, by decide, by decide⟩
    exact not_parses hm (AddressDecodingTable.ofMask_eq_error hm (by decide) (by decide)) h
  · have hm : IsMask 0x1FFFFFFF 29 0 := ⟨by decide, by decide, by decide⟩
    exact not_parses hm (AddressDecodingTable.ofMask_eq_error hm (by decide) (by decide)) h

/-- The table of a contiguous mask drops its zeros. -/
theorem AddressMaskingTable.ofMask_eq (h : IsMask mask useBits dropBits) (hu : useBits < 32) :
    ∃ t, AddressMaskingTable.ofMask mask = .ok t ∧ t.getDrop = dropBits := by
  have huse := ofNat_toNat_of_le hu.le
  have hdrop := ofNat_toNat_of_le (show dropBits ≤ 32 by have := h.width; omega)
  obtain ⟨t, ht, -, htd, hlow, -⟩ :=
    AddressMaskingTable.init_eq (BitVec.ofNat 32 useBits) (BitVec.ofNat 32 dropBits) (by rwa [huse])
  rw [hdrop] at htd
  rw [huse] at hlow
  have hmask : t.mask = mask := by
    rw [AddressMaskingTable.mask, hlow, htd, AddressDecodingTable.shift_lowMask_eq h]
  refine ⟨t, ?_, htd⟩
  simp only [AddressMaskingTable.ofMask, AddressDecodingTable.fields_eq h, ht, if_pos hmask]

/-- No zero in the mask. -/
theorem AddressMaskingTable.ofMask_eq_error (h : IsMask mask useBits dropBits) (hu : 32 ≤ useBits) :
    AddressMaskingTable.ofMask mask = .error .undefined := by
  have huse := ofNat_toNat_of_le (show useBits ≤ 32 by have := h.width; omega)
  simp only [AddressMaskingTable.ofMask, AddressDecodingTable.fields_eq h, AddressMaskingTable.init, huse,
    if_neg (not_lt.mpr hu)]

end Masks

end Tp2
end Smc
