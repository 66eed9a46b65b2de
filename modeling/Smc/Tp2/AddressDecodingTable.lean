/-
# The address decoding tables of TP2

`AddressDecodingTable` maps an address to an entry selected by a field of its
bits: `m_drop_bits` low bits are dropped, the next `m_use_bits` select one of
`1 << m_use_bits` entries (`TP2/TP2_etudiant/address_decoding_table.h`). The
bus keeps its routing table in one, with `int` entries.

A table is made for given numbers of bits, or for a mask whose ones are
contiguous. `1 << use_bits` is an `int`: it is negative for 31 bits and
undefined from 32 on. The programs are of 32 bits (`-m32` in the `Makefile`):
no array has 2^31 bytes or more, so the limit is 30 bits for tables of `bool`
and 28 for tables of `int`. A shift of an address by 32 or more is undefined
too; it only comes up for an address width above 32, or with no bit in use,
where it does not matter.

Key definitions: `init`, `reset`, `set`, `ofMask`, `Allocates`, `field`.
Key theorems: `id_eq_field`, `fields_eq`, `and_eq_and_iff`.
-/
import Mathlib.Tactic

namespace Smc
namespace Tp2

/-- `AddressDecodingTable<uint32_t, output_t>`. `init` makes the low mask
from the number of bits used. -/
structure AddressDecodingTable (α : Type*) where
  mUseBits : ℕ
  mDropBits : ℕ
  mLowMask : BitVec 32
  mTable : ℕ → α
  lowMask_eq : mLowMask = BitVec.ofNat 32 (2 ^ mUseBits - 1)

namespace AddressDecodingTable

variable {α : Type*} (t : AddressDecodingTable α)

/-- The entry of an address, `id`. -/
def id (val : BitVec 32) : ℕ := ((val >>> t.mDropBits) &&& t.mLowMask).toNat

/-- `operator[]`. -/
def get (addr : BitVec 32) : α := t.mTable (t.id addr)

theorem id_lt (val : BitVec 32) : t.id val < 2 ^ t.mUseBits := by
  have h1 : t.id val ≤ t.mLowMask.toNat := by
    rw [id, BitVec.toNat_and]
    exact Nat.and_le_right
  have h2 : t.mLowMask.toNat ≤ 2 ^ t.mUseBits - 1 := by
    rw [t.lowMask_eq, BitVec.toNat_ofNat]
    exact Nat.mod_le _ _
  have h3 : 0 < 2 ^ t.mUseBits := Nat.two_pow_pos _
  omega

/-- `isAllBelow`, on a table of `int`. -/
def isAllBelow (t : AddressDecodingTable (BitVec 32)) (val : BitVec 32) : Bool :=
  (List.range (2 ^ t.mUseBits)).all fun i => !decide ((t.mTable i).toInt ≥ val.toInt)

theorem isAllBelow_iff (t : AddressDecodingTable (BitVec 32)) (val : BitVec 32) :
    t.isAllBelow val = true ↔ ∀ i < 2 ^ t.mUseBits, (t.mTable i).toInt < val.toInt := by
  simp [isAllBelow]

/-- An entry that is not negative and below `n` as an `int` is below `n` as a
`size_t`. -/
theorem toNat_lt_of_toInt {v : BitVec 32} {n : ℕ} (h0 : 0 ≤ v.toInt) (hn : v.toInt < n) : v.toNat < n := by
  rw [BitVec.toInt_eq_toNat_cond] at h0 hn
  have := v.isLt
  split at h0 <;> omega

/-! ### Making a table -/

/-- A type of entries (`output_t`), with its size in bytes. -/
class Entry (α : Type*) extends Inhabited α where
  size : ℕ

instance : Entry Bool where
  size := 1

/-- `int`. -/
instance : Entry (BitVec 32) where
  size := 4

/-- An array of `1 << useBits` entries can be made. -/
def Allocates (α : Type*) [Entry α] (useBits : ℕ) : Prop := 2 ^ useBits * Entry.size α < 2 ^ 31

instance (α : Type*) [Entry α] (useBits : ℕ) : Decidable (Allocates α useBits) := Nat.decLt _ _

theorem allocates_bool_iff {u : ℕ} : Allocates Bool u ↔ u ≤ 30 := by
  show 2 ^ u * 1 < 2 ^ 31 ↔ u ≤ 30
  rw [Nat.mul_one, Nat.pow_lt_pow_iff_right (by decide), Nat.lt_succ_iff]

theorem allocates_int_iff {u : ℕ} : Allocates (BitVec 32) u ↔ u ≤ 28 := by
  show 2 ^ u * 2 ^ 2 < 2 ^ 31 ↔ u ≤ 28
  rw [← pow_add, Nat.pow_lt_pow_iff_right (by decide)]
  omega

/-- What can go wrong when a table is made. -/
inductive TableError where
  /-- `new` of a negative number of entries, or of too many -/
  | badArrayNewLength
  /-- a shift by 32 or more -/
  | undefined
  | assertion
  /-- a loop that does not end -/
  | diverges
deriving DecidableEq, Repr

/-- `init`. The entries are not initialised before `reset`. -/
def init [Entry α] (useBits dropBits : BitVec 32) : Except TableError (AddressDecodingTable α) :=
  if 32 ≤ useBits.toNat then .error .undefined
  else if Allocates α useBits.toNat then
    .ok {
      mUseBits := useBits.toNat
      mDropBits := dropBits.toNat
      mLowMask := BitVec.ofNat 32 (2 ^ useBits.toNat - 1)
      mTable := fun _ => default
      lowMask_eq := rfl }
  else .error .badArrayNewLength

def reset (value : α) : AddressDecodingTable α :=
  { t with mTable := fun i => if i < 2 ^ t.mUseBits then value else t.mTable i }

def set (addr : BitVec 32) (value : α) : AddressDecodingTable α :=
  { t with mTable := Function.update t.mTable (t.id addr) value }

def mask : BitVec 32 := t.mLowMask <<< t.mDropBits

/-- The first loop over a mask: the zeros below its ones, and what is left. -/
def skipZeros : ℕ → ℕ → ℕ → Option (ℕ × ℕ)
  | 0, _, _ => none
  | n + 1, dropBits, m => if m % 2 = 0 then skipZeros n (dropBits + 1) (m / 2) else some (dropBits, m)

/-- The second loop: the ones. -/
def countOnes (dropBits : ℕ) : ℕ → ℕ → ℕ → ℕ
  | 0, useBits, _ => useBits
  | n + 1, useBits, m =>
    if m % 2 = 1 ∧ useBits + dropBits ≤ 32 then countOnes dropBits n (useBits + 1) (m / 2) else useBits

/-- The two loops: the bits in use and the bits dropped. -/
def fields (mask : BitVec 32) : Except TableError (ℕ × ℕ) :=
  match skipZeros 33 0 mask.toNat with
  | none => .error .diverges
  | some (dropBits, m) => .ok (countOnes dropBits 34 0 m, dropBits)

/-- `AddressDecodingTable(mask)`. -/
def ofMask [Entry α] (mask : BitVec 32) : Except TableError (AddressDecodingTable α) :=
  match fields mask with
  | .error e => .error e
  | .ok (useBits, dropBits) =>
    match init (BitVec.ofNat 32 useBits) (BitVec.ofNat 32 dropBits) with
    | .error e => .error e
    | .ok t => if t.mask = mask then .ok t else .error .assertion

/-! ### Fields of an address -/

/-- The field of an address that selects an entry. -/
def field (useBits dropBits : ℕ) (addr : BitVec 32) : ℕ := addr.toNat / 2 ^ dropBits % 2 ^ useBits

/-- `id` is the field of the bits in use. -/
theorem id_eq_field (hu : t.mUseBits ≤ 32) (addr : BitVec 32) : t.id addr = field t.mUseBits t.mDropBits addr := by
  have hpow : 2 ^ t.mUseBits ≤ 2 ^ 32 := Nat.pow_le_pow_right (by decide) hu
  have hpos : 0 < 2 ^ t.mUseBits := Nat.two_pow_pos _
  have hmask : (2 ^ t.mUseBits - 1) % 2 ^ 32 = 2 ^ t.mUseBits - 1 := Nat.mod_eq_of_lt (by omega)
  rw [id, t.lowMask_eq, BitVec.toNat_and, BitVec.toNat_ofNat, hmask, Nat.and_two_pow_sub_one_eq_mod,
    BitVec.toNat_ushiftRight, Nat.shiftRight_eq_div_pow]
  rfl

/-- A field inside another one is known from it. -/
theorem field_eq_of_field_eq {u d u' d' : ℕ} (hd : d ≤ d') (hu : d' + u' ≤ d + u) {a b : BitVec 32}
    (h : field u d a = field u d b) : field u' d' a = field u' d' b := by
  have hinside : ∀ x : BitVec 32, field u' d' x = field u d x % 2 ^ (d' - d + u') / 2 ^ (d' - d) := by
    intro x
    have hpow : 2 ^ (d' - d + u') ∣ 2 ^ u := pow_dvd_pow 2 (by omega)
    rw [field, field, Nat.mod_mod_of_dvd _ hpow, pow_add, Nat.mod_mul_right_div_self, Nat.div_div_eq_div_mul,
      ← pow_add, Nat.add_sub_cancel' hd]
  rw [hinside, hinside, h]

theorem init_eq [Entry α] {use drop : BitVec 32} (hu : use.toNat < 32) (ha : Allocates α use.toNat) :
    ∃ t : AddressDecodingTable α, init use drop = .ok t ∧ t.mUseBits = use.toNat ∧ t.mDropBits = drop.toNat := by
  rw [init, if_neg (not_le.mpr hu), if_pos ha]
  exact ⟨_, rfl, rfl, rfl⟩

theorem allocates_of_init [Entry α] {use drop : BitVec 32} {t : AddressDecodingTable α} (h : init use drop = .ok t) :
    Allocates α use.toNat := by
  rw [init] at h
  split_ifs at h with _ ha
  exact ha

/-- The mask of `useBits` ones above `dropBits` zeros. -/
structure IsMask (mask : BitVec 32) (useBits dropBits : ℕ) : Prop where
  pos : 0 < useBits
  width : useBits + dropBits ≤ 32
  eq : mask.toNat = (2 ^ useBits - 1) * 2 ^ dropBits

theorem skipZeros_eq {x : ℕ} (hx : x % 2 = 1) : ∀ (d n drop : ℕ), d < n → skipZeros n drop (x * 2 ^ d) = some (drop + d, x)
  | 0, n + 1, drop, _ => by simp [skipZeros, hx]
  | d + 1, n + 1, drop, hn => by
    have heven : x * 2 ^ (d + 1) % 2 = 0 := by
      rw [pow_succ, ← mul_assoc]
      exact Nat.mul_mod_left _ _
    have hhalf : x * 2 ^ (d + 1) / 2 = x * 2 ^ d := by
      rw [pow_succ, ← mul_assoc]
      exact Nat.mul_div_cancel _ (by decide)
    rw [skipZeros, if_pos heven, hhalf, skipZeros_eq hx d n (drop + 1) (by omega)]
    congr 2
    omega

theorem countOnes_eq {drop : ℕ} : ∀ (u n use : ℕ), u < n → use + u + drop ≤ 32 → countOnes drop n use (2 ^ u - 1) = use + u
  | 0, n + 1, use, _, _ => by simp [countOnes]
  | u + 1, n + 1, use, hn, hw => by
    have hpos : 0 < 2 ^ u := Nat.two_pow_pos u
    have hodd : (2 ^ (u + 1) - 1) % 2 = 1 := by
      rw [pow_succ]
      omega
    have hhalf : (2 ^ (u + 1) - 1) / 2 = 2 ^ u - 1 := by
      rw [pow_succ]
      omega
    rw [countOnes, if_pos ⟨hodd, by omega⟩, hhalf, countOnes_eq u n (use + 1) (by omega) (by omega)]
    omega

variable {mask : BitVec 32} {useBits dropBits : ℕ}

/-- The loops find the ones of a contiguous mask. -/
theorem fields_eq (h : IsMask mask useBits dropBits) : fields mask = .ok (useBits, dropBits) := by
  have hpos := h.pos
  have hwidth := h.width
  have hodd : (2 ^ useBits - 1) % 2 = 1 := by
    obtain ⟨u, rfl⟩ := Nat.exists_eq_succ_of_ne_zero hpos.ne'
    have : 0 < 2 ^ u := Nat.two_pow_pos u
    rw [pow_succ]
    omega
  rw [fields, h.eq, skipZeros_eq hodd dropBits 33 0 (by omega)]
  dsimp only
  rw [zero_add, countOnes_eq useBits 34 0 (by omega) (by omega), zero_add]

/-- The assertion of both constructors. -/
theorem shift_lowMask_eq (h : IsMask mask useBits dropBits) :
    BitVec.ofNat 32 (2 ^ useBits - 1) <<< dropBits = mask := by
  apply BitVec.eq_of_toNat_eq
  have hpow : 2 ^ useBits ≤ 2 ^ 32 := Nat.pow_le_pow_right (by decide) (by have := h.width; omega)
  have hpos : 0 < 2 ^ useBits := Nat.two_pow_pos _
  rw [BitVec.toNat_shiftLeft, BitVec.toNat_ofNat, Nat.mod_eq_of_lt (a := 2 ^ useBits - 1) (by omega), Nat.shiftLeft_eq,
    ← h.eq]
  exact Nat.mod_eq_of_lt mask.isLt

/-- The entries of a mask of too many ones cannot be allocated. -/
theorem ofMask_eq_error [Entry α] (h : IsMask mask useBits dropBits) (hu : useBits < 32) (ha : ¬ Allocates α useBits) :
    (ofMask mask : Except TableError (AddressDecodingTable α)) = .error .badArrayNewLength := by
  have huse : (BitVec.ofNat 32 useBits).toNat = useBits := by
    rw [BitVec.toNat_ofNat]
    omega
  simp only [ofMask, fields_eq h, init, huse, if_neg (not_le.mpr hu), if_neg ha]

theorem ofMask_eq [Entry α] (h : IsMask mask useBits dropBits) (hu : useBits < 32) (ha : Allocates α useBits) :
    ∃ t : AddressDecodingTable α, ofMask mask = .ok t ∧ t.mUseBits = useBits ∧ t.mDropBits = dropBits := by
  have hwidth := h.width
  have huse : (BitVec.ofNat 32 useBits).toNat = useBits := by
    rw [BitVec.toNat_ofNat]
    omega
  have hdrop : (BitVec.ofNat 32 dropBits).toNat = dropBits := by
    rw [BitVec.toNat_ofNat]
    have := h.pos
    omega
  simp only [ofMask, fields_eq h, init, huse, hdrop, if_neg (not_le.mpr hu), if_pos ha, AddressDecodingTable.mask,
    shift_lowMask_eq h, ↓reduceIte]
  exact ⟨_, rfl, rfl, rfl⟩

theorem IsMask.testBit (h : IsMask mask useBits dropBits) (i : ℕ) :
    mask.toNat.testBit i = (decide (dropBits ≤ i) && decide (i - dropBits < useBits)) := by
  rw [h.eq, ← Nat.shiftLeft_eq, Nat.testBit_shiftLeft, Nat.testBit_two_pow_sub_one]

theorem field_testBit (useBits dropBits : ℕ) (x : BitVec 32) (j : ℕ) : (field useBits dropBits x).testBit j =
    (decide (j < useBits) && x.toNat.testBit (dropBits + j)) := by
  rw [field, Nat.testBit_mod_two_pow, Nat.testBit_div_two_pow, add_comm]

/-- Two addresses have the same masked bits when they have the same field. -/
theorem and_eq_and_iff (h : IsMask mask useBits dropBits) (a b : BitVec 32) :
    mask &&& a = mask &&& b ↔ field useBits dropBits a = field useBits dropBits b := by
  constructor
  · intro he
    apply Nat.eq_of_testBit_eq
    intro j
    rw [field_testBit, field_testBit]
    have hb := congrArg (fun x => x.toNat.testBit (dropBits + j)) he
    simp only [BitVec.toNat_and, Nat.testBit_and, h.testBit] at hb
    by_cases hj : j < useBits
    · simpa [hj] using hb
    · simp [hj]
  · intro he
    apply BitVec.eq_of_toNat_eq
    apply Nat.eq_of_testBit_eq
    intro i
    rw [BitVec.toNat_and, BitVec.toNat_and, Nat.testBit_and, Nat.testBit_and, h.testBit]
    by_cases hi : dropBits ≤ i ∧ i - dropBits < useBits
    · have hb := congrArg (fun x => x.testBit (i - dropBits)) he
      simp only [field_testBit, hi.2, decide_true, Bool.true_and, Nat.add_sub_cancel' hi.1] at hb
      rw [hb]
    · have hf : (decide (dropBits ≤ i) && decide (i - dropBits < useBits)) = false := by
        simpa using hi
      rw [hf, Bool.false_and, Bool.false_and]

end AddressDecodingTable
end Tp2
end Smc
