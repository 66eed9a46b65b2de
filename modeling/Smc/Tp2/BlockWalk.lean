/-
# The walk over the blocks of a segment

`add` and the three builders of `MappingTable` look at a segment block by
block: a loop from the block of the first address on, in steps of `m_rt_size`,
below the end of the segment and not before its own start
(`TP2/TP2_etudiant/mapping_table.cpp`). The end and the loop variable are
32-bit words.

A segment that ends with the address space has the end 0, and no block of it
is visited. A segment with an address in the first block and one in the last
ends below 2^32, but its walk comes round to its start and goes on for ever.
Every other segment has each of its blocks visited once.

Key definitions: `Covers`, `Walks`.
-/
import Smc.Tp2.MappingTable

namespace Smc
namespace Tp2
namespace MappingTable

/-- The list has each block with an address of the segment, once. -/
structure Covers (r : ℕ) (s : Segment) (l : List (BitVec 32)) : Prop where
  nodup : l.Nodup
  mem_iff : ∀ b, b ∈ l ↔ 2 ^ r ∣ b.toNat ∧ ∃ a, s.contains a = true ∧ a.toNat / 2 ^ r = b.toNat / 2 ^ r

/-- Whatever the body of the loop, the walk over the segment ends and runs it
for each of the segment's blocks, once. -/
def Walks (mt : MappingTable) (r : ℕ) (s : Segment) : Prop :=
  ∃ l, Covers r s l ∧
    ∀ {S : Type} (body : S → BitVec 32 → Except Failure S) (x : S), mt.forBlocks s body x = l.foldlM body x

variable {mt : MappingTable} {r : ℕ} {s : Segment} {l : List (BitVec 32)}

theorem blocksOf_covers (hs : s.Proper) : Covers r s (blocksOf r s) := by
  have hlt := s.endAddress.isLt
  refine ⟨Blocks.nodup_blocks hlt.le, fun b => ?_⟩
  rw [← exists_blocksOf_iff hs (fun q => q = b.toNat / 2 ^ r)]
  have hmem := Blocks.mem_blocks_iff (r := r) hlt.le (Dvd.intro_left (s.mBaseAddress.toNat / 2 ^ r) rfl)
  constructor
  · intro hb
    exact ⟨((hmem b).mp hb).1, b, hb, rfl⟩
  · intro hb
    obtain ⟨hdvd, b', hb', hdiv⟩ := hb
    have hdvd' : 2 ^ r ∣ b'.toNat := ((hmem b').mp hb').1
    have he : b'.toNat = b.toNat := by
      rw [← Nat.div_mul_cancel hdvd', ← Nat.div_mul_cancel hdvd, hdiv]
    rwa [← BitVec.eq_of_toNat_eq he]

/-- The first address of a segment has a block. -/
theorem Covers.ne_nil (h : Covers r s l) (hs : s.InMemory) : l ≠ [] := by
  intro hnil
  have hpos : 0 < 2 ^ r := Nat.two_pow_pos r
  have hbase : s.contains s.mBaseAddress = true := (hs.contains_iff _).mpr ⟨le_rfl, hs.base_lt_limit⟩
  have hle : s.mBaseAddress.toNat / 2 ^ r * 2 ^ r ≤ s.mBaseAddress.toNat := Nat.div_mul_le_self _ _
  have hblock : (BitVec.ofNat 32 (s.mBaseAddress.toNat / 2 ^ r * 2 ^ r)).toNat =
      s.mBaseAddress.toNat / 2 ^ r * 2 ^ r := by
    rw [BitVec.toNat_ofNat]
    exact Nat.mod_eq_of_lt (lt_of_le_of_lt hle s.mBaseAddress.isLt)
  have hmem : BitVec.ofNat 32 (s.mBaseAddress.toNat / 2 ^ r * 2 ^ r) ∈ l := by
    apply (h.mem_iff _).mpr
    rw [hblock]
    exact ⟨Dvd.intro_left _ rfl, s.mBaseAddress, hbase, (Nat.mul_div_cancel _ hpos).symm⟩
  rw [hnil] at hmem
  cases hmem

/-- A segment that ends with the address space is not walked over. -/
theorem not_walks_of_limit (hs : s.InMemory) (hlimit : s.limit = 2 ^ 32) : ¬ mt.Walks r s := by
  intro h
  obtain ⟨l, hl, hrun⟩ := h
  have hend : s.endAddress.toNat = 0 := by rw [hs.endAddress_toNat, if_pos hlimit]
  have hnot : ¬ (mt.firstBlock s < s.endAddress ∧ mt.firstBlock s ≥ mt.firstBlock s) := by
    rw [BitVec.lt_def, hend]
    omega
  -- a body that fails is not run
  have hfail := hrun (fun (_ : Unit) _ => .error .levelOutOfBounds) ()
  rw [forBlocks, Blocks.forBlocks, if_neg hnot] at hfail
  obtain ⟨b, l', rfl⟩ := List.exists_cons_of_ne_nil (hl.ne_nil hs)
  cases hfail

/-- A walk from the first block to the last one comes round. -/
theorem not_walks_of_round (h : mt.Sized r) (hs : s.InMemory) (hlimit : s.limit < 2 ^ 32)
    (hfirst : s.mBaseAddress.toNat < 2 ^ r) (hlast : 2 ^ 32 < s.limit + 2 ^ r) : ¬ mt.Walks r s := by
  intro hw
  obtain ⟨l, hl, hrun⟩ := hw
  have hend : s.endAddress.toNat = s.limit := by rw [hs.endAddress_toNat, if_neg hlimit.ne]
  have hlo : (mt.firstBlock s).toNat = 0 := by
    rw [h.firstBlock_toNat, Nat.div_eq_of_lt hfirst, Nat.zero_mul]
  have hround := hrun (fun (_ : Unit) _ => .ok ()) ()
  have hle := h.le
  rw [forBlocks, Blocks.forBlocks_eq_out h.eq (by omega) hlo (by rw [hend]; exact hlast) (fun _ _ => ⟨_, rfl⟩)] at hround
  · have hok : ∀ l : List (BitVec 32), l.foldlM (fun (_ : Unit) _ => Except.ok (ε := Failure) ()) () = .ok () := by
      intro l
      induction l with
      | nil => rfl
      | cons b l ih => exact ih
    rw [hok] at hround
    cases hround
  · rw [hlo]
    exact dvd_zero _

/-- **When the walk over a segment is complete.** For every power of two
`m_rt_size` and every segment in the address space: the walk ends and visits
each block with an address of the segment once, exactly when the segment ends
below 2^32 and does not have both an address in the first block and one in the
last. -/
theorem walks_iff (h : mt.Sized r) (hs : s.InMemory) :
    mt.Walks r s ↔ s.limit < 2 ^ 32 ∧ (2 ^ r ≤ s.mBaseAddress.toNat ∨ s.limit + 2 ^ r ≤ 2 ^ 32) := by
  have hle := hs.inSpace
  constructor
  · intro hw
    have hlimit : s.limit < 2 ^ 32 := by
      by_contra hnot
      exact not_walks_of_limit hs (by omega) hw
    refine ⟨hlimit, ?_⟩
    by_contra hnot
    exact not_walks_of_round h hs hlimit (by omega) (by omega) hw
  · intro hc
    have hproper : s.Proper := ⟨hs.nonempty, hc.1⟩
    exact ⟨blocksOf r s, blocksOf_covers hproper, fun body x => forBlocks_segment h ⟨hproper, hc.2⟩ body x⟩

/-- A table of pages. -/
def pages : MappingTable where
  mSegmentList := []
  mAddrWidth := 32
  mLevelAddrBits := ⟨[20], by simp, by simp⟩
  mCacheabilityMask := 0xFFFFF000
  mRtSize := 0x1000

theorem pages_sized : pages.Sized 12 := ⟨by decide, by decide⟩

/-- A segment of two pages below the top of memory. -/
theorem walks_below_top : pages.Walks 12 { Segment.topSegment with mBaseAddress := 0xFFFFE800#32 } :=
  (walks_iff pages_sized (s := { Segment.topSegment with mBaseAddress := 0xFFFFE800#32 })
    ⟨by decide, by decide⟩).mpr ⟨by decide, .inl (by decide)⟩

/-- The last page is not visited, and the walk from the first page to the last
does not end. -/
theorem walks_astray : ¬ pages.Walks 12 Segment.topSegment ∧
    ¬ pages.Walks 12 { Segment.topSegment with mBaseAddress := 0x800#32, mSize := 0xFFFFF000#32 } := by
  constructor
  · exact not_walks_of_limit Segment.topSegment_inMemory (by decide)
  · exact not_walks_of_round pages_sized ⟨by decide, by decide⟩ (by decide) (by decide) (by decide)

end MappingTable
end Tp2
end Smc
