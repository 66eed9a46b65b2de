/-
# A mapping table is coherent

`add` takes a segment exactly when it has the levels of the table, shares no
address with a stored one and has no masked bits in common with a stored one of
the other cacheability; so the stored segments stay apart, and the
cacheability table can be built. It takes a mask of at most 30 ones: for 31 the
table has a negative number of entries (`promised_iff`).

Key definitions: `Admissible`, `Promised`.
Key theorem: `promised_iff`.
-/
import Smc.Tp2.MappingTable

namespace Smc
namespace Tp2
namespace MappingTable

open AddressDecodingTable (IsMask field)

/-- The segments share an address. -/
def Meet (s t : Segment) : Prop := ∃ a, s.contains a = true ∧ t.contains a = true

/-- The segments differ in cacheability and have addresses of the same masked bits. -/
def Differ (mask : BitVec 32) (s t : Segment) : Prop :=
  s.mCacheability ≠ t.mCacheability ∧ ∃ a b, s.contains a = true ∧ t.contains b = true ∧ mask &&& a = mask &&& b

/-- What `add` asks of a segment. -/
structure Admissible (mt : MappingTable) (seg : Segment) : Prop where
  level : seg.mTargetIndex.level = mt.mLevelAddrBits.level
  apart : ∀ s ∈ mt.mSegmentList, ¬ Meet s seg
  agree : ∀ s ∈ mt.mSegmentList, ¬ Differ mt.mCacheabilityMask s seg

/-- `add` takes what is admissible and nothing else, and stores it after the
others; a call that fails leaves the segments as they were; they are disjoint,
and the cacheability table gives each address of a segment its cacheability. -/
structure Promised (r : ℕ) (mt : MappingTable) : Prop where
  add_ok : ∀ seg, Walkable r seg → ((mt.add seg).1 = .ok () ↔ mt.Admissible seg)
  add_stores : ∀ seg, Walkable r seg → (mt.add seg).1 = .ok () →
    (mt.add seg).2.mSegmentList = mt.mSegmentList ++ [seg]
  add_fails : ∀ seg e, Walkable r seg → (mt.add seg).1 = .error e → (mt.add seg).2.mSegmentList = mt.mSegmentList
  disjoint : mt.mSegmentList.Pairwise fun s t => ¬ Meet s t
  cacheability : ∃ t, mt.getCacheabilityTable = .ok t ∧
    ∀ s ∈ mt.mSegmentList, ∀ a, s.contains a = true → t.get a = s.mCacheability

/-! ### The checks of `add` -/

section Checks

variable {A : Type} {r : ℕ} {mt : MappingTable} {s seg : Segment} {useBits dropBits : ℕ}

/-- Two checks pass when both do. -/
theorem bind_eq_ok {x y : Except Failure Unit} : (x >>= fun _ => y) = .ok () ↔ x = .ok () ∧ y = .ok () := by
  cases x with
  | error e =>
    constructor
    · intro h
      cases h
    · intro h
      cases h.1
  | ok u => exact ⟨fun h => ⟨rfl, h⟩, fun h => h.2⟩

theorem foldlM_unit_eq_ok (f : A → Except Failure Unit) :
    ∀ l : List A, l.foldlM (fun _ a => f a) () = .ok () ↔ ∀ a ∈ l, f a = .ok ()
  | [] => by
    simp only [List.foldlM_nil, List.not_mem_nil, false_implies, implies_true, iff_true]
    rfl
  | a :: l => by
    rw [List.foldlM_cons, List.forall_mem_cons, ← foldlM_unit_eq_ok f l]
    show (f a >>= fun _ => l.foldlM (fun _ a => f a) ()) = _ ↔ _
    exact bind_eq_ok

theorem forM_eq_ok (f : A → Except Failure Unit) :
    ∀ l : List A, l.forM f = .ok () ↔ ∀ a ∈ l, f a = .ok ()
  | [] => by
    simp only [List.not_mem_nil, false_implies, implies_true, iff_true]
    rfl
  | a :: l => by
    rw [List.forall_mem_cons, ← forM_eq_ok f l]
    exact bind_eq_ok

theorem checkAgainst_eq_ok (h : mt.Sized r) (hs : Walkable r s) (hseg : Walkable r seg)
    (hm : IsMask mt.mCacheabilityMask useBits dropBits) (hr : r ≤ dropBits) :
    mt.checkAgainst seg s = .ok () ↔ ¬ Meet s seg ∧ ¬ Differ mt.mCacheabilityMask s seg := by
  have hmeet := Segment.isOverlapping_iff hs.toProper hseg.toProper
  rw [checkAgainst]
  split_ifs with ho
  · constructor
    · intro h
      cases h
    · intro h
      exact absurd (hmeet.mp ho) h.1
  · have hapart : ¬ Meet s seg := fun hm => ho (hmeet.mpr hm)
    simp only [hapart, not_false_eq_true, true_and]
    rw [forBlocks_segment h hs, foldlM_unit_eq_ok]
    simp only [forBlocks_segment h hseg, foldlM_unit_eq_ok]
    -- the masked bits are a field above the blocks: blocks and addresses have the same ones
    have hfield : (∃ a ∈ blocksOf r s, ∃ b ∈ blocksOf r seg,
          mt.mCacheabilityMask &&& a = mt.mCacheabilityMask &&& b) ↔
        ∃ a b, s.contains a = true ∧ seg.contains b = true ∧
          mt.mCacheabilityMask &&& a = mt.mCacheabilityMask &&& b := by
      simp only [AddressDecodingTable.and_eq_and_iff hm]
      rw [exists_field_iff hr hs.toProper fun i => ∃ b ∈ blocksOf r seg, i = field useBits dropBits b]
      refine exists_congr fun a => ?_
      rw [exists_field_iff hr hseg.toProper fun j => field useBits dropBits a = j]
      simp only [← exists_and_left]
    rw [Differ, ← hfield]
    constructor
    · rintro hall ⟨hne, a, ha, b, hb, hab⟩
      have := hall a ha b hb
      rw [if_pos ⟨hab, hne⟩] at this
      cases this
    · intro hnot a ha b hb
      rw [if_neg]
      rintro ⟨hab, hne⟩
      exact hnot ⟨hne, a, ha, b, hb, hab⟩

theorem add_eq_ok (h : mt.Sized r) (hst : Stored r mt) (hseg : Walkable r seg)
    (hm : IsMask mt.mCacheabilityMask useBits dropBits) (hr : r ≤ dropBits) :
    (mt.add seg).1 = .ok () ↔ mt.Admissible seg := by
  have hcheck : mt.mSegmentList.forM (mt.checkAgainst seg) = .ok () ↔
      ∀ s ∈ mt.mSegmentList, ¬ Meet s seg ∧ ¬ Differ mt.mCacheabilityMask s seg := by
    rw [forM_eq_ok]
    exact forall₂_congr fun s hs => checkAgainst_eq_ok h (hst.walk s hs) hseg hm hr
  by_cases hlevel : seg.mTargetIndex.level = mt.mLevelAddrBits.level
  · have hadd : (mt.add seg).1 = .ok () ↔ mt.mSegmentList.forM (mt.checkAgainst seg) = .ok () := by
      cases hres : mt.mSegmentList.forM (mt.checkAgainst seg) <;> simp [add, hlevel, hres]
    rw [hadd, hcheck]
    exact ⟨fun hall => ⟨hlevel, fun s hs => (hall s hs).1, fun s hs => (hall s hs).2⟩,
      fun had s hs => ⟨had.apart s hs, had.agree s hs⟩⟩
  · constructor
    · intro hok
      simp [add, hlevel] at hok
    · exact fun had => absurd had.level hlevel

end Checks

/-! ### Tables after any calls of `add` -/

section Tables

variable {r : ℕ} {mt : MappingTable} {useBits dropBits : ℕ}

/-- The stored segments are apart and agree on masked bits. -/
structure Apart (r : ℕ) (mt : MappingTable) : Prop extends Stored r mt where
  disjoint : mt.mSegmentList.Pairwise fun s t => ¬ Meet s t
  agree : mt.mSegmentList.Pairwise fun s t => ¬ Differ mt.mCacheabilityMask s t

theorem Apart.add {seg : Segment} (hz : mt.Sized r) (hm : IsMask mt.mCacheabilityMask useBits dropBits)
    (hr : r ≤ dropBits) (hseg : Walkable r seg) (h : Apart r mt) (hok : (mt.add seg).1 = .ok ()) :
    Apart r (mt.add seg).2 := by
  have hstored := h.toStored.add hseg hok
  have had := (add_eq_ok hz h.toStored hseg hm hr).mp hok
  rcases add_cases mt seg with ⟨-, -, hadd⟩ | ⟨⟨e, he⟩, -⟩
  · refine ⟨hstored, ?_, ?_⟩
    · rw [hadd, List.pairwise_append]
      refine ⟨h.disjoint, List.pairwise_singleton _ _, fun s hs t ht => ?_⟩
      rw [List.mem_singleton.mp ht]
      exact had.apart s hs
    · rw [hadd, List.pairwise_append]
      refine ⟨h.agree, List.pairwise_singleton _ _, fun s hs t ht => ?_⟩
      rw [List.mem_singleton.mp ht]
      exact had.agree s hs
  · rw [he] at hok
    cases hok

/-- What the builder of the cacheability table reads. -/
def cacheabilityReading (useBits dropBits : ℕ) : Reading Bool where
  keep _ := true
  useBits := useBits
  dropBits := dropBits
  value s := s.mCacheability

/-- Segments that agree do not clash in the cacheability table. -/
theorem Apart.not_clash (h : Apart r mt) (hm : IsMask mt.mCacheabilityMask useBits dropBits) :
    ¬ mt.Clash (cacheabilityReading useBits dropBits) := by
  rintro ⟨s, hs, t, ht, -, -, hne, a, b, ha, hb, hab⟩
  have : Std.Symm fun s t : Segment => ¬ Differ mt.mCacheabilityMask s t := by
    refine ⟨fun s t hst hts => hst ?_⟩
    obtain ⟨hne, a, b, ha, hb, hab⟩ := hts
    exact ⟨hne.symm, b, a, hb, ha, hab.symm⟩
  have hst : s ≠ t := fun he => hne (congrArg Segment.mCacheability he)
  exact h.agree.forall hs ht hst
    ⟨hne, a, b, ha, hb, (AddressDecodingTable.and_eq_and_iff hm a b).mpr hab⟩

theorem Apart.cacheability (h : Apart r mt) (hz : mt.Sized r) (hm : IsMask mt.mCacheabilityMask useBits dropBits)
    (hr : r ≤ dropBits) (hu : useBits ≤ 30) : ∃ t, mt.getCacheabilityTable = .ok t ∧
      ∀ s ∈ mt.mSegmentList, ∀ a, s.contains a = true → t.get a = s.mCacheability := by
  obtain ⟨adt, hadt, h1, h2⟩ := AddressDecodingTable.ofMask_eq (α := Bool) hm (by omega)
    (AddressDecodingTable.allocates_bool_iff.mpr hu)
  have hfill := decodes_fillWith (k := cacheabilityReading useBits dropBits) (d := false) hz h.walk hr hu
    (fun s => .ok s.mCacheability) (fun _ _ _ => rfl) (holds_reset h1 h2 h1 h2)
  rcases hfill with ⟨hclash, -⟩ | ⟨-, p, hp, hdec⟩
  · exact absurd hclash (h.not_clash hm)
  · refine ⟨p.adt, ?_, ?_⟩
    · have hp' : mt.fillWith (fun _ => true) (fun s => .ok s.mCacheability) ⟨adt.reset false, adt.reset false⟩ = .ok p := hp
      simp only [getCacheabilityTable, hadt, lift, bind, Except.bind, hp']
      rfl
    · exact fun s hs a ha => hdec.value a s hs rfl ⟨a, ha, rfl⟩

/-- With a mask of 31 ones no cacheability table is built. -/
theorem getCacheabilityTable_eq_error (hm : IsMask mt.mCacheabilityMask 31 dropBits) :
    mt.getCacheabilityTable = .error (.table .badArrayNewLength) := by
  have herr := AddressDecodingTable.ofMask_eq_error (α := Bool) hm (by decide) (by decide)
  simp only [getCacheabilityTable, herr, lift, bind, Except.bind]

theorem adds_apart {addrWidth mask : BitVec 32} {levelAddrBits : IntTab} (hm : IsMask mask useBits dropBits)
    (hr : r ≤ dropBits) (hmade : mt.Made addrWidth levelAddrBits mask r) (hnil : mt.mSegmentList = [])
    {segs : List Segment} (hsegs : ∀ seg ∈ segs, Walkable r seg) :
    (mt.adds segs).Made addrWidth levelAddrBits mask r ∧ Apart r (mt.adds segs) := by
  apply adds_inv (P := fun mt => mt.Made addrWidth levelAddrBits mask r ∧ Apart r mt) _ segs hsegs mt
  · exact ⟨hmade, ⟨by simp [hnil], by simp [hnil]⟩, by simp [hnil], by simp [hnil]⟩
  · intro mt seg hseg hmt hok
    exact ⟨hmt.1.add seg, hmt.2.add hmt.1.toSized (hmt.1.cacheabilityMask.symm ▸ hm) hr hseg hok⟩

/-- **A mapping table is coherent, and its cacheability table is built when the
mask has at most 30 ones.** For every contiguous mask other than all ones,
every layout of levels and every sequence of calls of `add` with walkable
segments, failing ones included: the table they leave keeps the promise if and
only if the mask has at most 30 ones. -/
theorem promised_iff {addrWidth mask : BitVec 32} {levelAddrBits : IntTab} (hm : IsMask mask useBits dropBits)
    (hu : useBits < 32) (hx : (addrWidth - levelAddrBits.sum 10).toNat < 31) :
    ∃ mt, new addrWidth levelAddrBits mask = .ok mt ∧
      mt.mRtSize.toNat = 2 ^ min dropBits (addrWidth - levelAddrBits.sum 10).toNat ∧
      ∀ segs : List Segment,
        (∀ seg ∈ segs, Walkable (min dropBits (addrWidth - levelAddrBits.sum 10).toNat) seg) →
        (Promised (min dropBits (addrWidth - levelAddrBits.sum 10).toNat) (mt.adds segs) ↔ useBits ≤ 30) := by
  obtain ⟨mt, hnew, hnil, hmade⟩ := made_new hm hu (by omega : (addrWidth - levelAddrBits.sum 10).toNat < 32)
  refine ⟨mt, hnew, hmade.eq, fun segs hsegs => ?_⟩
  have hr : min dropBits (addrWidth - levelAddrBits.sum 10).toNat ≤ dropBits := min_le_left _ _
  obtain ⟨hmade', hapart⟩ := adds_apart hm hr hmade hnil hsegs
  have hm' : IsMask (mt.adds segs).mCacheabilityMask useBits dropBits := hmade'.cacheabilityMask.symm ▸ hm
  constructor
  · intro hp
    by_contra hlt
    obtain rfl : useBits = 31 := by omega
    obtain ⟨t, ht, -⟩ := hp.cacheability
    rw [getCacheabilityTable_eq_error hm'] at ht
    cases ht
  · intro hle
    refine ⟨?_, ?_, ?_, hapart.disjoint, hapart.cacheability hmade'.toSized hm' hr hle⟩
    · exact fun seg hseg => add_eq_ok hmade'.toSized hapart.toStored hseg hm' hr
    · intro seg _ hok
      rcases add_cases (mt.adds segs) seg with ⟨-, -, hadd⟩ | ⟨⟨e, he⟩, -⟩
      · rw [hadd]
      · rw [hok] at he
        cases he
    · intro seg e _ he
      rcases add_cases (mt.adds segs) seg with ⟨hok, -⟩ | ⟨-, hsame⟩
      · rw [he] at hok
        cases hok
      · rw [hsame]

end Tables

/-! ### The table of the platforms -/

/-- An index of one level. -/
def oneLevel (v : BitVec 32) (h : v ≠ -1) : IntTab := ⟨[v], by simp, by simpa using h⟩

/-- The segment of a coprocessor of `tp2_parallel_top.cpp`. -/
def gcdSegmentOf (name : String) (base : BitVec 32) (index : IntTab) : Segment where
  mBaseAddress := base
  mSize := 16
  mName := name
  mTargetIndex := index
  mCacheability := true

/-- The table of `tp2_parallel_top.cpp` keeps the promise with its segments. -/
theorem promised_parallel : ∃ mt, new 32 (oneLevel 8 (by decide)) 0x03000000 = .ok mt ∧
    Promised 24 (mt.adds [gcdSegmentOf "GCD0" 0 (oneLevel 0 (by decide)),
      gcdSegmentOf "GCD1" 0x10000000 (oneLevel 1 (by decide)), gcdSegmentOf "GCD2" 0x20000000 (oneLevel 2 (by decide))]) := by
  have hm : IsMask 0x03000000 2 24 := ⟨by decide, by decide, by decide⟩
  have hx : ((32 : BitVec 32) - (oneLevel 8 (by decide)).sum 10).toNat < 31 := by decide
  obtain ⟨mt, hnew, -, hall⟩ := promised_iff hm (by decide) hx
  refine ⟨mt, hnew, (hall _ ?_).mpr (by decide)⟩
  intro seg hseg
  simp only [List.mem_cons, List.not_mem_nil, or_false] at hseg
  rcases hseg with rfl | rfl | rfl
  all_goals exact ⟨⟨by decide, by decide⟩, .inr (by decide)⟩

/-- A mask of all bits but the last: the constructor takes it, and the
cacheability table of the empty mapping table is not built. -/
theorem not_promised_wide : ∃ mt, new 32 (oneLevel 8 (by decide)) 0xFFFFFFFE = .ok mt ∧
    mt.getCacheabilityTable = .error (.table .badArrayNewLength) ∧ ¬ Promised 1 (mt.adds []) := by
  have hm : IsMask 0xFFFFFFFE 31 1 := ⟨by decide, by decide, by decide⟩
  have hx : ((32 : BitVec 32) - (oneLevel 8 (by decide)).sum 10).toNat < 32 := by decide
  obtain ⟨mt, hnew, -, hmade⟩ := made_new hm (by decide) hx
  have herr : mt.getCacheabilityTable = .error (.table .badArrayNewLength) :=
    getCacheabilityTable_eq_error (hmade.cacheabilityMask.symm ▸ hm)
  refine ⟨mt, hnew, herr, fun hp => ?_⟩
  obtain ⟨t, ht, -⟩ := hp.cacheability
  rw [show mt.adds [] = mt from rfl, herr] at ht
  cases ht

end MappingTable
end Tp2
end Smc
