/-
# Routing and locality tables

Level by level the interconnect decodes a slice of the address, the high ones
first. `getRoutingTable` gives the component of the target's index at one
level, among the segments whose index starts with a given prefix, if the level
has at most 28 bits (`routing_spec`); `getLocalityTable` tells whether the whole slice above a
level belongs to a prefix. When the routing tables of all shorter prefixes can
be built, so can the locality table, and it is right (`locality_agrees`): two
segments that one slice cannot tell apart would clash in the routing table of
the level at which their indices part.

Key definitions: `routing`, `locality`, `Layered`.
Key theorems: `routing_spec`, `locality_agrees`.
-/
import Smc.Tp2.MappingTable

namespace Smc
namespace Tp2
namespace MappingTable

open AddressDecodingTable (IsMask field)

/-- What the builder of a routing table reads: the segments of a prefix, the
bits of its level, and the component at its level. -/
def routing (mt : MappingTable) (index : IntTab) : Reading (BitVec 32) where
  keep s := s.mTargetIndex.idMatches index
  useBits := (mt.mLevelAddrBits.mValues.getD index.level (-1)).toNat
  dropBits := mt.mAddrWidth.toNat - mt.mLevelAddrBits.bits (index.level + 1)
  value s := s.mTargetIndex.mValues.getD index.level (-1)

/-- What the builder of a locality table reads. -/
def locality (mt : MappingTable) (index : IntTab) : Reading Bool where
  keep _ := true
  useBits := mt.mLevelAddrBits.bits index.level
  dropBits := mt.mAddrWidth.toNat - mt.mLevelAddrBits.bits index.level
  value s := s.mTargetIndex.idMatches index

/-- The levels lie in the address, above the blocks. -/
structure Layered (r : ℕ) (mt : MappingTable) : Prop where
  above : r + mt.mLevelAddrBits.bits 10 ≤ mt.mAddrWidth.toNat

section Builders

variable {r : ℕ} {mt : MappingTable} {index : IntTab}

theorem Layered.bits_le (h : Layered r mt) {n : ℕ} (hn : n ≤ mt.mLevelAddrBits.level) :
    r + mt.mLevelAddrBits.bits n ≤ mt.mAddrWidth.toNat := by
  have hlevel : mt.mLevelAddrBits.level ≤ 9 := mt.mLevelAddrBits.length_le
  have hmono := IntTab.bits_mono (t := mt.mLevelAddrBits) (by omega : n ≤ 10)
  have habove := h.above
  omega

theorem Layered.sum_toNat (h : Layered r mt) {n : ℕ} (hn : n ≤ mt.mLevelAddrBits.level) :
    (mt.mLevelAddrBits.sum n).toNat = mt.mLevelAddrBits.bits n := by
  have hle := h.bits_le hn
  have hlt := mt.mAddrWidth.isLt
  exact IntTab.sum_toNat (by omega)

theorem component_eq {t : IntTab} {n : ℕ} (h : n < t.level) : component t n = .ok (t.mValues.getD n (-1)) := by
  have hn : ¬ n > t.level := by omega
  rw [component, IntTab.get, if_neg hn]

/-- **A routing table is built unless two segments of the prefix clash.** -/
theorem getRoutingTable_eq (hz : mt.Sized r) (hl : Layered r mt) (hst : Stored r mt)
    (hi : index.level < mt.mLevelAddrBits.level) (hat : (mt.routing index).useBits ≤ 28) (d : BitVec 32) :
    (mt.Clash (mt.routing index) ∧ ∃ s ∈ mt.mSegmentList, mt.getRoutingTable index d = .error (.incoherent s)) ∨
    (¬ mt.Clash (mt.routing index) ∧ ∃ t, mt.getRoutingTable index d = .ok t ∧ mt.Decodes (mt.routing index) d t) := by
  have hbits := IntTab.bits_succ hi
  have hle := hl.bits_le (by omega : index.level + 1 ≤ mt.mLevelAddrBits.level)
  have hbefore := hl.sum_toNat hi.le
  have hgetD := IntTab.getD_of_lt hi
  have hnarrow : (mt.mLevelAddrBits.mValues.getD index.level (-1)).toNat ≤ 28 := hat
  generalize hat : mt.mLevelAddrBits.mValues.getD index.level (-1) = bitsAt at hgetD hnarrow
  rw [← hgetD] at hbits
  have hwidth := mt.mAddrWidth.isLt
  have hdrop : (mt.mAddrWidth - bitsAt - mt.mLevelAddrBits.sum index.level).toNat =
      mt.mAddrWidth.toNat - mt.mLevelAddrBits.bits (index.level + 1) := by
    rw [BitVec.toNat_sub, BitVec.toNat_sub, hbefore]
    omega
  have hlt : bitsAt.toNat < 32 := by omega
  obtain ⟨adt, hadt, h1, h2⟩ := AddressDecodingTable.init_eq (α := BitVec 32) hlt
    (AddressDecodingTable.allocates_int_iff.mpr hnarrow)
  obtain ⟨done, hdone, h3, h4⟩ := AddressDecodingTable.init_eq (α := Bool) hlt
    (AddressDecodingTable.allocates_bool_iff.mpr (by omega))
  have huse : (mt.routing index).useBits = bitsAt.toNat := congrArg BitVec.toNat hat
  have hr : r ≤ (mt.routing index).dropBits := by
    show r ≤ mt.mAddrWidth.toNat - mt.mLevelAddrBits.bits (index.level + 1)
    omega
  have hfill := decodes_fillWith (k := mt.routing index) (d := d) hz hst.walk hr
    (by rw [huse]; omega) (fun s => component s.mTargetIndex index.level)
    (fun s hs _ => component_eq (by rw [hst.level s hs]; exact hi))
    (holds_reset (by rw [huse]; exact h1) (h2.trans hdrop) (by rw [huse]; exact h3) (h4.trans hdrop))
  have heq : mt.getRoutingTable index d =
      (mt.fillWith (mt.routing index).keep (fun s => component s.mTargetIndex index.level)
        ⟨adt.reset d, done.reset false⟩).map Tables.adt := by
    simp only [getRoutingTable, component_eq hi, hat, hadt, hdone, lift, bind, Except.bind, pure, Except.pure, routing]
    cases mt.fillWith (fun s => s.mTargetIndex.idMatches index) (fun s => component s.mTargetIndex index.level)
      ⟨adt.reset d, done.reset false⟩ <;> rfl
  rw [heq]
  rcases hfill with ⟨hclash, s, hs, he⟩ | ⟨hno, p, hp, hdec⟩
  · exact .inl ⟨hclash, s, hs, by rw [he]; rfl⟩
  · exact .inr ⟨hno, p.adt, by rw [hp]; rfl, hdec⟩

/-- The `int`s of a level of more than 28 bits cannot be allocated. -/
theorem routing_narrow (hi : index.level < mt.mLevelAddrBits.level) {d : BitVec 32}
    {t : AddressDecodingTable (BitVec 32)} (h : mt.getRoutingTable index d = .ok t) : (mt.routing index).useBits ≤ 28 := by
  apply AddressDecodingTable.allocates_int_iff.mp
  simp only [getRoutingTable, component_eq hi, bind, Except.bind] at h
  cases hadt : AddressDecodingTable.init (α := BitVec 32) (mt.mLevelAddrBits.mValues.getD index.level (-1))
      (mt.mAddrWidth - mt.mLevelAddrBits.mValues.getD index.level (-1) - mt.mLevelAddrBits.sum index.level) with
  | error e =>
    rw [hadt] at h
    cases h
  | ok adt => exact AddressDecodingTable.allocates_of_init hadt

/-- A locality table is built unless two segments clash in it. -/
theorem getLocalityTable_eq (hz : mt.Sized r) (hl : Layered r mt) (hst : Stored r mt)
    (hi : index.level ≤ mt.mLevelAddrBits.level) (hsum : mt.mLevelAddrBits.bits index.level ≤ 30)
    (hno : ¬ mt.Clash (mt.locality index)) :
    ∃ t, mt.getLocalityTable index = .ok t ∧ mt.Decodes (mt.locality index) true t := by
  have hle := hl.bits_le hi
  have hnbits := hl.sum_toNat hi
  have hwidth := mt.mAddrWidth.isLt
  have hdrop : (mt.mAddrWidth - mt.mLevelAddrBits.sum index.level).toNat =
      mt.mAddrWidth.toNat - mt.mLevelAddrBits.bits index.level := by
    rw [BitVec.toNat_sub, hnbits]
    omega
  have hsum' : (mt.mLevelAddrBits.sum index.level).toNat ≤ 30 := hnbits.trans_le hsum
  obtain ⟨adt, hadt, h1, h2⟩ := AddressDecodingTable.init_eq (α := Bool) (by omega : _ < 32)
    (AddressDecodingTable.allocates_bool_iff.mpr hsum')
  rw [hnbits] at h1
  have hr : r ≤ (mt.locality index).dropBits := by
    show r ≤ mt.mAddrWidth.toNat - mt.mLevelAddrBits.bits index.level
    omega
  have hfill := decodes_fillWith (k := mt.locality index) (d := true) hz hst.walk hr hsum
    (fun s => .ok (s.mTargetIndex.idMatches index)) (fun _ _ _ => rfl)
    (holds_reset h1 (h2.trans hdrop) h1 (h2.trans hdrop))
  rcases hfill with ⟨hclash, -⟩ | ⟨-, p, hp, hdec⟩
  · exact absurd hclash hno
  · refine ⟨p.adt, ?_, hdec⟩
    have hp' : mt.fillWith (fun _ => true) (fun s => .ok (s.mTargetIndex.idMatches index))
        ⟨adt.reset true, adt.reset false⟩ = .ok p := hp
    simp only [getLocalityTable, hadt, lift, bind, Except.bind, hp', pure, Except.pure]

/-! ### The locality table follows from the routing tables -/

/-- A segment of the prefix and one outside it, with addresses of one slice,
clash in the routing table of the level at which the second leaves the prefix. -/
theorem clash_of_slice (hl : Layered r mt) (hst : Stored r mt) (hi : index.level ≤ mt.mLevelAddrBits.level)
    {s t : Segment} (hs : s ∈ mt.mSegmentList) (ht : t ∈ mt.mSegmentList) {a b : BitVec 32}
    (ha : s.contains a = true) (hb : t.contains b = true) (hin : s.mTargetIndex.idMatches index = true)
    (hout : t.mTargetIndex.idMatches index = false)
    (hslice : field (mt.locality index).useBits (mt.locality index).dropBits a =
      field (mt.locality index).useBits (mt.locality index).dropBits b) :
    ∃ j < index.level, mt.Clash (mt.routing (index.take j)) := by
  have hls := hst.level s hs
  have hlt := hst.level t ht
  rw [IntTab.idMatches_iff] at hin
  -- the first level at which `t` leaves the prefix
  have hleaves : ∃ n, n < index.level ∧ t.mTargetIndex.get n ≠ index.get n := by
    rw [← Bool.not_eq_true, IntTab.idMatches_iff] at hout
    push Not at hout
    obtain ⟨n, -, hn, hne⟩ := hout
    exact ⟨n, hn, hne⟩
  obtain ⟨hj, hne⟩ := Nat.find_spec hleaves
  have hbefore : ∀ m < Nat.find hleaves, t.mTargetIndex.get m = index.get m := by
    intro m hm
    by_contra hmne
    exact Nat.find_min hleaves hm ⟨by omega, hmne⟩
  generalize Nat.find hleaves = j at hj hne hbefore
  have hlevel : (index.take j).level = j := IntTab.level_take hj.le
  refine ⟨j, hj, s, hs, t, ht, ?_, ?_, ?_, a, b, ha, hb, ?_⟩
  · refine IntTab.idMatches_iff.mpr fun m hm hm' => ?_
    rw [hlevel] at hm'
    rw [IntTab.get_take hm' hj.le]
    exact hin m hm (by omega)
  · refine IntTab.idMatches_iff.mpr fun m hm hm' => ?_
    rw [hlevel] at hm'
    rw [IntTab.get_take hm' hj.le]
    exact hbefore m hm'
  · show s.mTargetIndex.mValues.getD (index.take j).level (-1) ≠ t.mTargetIndex.mValues.getD (index.take j).level (-1)
    rw [hlevel]
    intro he
    apply hne
    have hget : ∀ x : IntTab, j < x.level → x.get j = some (x.mValues.getD j (-1)) := by
      intro x hx
      rw [IntTab.get, if_neg (by omega)]
    rw [← hin j (by omega) hj, hget _ (by omega), hget _ (by omega), he]
  · have hjl : j < mt.mLevelAddrBits.level := lt_of_lt_of_le hj hi
    have hbits := IntTab.bits_succ hjl
    have hle := hl.bits_le hi
    have hmono := IntTab.bits_mono (t := mt.mLevelAddrBits) (by omega : j + 1 ≤ index.level)
    rw [← IntTab.getD_of_lt hjl] at hbits
    apply AddressDecodingTable.field_eq_of_field_eq _ _ hslice
    · show mt.mAddrWidth.toNat - mt.mLevelAddrBits.bits index.level ≤
        mt.mAddrWidth.toNat - mt.mLevelAddrBits.bits ((index.take j).level + 1)
      rw [hlevel]
      omega
    · show mt.mAddrWidth.toNat - mt.mLevelAddrBits.bits ((index.take j).level + 1) +
          (mt.mLevelAddrBits.mValues.getD (index.take j).level (-1)).toNat ≤
        mt.mAddrWidth.toNat - mt.mLevelAddrBits.bits index.level + mt.mLevelAddrBits.bits index.level
      rw [hlevel]
      omega

/-- If the routing tables of all shorter prefixes can be built, no two segments
clash in the locality table. -/
theorem not_clash_locality (hz : mt.Sized r) (hl : Layered r mt) (hst : Stored r mt)
    (hi : index.level ≤ mt.mLevelAddrBits.level)
    (hroute : ∀ j < index.level, ∃ d t, mt.getRoutingTable (index.take j) d = .ok t) :
    ¬ mt.Clash (mt.locality index) := by
  have hnone : ∀ j < index.level, ¬ mt.Clash (mt.routing (index.take j)) := by
    intro j hj hclash
    obtain ⟨d, t, ht⟩ := hroute j hj
    have hlevel : (index.take j).level < mt.mLevelAddrBits.level := by
      rw [IntTab.level_take hj.le]
      omega
    rcases getRoutingTable_eq hz hl hst hlevel (routing_narrow hlevel ht) d with ⟨-, s, -, he⟩ | ⟨hno, -⟩
    · rw [ht] at he
      cases he
    · exact hno hclash
  rintro ⟨s, hs, t, ht, -, -, hne, a, b, ha, hb, hslice⟩
  have hval : s.mTargetIndex.idMatches index ≠ t.mTargetIndex.idMatches index := hne
  cases hms : s.mTargetIndex.idMatches index with
  | true =>
    have hmt : t.mTargetIndex.idMatches index = false := by
      rw [hms] at hval
      simpa using hval.symm
    obtain ⟨j, hj, hclash⟩ := clash_of_slice hl hst hi hs ht ha hb hms hmt hslice
    exact hnone j hj hclash
  | false =>
    have hmt : t.mTargetIndex.idMatches index = true := by
      rw [hms] at hval
      simpa using hval.symm
    obtain ⟨j, hj, hclash⟩ := clash_of_slice hl hst hi ht hs hb ha hmt hms hslice.symm
    exact hnone j hj hclash

end Builders

/-! ### Tables built by the constructor and `add` -/

section Built

variable {addrWidth mask : BitVec 32} {levelAddrBits index : IntTab} {useBits dropBits r : ℕ} {mt : MappingTable}
  {segs : List Segment}

/-- A table built with walkable segments has its levels above its blocks, if
they are in the address. -/
theorem built (hm : IsMask mask useBits dropBits) (hnew : new addrWidth levelAddrBits mask = .ok mt)
    (hr : mt.mRtSize.toNat = 2 ^ r) (hfit : levelAddrBits.bits 10 ≤ addrWidth.toNat)
    (hsegs : ∀ seg ∈ segs, Walkable r seg) :
    (mt.adds segs).Made addrWidth levelAddrBits mask r ∧ Layered r (mt.adds segs) ∧ Stored r (mt.adds segs) := by
  obtain ⟨-, hnil, hmade⟩ := made_of_new hm hnew
  obtain rfl : r = min dropBits (addrWidth - levelAddrBits.sum 10).toNat :=
    Nat.pow_right_injective le_rfl (hr.symm.trans hmade.eq)
  obtain ⟨hmade', hst⟩ := adds_stored hmade hnil hsegs
  refine ⟨hmade', ⟨?_⟩, hst⟩
  have hwidth := addrWidth.isLt
  have hsum : (levelAddrBits.sum 10).toNat = levelAddrBits.bits 10 := IntTab.sum_toNat (by omega)
  have hx : (addrWidth - levelAddrBits.sum 10).toNat = addrWidth.toNat - levelAddrBits.bits 10 := by
    rw [BitVec.toNat_sub, hsum]
    omega
  rw [hmade'.levelAddrBits, hmade'.addrWidth, hx]
  omega

/-- **A routing table decodes the segments of its prefix.** For every layout of
levels in the address, every sequence of calls of `add` with walkable segments,
every prefix shorter than the levels, with at most 28 bits at its level, and
every default: `getRoutingTable` throws if two segments of the prefix with different components
have addresses of the same routing bits; else its table gives every address the
component of the segments of the prefix with an address of its routing bits, and
the default if there is none. -/
theorem routing_spec (hm : IsMask mask useBits dropBits) (hnew : new addrWidth levelAddrBits mask = .ok mt)
    (hr : mt.mRtSize.toNat = 2 ^ r) (hfit : levelAddrBits.bits 10 ≤ addrWidth.toNat)
    (hsegs : ∀ seg ∈ segs, Walkable r seg) (hi : index.level < levelAddrBits.level)
    (hat : (levelAddrBits.mValues.getD index.level (-1)).toNat ≤ 28) (defaultIndex : BitVec 32) :
    ((mt.adds segs).Clash ((mt.adds segs).routing index) ∧
      ∃ s ∈ (mt.adds segs).mSegmentList, (mt.adds segs).getRoutingTable index defaultIndex = .error (.incoherent s)) ∨
    (¬ (mt.adds segs).Clash ((mt.adds segs).routing index) ∧
      ∃ t, (mt.adds segs).getRoutingTable index defaultIndex = .ok t ∧
        (mt.adds segs).Decodes ((mt.adds segs).routing index) defaultIndex t) := by
  obtain ⟨hmade, hl, hst⟩ := built hm hnew hr hfit hsegs
  have hat' : ((mt.adds segs).routing index).useBits ≤ 28 := by
    show ((mt.adds segs).mLevelAddrBits.mValues.getD index.level (-1)).toNat ≤ 28
    rwa [hmade.levelAddrBits]
  exact getRoutingTable_eq hmade.toSized hl hst (by rwa [hmade.levelAddrBits]) hat' defaultIndex

/-- **Locality and routing tables agree.** For every layout of levels of at most
30 bits in all and every sequence of calls of `add`: if the routing tables of
all prefixes of `index` shorter than it can be built, its locality table can,
and tells of every address of a segment whether the segment's index matches. -/
theorem locality_agrees (hm : IsMask mask useBits dropBits) (hnew : new addrWidth levelAddrBits mask = .ok mt)
    (hr : mt.mRtSize.toNat = 2 ^ r) (hsum : levelAddrBits.bits 10 ≤ 30)
    (hsegs : ∀ seg ∈ segs, 0 < seg.mSize.toNat ∧ seg.mBaseAddress.toNat + seg.mSize.toNat ≤ 2 ^ 32 - 2 ^ r)
    (hi : index.level ≤ levelAddrBits.level)
    (hroute : ∀ j < index.level, ∃ d t, (mt.adds segs).getRoutingTable (index.take j) d = .ok t) :
    ∃ t, (mt.adds segs).getLocalityTable index = .ok t ∧
      ∀ s ∈ (mt.adds segs).mSegmentList, ∀ a, s.contains a = true →
        (t.get a = true ↔ s.mTargetIndex.idMatches index = true) := by
  obtain ⟨hx, -, hmade⟩ := made_of_new hm hnew
  have hpos : 0 < 2 ^ r := Nat.two_pow_pos r
  have hrt : 2 ^ r < 2 ^ 32 := hr ▸ mt.mRtSize.isLt
  have hwalk : ∀ seg ∈ segs, Walkable r seg := by
    intro seg hseg
    obtain ⟨hn, hend⟩ := hsegs seg hseg
    exact ⟨⟨hn, by omega⟩, .inr (by omega)⟩
  have hfit : levelAddrBits.bits 10 ≤ addrWidth.toNat := by
    have hwidth := addrWidth.isLt
    rw [BitVec.toNat_sub, IntTab.sum_toNat (by omega)] at hx
    omega
  obtain ⟨hmade', hl, hst⟩ := built hm hnew hr hfit hwalk
  have hi' : index.level ≤ (mt.adds segs).mLevelAddrBits.level := by rwa [hmade'.levelAddrBits]
  have hbits : (mt.adds segs).mLevelAddrBits.bits index.level ≤ 30 := by
    have hlevel : levelAddrBits.level ≤ 9 := levelAddrBits.length_le
    rw [hmade'.levelAddrBits]
    exact (IntTab.bits_mono (by omega)).trans hsum
  obtain ⟨t, ht, hdec⟩ := getLocalityTable_eq hmade'.toSized hl hst hi' hbits
    (not_clash_locality hmade'.toSized hl hst hi' hroute)
  refine ⟨t, ht, fun s hs a ha => ?_⟩
  rw [hdec.value a s hs rfl ⟨a, ha, rfl⟩]
  exact Iff.rfl

end Built

/-! ### A table of two levels -/

/-- Four bits of address for the cluster, four for the target. -/
def twoLevels : IntTab := ⟨[4, 4], by decide, by simp⟩

theorem index_ne_end : ∀ i : Fin 16, BitVec.ofNat 32 i ≠ -1 := by decide

def indexOf (cluster target : Fin 16) : IntTab :=
  ⟨[.ofNat 32 cluster, .ofNat 32 target], by simp, by simpa using ⟨index_ne_end cluster, index_ne_end target⟩⟩

/-- The segments of two targets in cluster 1, and of one in cluster 2. -/
def clusterSegments : List Segment := [
  { mBaseAddress := 0x12000000, mSize := 0x10000, mName := "RAM",
    mTargetIndex := indexOf 1 2, mCacheability := true },
  { mBaseAddress := 0x13000000, mSize := 0x1000, mName := "ROM",
    mTargetIndex := indexOf 1 3, mCacheability := true },
  { mBaseAddress := 0x20000000, mSize := 0x10, mName := "TTY",
    mTargetIndex := indexOf 2 0, mCacheability := true }]

/-- A table of two levels. -/
def clustered : MappingTable where
  mSegmentList := []
  mAddrWidth := 32
  mLevelAddrBits := twoLevels
  mCacheabilityMask := 0x80000000
  mRtSize := 0x1000000

/-- The prefix of cluster 1. -/
def cluster1 : IntTab := ⟨[1], by decide, by simp⟩

theorem mask_clustered : IsMask 0x80000000 1 31 := ⟨by decide, by decide, by decide⟩

theorem new_clustered : new 32 twoLevels 0x80000000 = .ok clustered := rfl

theorem walkable_clustered : ∀ seg ∈ clusterSegments, Walkable 24 seg := by
  intro seg hseg
  simp only [clusterSegments, List.mem_cons, List.not_mem_nil, or_false] at hseg
  rcases hseg with rfl | rfl | rfl
  all_goals exact ⟨⟨by decide, by decide⟩, .inl (by decide)⟩

/-- `add` takes all three. -/
theorem stored_clustered : (clustered.adds clusterSegments).mSegmentList = clusterSegments := by
  decide +kernel

/-- The high bits of an address are the index of its segment. -/
theorem field_clustered {s : Segment} (hs : s ∈ clusterSegments) {a : BitVec 32} (ha : s.contains a = true) :
    field 4 28 a = (s.mTargetIndex.mValues.getD 0 (-1)).toNat ∧
      field 4 24 a = (s.mTargetIndex.mValues.getD 1 (-1)).toNat := by
  have hp := (walkable_clustered s hs).toProper
  rw [hp.contains_iff, hp.endAddress_toNat] at ha
  simp only [clusterSegments, List.mem_cons, List.not_mem_nil, or_false] at hs
  rcases hs with rfl | rfl | rfl
  all_goals
    simp only [BitVec.reduceToNat] at ha
    simp only [field, indexOf, List.getD_cons_zero, List.getD_cons_succ, BitVec.toNat_ofNat, Fin.coe_ofNat_eq_mod]
    omega

theorem not_clash_clustered (index : IntTab) (hi : index.level < 2) :
    ¬ (clustered.adds clusterSegments).Clash ((clustered.adds clusterSegments).routing index) := by
  apply not_clash_of_field (f := BitVec.toNat) fun _ _ => BitVec.eq_of_toNat_eq
  intro s hs _ a ha
  rw [stored_clustered] at hs
  obtain ⟨hcluster, htarget⟩ := field_clustered hs ha
  obtain h0 | h1 : index.level = 0 ∨ index.level = 1 := by omega
  · simp only [routing, h0]
    exact hcluster
  · simp only [routing, h1]
    exact htarget

/-- The targets of cluster 1 have their addresses, and the default has the others. -/
theorem routing_clustered : ∃ t, (clustered.adds clusterSegments).getRoutingTable cluster1 7 = .ok t ∧
    t.get 0x1200FFFF = 2 ∧ t.get 0x13000000 = 3 := by
  rcases routing_spec (r := 24) mask_clustered new_clustered (by decide) (by decide) walkable_clustered
    (show cluster1.level < twoLevels.level by decide) (by decide) 7 with ⟨hclash, -⟩ | ⟨-, t, ht, hdec⟩
  · exact absurd hclash (not_clash_clustered cluster1 (by decide))
  · have hmem : ∀ s ∈ clusterSegments, s ∈ (clustered.adds clusterSegments).mSegmentList := by
      intro s hs
      rwa [stored_clustered]
    refine ⟨t, ht, ?_, ?_⟩
    · exact hdec.value 0x1200FFFF _ (hmem _ List.mem_cons_self) (by decide) ⟨0x1200FFFF, by decide, rfl⟩
    · exact hdec.value 0x13000000 _ (hmem _ (List.mem_cons_of_mem _ List.mem_cons_self)) (by decide)
        ⟨0x13000000, by decide, rfl⟩

/-- For cluster 1 its own segments are local, and that of cluster 2 is not. -/
theorem locality_clustered : ∃ t, (clustered.adds clusterSegments).getLocalityTable cluster1 = .ok t ∧
    t.get 0x1200FFFF = true ∧ t.get 0x13000000 = true ∧ t.get 0x20000000 ≠ true := by
  have hrt : clustered.mRtSize.toNat = 2 ^ 24 := by decide
  obtain ⟨hmade, hl, hst⟩ := built mask_clustered new_clustered hrt (by decide) walkable_clustered
  have hroute : ∀ j < cluster1.level, ∃ d t,
      (clustered.adds clusterSegments).getRoutingTable (cluster1.take j) d = .ok t := by
    intro j hj
    have hlevel : (cluster1.take j).level < 1 := by
      rw [IntTab.level_take hj.le]
      exact hj
    have h0 : (cluster1.take j).level = 0 := by omega
    have hbits : ((clustered.adds clusterSegments).routing (cluster1.take j)).useBits ≤ 28 := by
      show ((clustered.adds clusterSegments).mLevelAddrBits.mValues.getD (cluster1.take j).level (-1)).toNat ≤ 28
      rw [h0, hmade.levelAddrBits]
      decide
    have hlevel' : (cluster1.take j).level < (clustered.adds clusterSegments).mLevelAddrBits.level := by
      rw [h0, hmade.levelAddrBits]
      decide
    rcases getRoutingTable_eq hmade.toSized hl hst hlevel' hbits 0 with ⟨hclash, -⟩ | ⟨-, t, ht, -⟩
    · exact absurd hclash (not_clash_clustered _ (by omega))
    · exact ⟨0, t, ht⟩
  have hsegs : ∀ seg ∈ clusterSegments,
      0 < seg.mSize.toNat ∧ seg.mBaseAddress.toNat + seg.mSize.toNat ≤ 2 ^ 32 - 2 ^ 24 := by
    decide
  obtain ⟨t, ht, hall⟩ :=
    locality_agrees mask_clustered new_clustered hrt (by decide) hsegs (by decide : cluster1.level ≤ _) hroute
  rw [stored_clustered] at hall
  refine ⟨t, ht, ?_, ?_, ?_⟩
  · exact (hall _ List.mem_cons_self 0x1200FFFF (by decide)).mpr (by decide)
  · exact (hall _ (List.mem_cons_of_mem _ List.mem_cons_self) 0x13000000 (by decide)).mpr (by decide)
  · intro hlocal
    have := (hall _ (List.mem_cons_of_mem _ (List.mem_cons_of_mem _ List.mem_cons_self)) 0x20000000 (by decide)).mp hlocal
    revert this
    decide

/-- One level of 29 bits: there is no routing table, though no segments clash. -/
theorem routing_wide : ∃ mt, new 32 ⟨[29], by decide, by simp⟩ 0x80000000 = .ok mt ∧
    ¬ (mt.adds []).Clash ((mt.adds []).routing (cluster1.take 0)) ∧
    (mt.adds []).getRoutingTable (cluster1.take 0) 0 = .error (.table .badArrayNewLength) := by
  refine ⟨_, rfl, ?_, rfl⟩
  rintro ⟨s, hs, -⟩
  cases hs

end MappingTable
end Tp2
end Smc
