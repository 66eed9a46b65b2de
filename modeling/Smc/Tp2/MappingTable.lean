/-
# The mapping table of TP2

`MappingTable` (`TP2/TP2_etudiant/mapping_table.cpp`) holds the segments of a
platform. `add` refuses a segment that bumps into another or whose
cacheability another contradicts; the three builders make address decoding
tables from the segments: cacheability, locality, routing. All of them walk a
segment in blocks of `m_rt_size` addresses, from the block of its first
address on, in 32-bit words.

The builders are one loop with different fields, defaults and values
(`fillWith`). Such a loop fails exactly when two segments give different
values to addresses of one field, and else makes the table of all of them
(`decodes_fillWith`).

Key definitions: `new`, `add`, `fillWith`, `getCacheabilityTable`,
`getLocalityTable`, `getRoutingTable`, `Clash`, `Decodes`.
Key theorems: `forBlocks_segment`, `decodes_fillWith`.
-/
import Smc.Lib.Blocks
import Smc.Lib.SlotTable
import Smc.Tp2.AddressMaskingTable
import Smc.Tp2.Segment

namespace Smc
namespace Tp2

open AddressDecodingTable (TableError field)

/-- The exceptions, with the segments that their messages show. -/
inductive Failure where
  /-- `ValueError`: not the same level as the mapping table -/
  | notSameLevel (seg : Segment)
  /-- `Collision`: `seg` bumps in `s` -/
  | bumps (seg s : Segment)
  /-- `RunTimeError`: a different cacheability attribute with same MSBs -/
  | differentCacheability (s seg : Segment)
  /-- `RunTimeError`: incoherent mapping table -/
  | incoherent (seg : Segment)
  /-- `ValueError`: level out of bounds -/
  | levelOutOfBounds
  | table (e : TableError)
deriving DecidableEq

/-- The identifiers of initiators (`m_level_id_bits`) are left out. -/
structure MappingTable where
  mSegmentList : List Segment
  mAddrWidth : BitVec 32
  mLevelAddrBits : IntTab
  mCacheabilityMask : BitVec 32
  mRtSize : BitVec 32

namespace MappingTable

/-! ### The functions -/

/-- What a table of a builder can fail with is one of its failures. -/
def lift {α : Type} (x : Except TableError α) : Except Failure α :=
  match x with
  | .ok a => .ok a
  | .error e => .error (.table e)

/-- `1 << n`. -/
def shl1 (n : BitVec 32) : Except Failure (BitVec 32) :=
  if n.toNat < 32 then .ok ((1 : BitVec 32) <<< n.toNat) else .error (.table .undefined)

/-- The constructor. -/
def new (addrWidth : BitVec 32) (levelAddrBits : IntTab) (cacheabilityMask : BitVec 32) : Except Failure MappingTable := do
  let rtSize ← shl1 (addrWidth - levelAddrBits.sum 10)
  let amt ← lift (AddressMaskingTable.ofMask cacheabilityMask)
  let cmRtSize ← shl1 (BitVec.ofNat 32 amt.getDrop)
  pure {
    mSegmentList := []
    mAddrWidth := addrWidth
    mLevelAddrBits := levelAddrBits
    mCacheabilityMask := cacheabilityMask
    mRtSize := if cmRtSize ≤ rtSize then cmRtSize else rtSize }

variable (mt : MappingTable)

/-- The block of a segment's first address. -/
def firstBlock (s : Segment) : BitVec 32 := s.mBaseAddress &&& ~~~(mt.mRtSize - 1)

/-- The loop over the blocks of a segment. -/
def forBlocks {S : Type} (s : Segment) (body : S → BitVec 32 → Except Failure S) (x : S) : Except Failure S :=
  Blocks.forBlocks mt.mRtSize (mt.firstBlock s) s.endAddress (.table .diverges) body (2 ^ 32 + 1) (mt.firstBlock s) x

/-- The checks of `add` against one stored segment. -/
def checkAgainst (seg s : Segment) : Except Failure Unit :=
  if s.isOverlapping seg then .error (.bumps seg s)
  else mt.forBlocks s (fun _ address =>
    mt.forBlocks seg (fun _ segaddress =>
      if mt.mCacheabilityMask &&& address = mt.mCacheabilityMask &&& segaddress ∧ s.mCacheability ≠ seg.mCacheability
      then .error (.differentCacheability s seg) else .ok ()) ()) ()

/-- `add`: what it returns or throws, and the table after it. -/
def add (seg : Segment) : Except Failure Unit × MappingTable :=
  if seg.mTargetIndex.level ≠ mt.mLevelAddrBits.level then (.error (.notSameLevel seg), mt)
  else
    match mt.mSegmentList.forM (mt.checkAgainst seg) with
    | .error e => (.error e, mt)
    | .ok () => (.ok (), { mt with mSegmentList := mt.mSegmentList ++ [seg] })

/-- A table under construction, and its marks. -/
structure Tables (β : Type) where
  adt : AddressDecodingTable β
  done : AddressDecodingTable Bool

section Builders

variable {β : Type} [DecidableEq β]

/-- The body of the builders' loops. -/
def mark (s : Segment) (val : β) (p : Tables β) (addr : BitVec 32) : Except Failure (Tables β) :=
  if p.done.get addr ∧ p.adt.get addr ≠ val then .error (.incoherent s)
  else .ok { adt := p.adt.set addr val, done := p.done.set addr true }

/-- The loops of the builders: over the segments to keep, and their blocks. -/
def fillWith (keep : Segment → Bool) (val : Segment → Except Failure β) (p : Tables β) : Except Failure (Tables β) :=
  mt.mSegmentList.foldlM (fun p s =>
    if keep s then
      mt.forBlocks s (fun p addr =>
        match val s with
        | .error e => .error e
        | .ok v => mark s v p addr) p
    else .ok p) p

end Builders

def getCacheabilityTable : Except Failure (AddressDecodingTable Bool) := do
  let adt ← lift (AddressDecodingTable.ofMask mt.mCacheabilityMask)
  let done ← lift (AddressDecodingTable.ofMask mt.mCacheabilityMask)
  let p ← mt.fillWith (fun _ => true) (fun s => .ok s.mCacheability) ⟨adt.reset false, done.reset false⟩
  pure p.adt

def getLocalityTable (index : IntTab) : Except Failure (AddressDecodingTable Bool) := do
  let nbits := mt.mLevelAddrBits.sum index.level
  let adt ← lift (AddressDecodingTable.init nbits (mt.mAddrWidth - nbits))
  let done ← lift (AddressDecodingTable.init nbits (mt.mAddrWidth - nbits))
  let p ← mt.fillWith (fun _ => true) (fun s => .ok (s.mTargetIndex.idMatches index)) ⟨adt.reset true, done.reset false⟩
  pure p.adt

/-- A component of an index. -/
def component (t : IntTab) (level : ℕ) : Except Failure (BitVec 32) :=
  match t.get level with
  | none => .error .levelOutOfBounds
  | some v => .ok v

def getRoutingTable (index : IntTab) (defaultIndex : BitVec 32) : Except Failure (AddressDecodingTable (BitVec 32)) := do
  let before := mt.mLevelAddrBits.sum index.level
  let at' ← component mt.mLevelAddrBits index.level
  let adt ← lift (AddressDecodingTable.init at' (mt.mAddrWidth - at' - before))
  let done ← lift (AddressDecodingTable.init at' (mt.mAddrWidth - at' - before))
  let p ← mt.fillWith (fun s => s.mTargetIndex.idMatches index) (fun s => component s.mTargetIndex index.level)
    ⟨adt.reset defaultIndex, done.reset false⟩
  pure p.adt

/-! ### The walk over a segment -/

/-- `m_rt_size` is a power of two. -/
structure Sized (r : ℕ) : Prop where
  le : r ≤ 31
  eq : mt.mRtSize.toNat = 2 ^ r

/-- A segment that the builders walk over to its end: it has an address, ends
in the address space, and its walk does not come round to its own start. -/
structure Walkable (r : ℕ) (s : Segment) : Prop extends s.Proper where
  ends : 2 ^ r ≤ s.mBaseAddress.toNat ∨ s.mBaseAddress.toNat + s.mSize.toNat + 2 ^ r ≤ 2 ^ 32

/-- The blocks of a segment. -/
def blocksOf (r : ℕ) (s : Segment) : List (BitVec 32) :=
  Blocks.blocks 32 r (s.mBaseAddress.toNat / 2 ^ r * 2 ^ r) s.endAddress.toNat

variable {mt} {r : ℕ} {s : Segment}

theorem Sized.firstBlock_toNat (h : mt.Sized r) :
    (mt.firstBlock s).toNat = s.mBaseAddress.toNat / 2 ^ r * 2 ^ r := by
  have hle := h.le
  have hlt : 2 ^ r < 2 ^ 32 := Nat.pow_lt_pow_right (by decide) (by omega)
  have hpos : 0 < 2 ^ r := Nat.two_pow_pos r
  have hmask : (mt.mRtSize - 1).toNat = 2 ^ r - 1 := by
    rw [BitVec.toNat_sub, h.eq]
    show (2 ^ 32 - 1 + 2 ^ r) % 2 ^ 32 = 2 ^ r - 1
    omega
  apply Nat.eq_of_testBit_eq
  intro i
  have hrhs : s.mBaseAddress.toNat / 2 ^ r * 2 ^ r = s.mBaseAddress.toNat >>> r <<< r := by
    rw [Nat.shiftLeft_eq, Nat.shiftRight_eq_div_pow]
  rw [hrhs, Nat.testBit_shiftLeft, Nat.testBit_shiftRight, BitVec.testBit_toNat, firstBlock, BitVec.getLsbD_and,
    BitVec.getLsbD_not, ← BitVec.testBit_toNat (mt.mRtSize - 1), hmask, Nat.testBit_two_pow_sub_one,
    ← BitVec.testBit_toNat]
  by_cases hi : r ≤ i
  · have hsame : r + (i - r) = i := by omega
    have hout : 32 ≤ i → s.mBaseAddress.toNat.testBit i = false := by
      intro h32
      exact Nat.testBit_lt_two_pow (s.mBaseAddress.isLt.trans_le (Nat.pow_le_pow_right (by decide) h32))
    have hir : ¬ i < r := by omega
    by_cases h32 : i < 32
    · simp [hi, hsame, h32, hir]
    · simp [hi, hsame, hout (by omega)]
  · have hir : i < r := by omega
    simp [hi, hir]

/-- The loop over the blocks of a walkable segment is a loop over a list. -/
theorem forBlocks_segment (h : mt.Sized r) (hs : Walkable r s) {S : Type} (body : S → BitVec 32 → Except Failure S)
    (x : S) : mt.forBlocks s body x = (blocksOf r s).foldlM body x := by
  have hpos : 0 < 2 ^ r := Nat.two_pow_pos r
  have hle := h.le
  have hlo := h.firstBlock_toNat (s := s)
  have hend := hs.endAddress_toNat
  rw [forBlocks, Blocks.forBlocks_eq h.eq (by omega), blocksOf, hlo]
  · rw [hlo]
    exact Dvd.intro_left _ rfl
  · rcases hs.ends with hbase | hfar
    · left
      have : 1 ≤ s.mBaseAddress.toNat / 2 ^ r := (Nat.one_le_div_iff hpos).mpr hbase
      rw [hlo]
      exact Nat.mul_pos this hpos
    · right
      rw [hend]
      exact hfar

/-- What holds for a block of the segment holds for one of its addresses. -/
theorem exists_blocksOf_iff (hs : s.Proper) (P : ℕ → Prop) :
    (∃ b ∈ blocksOf r s, P (b.toNat / 2 ^ r)) ↔ ∃ a, s.contains a = true ∧ P (a.toNat / 2 ^ r) := by
  have hend := hs.endAddress_toNat
  have hn := hs.nonempty
  have hlt := s.endAddress.isLt
  rw [blocksOf, Blocks.exists_blocks_iff hlt.le (by omega)]
  constructor
  · rintro ⟨a, h1, h2, hP⟩
    have ha : (BitVec.ofNat 32 a).toNat = a := by
      rw [BitVec.toNat_ofNat]
      exact Nat.mod_eq_of_lt (by omega)
    refine ⟨BitVec.ofNat 32 a, ?_, by rwa [ha]⟩
    rw [hs.contains_iff, ha]
    exact ⟨h1, h2⟩
  · rintro ⟨a, ha, hP⟩
    rw [hs.contains_iff] at ha
    exact ⟨a.toNat, ha.1, ha.2, hP⟩

/-- Above the blocks, the field of an address is that of its block. -/
theorem field_eq_of_le {useBits dropBits : ℕ} (hr : r ≤ dropBits) (a : BitVec 32) :
    field useBits dropBits a = a.toNat / 2 ^ r / 2 ^ (dropBits - r) % 2 ^ useBits := by
  rw [field, Nat.div_div_eq_div_mul, ← pow_add, Nat.add_sub_cancel' hr]

theorem exists_field_iff {useBits dropBits : ℕ} (hr : r ≤ dropBits) (hs : s.Proper) (P : ℕ → Prop) :
    (∃ b ∈ blocksOf r s, P (field useBits dropBits b)) ↔
      ∃ a, s.contains a = true ∧ P (field useBits dropBits a) := by
  simp only [field_eq_of_le hr]
  exact exists_blocksOf_iff hs fun q => P (q / 2 ^ (dropBits - r) % 2 ^ useBits)

/-! ### Tables made by the constructor and `add` -/

theorem shl1_eq {n : BitVec 32} (h : n.toNat < 32) : ∃ v : BitVec 32, shl1 n = .ok v ∧ v.toNat = 2 ^ n.toNat := by
  refine ⟨(1 : BitVec 32) <<< n.toNat, ?_, ?_⟩
  · rw [shl1, if_pos h]
  · rw [BitVec.toNat_shiftLeft, Nat.shiftLeft_eq]
    show 1 * 2 ^ n.toNat % 2 ^ 32 = 2 ^ n.toNat
    rw [one_mul, Nat.mod_eq_of_lt (Nat.pow_lt_pow_right (by decide) h)]

/-- A table as the constructor leaves it, but for its segments. -/
structure Made (mt : MappingTable) (addrWidth : BitVec 32) (levelAddrBits : IntTab) (cacheabilityMask : BitVec 32)
    (r : ℕ) : Prop extends mt.Sized r where
  addrWidth : mt.mAddrWidth = addrWidth
  levelAddrBits : mt.mLevelAddrBits = levelAddrBits
  cacheabilityMask : mt.mCacheabilityMask = cacheabilityMask

/-- The constructor, where its shifts are defined. -/
theorem made_new {addrWidth cacheabilityMask : BitVec 32} {levelAddrBits : IntTab} {useBits dropBits : ℕ}
    (hm : AddressDecodingTable.IsMask cacheabilityMask useBits dropBits) (hu : useBits < 32)
    (hx : (addrWidth - levelAddrBits.sum 10).toNat < 32) :
    ∃ mt, new addrWidth levelAddrBits cacheabilityMask = .ok mt ∧ mt.mSegmentList = [] ∧
      mt.Made addrWidth levelAddrBits cacheabilityMask (min dropBits (addrWidth - levelAddrBits.sum 10).toNat) := by
  have hpos := hm.pos
  have hwidth := hm.width
  have hdrop : (BitVec.ofNat 32 dropBits).toNat = dropBits := by
    rw [BitVec.toNat_ofNat]
    omega
  obtain ⟨rt, hrt, hrtn⟩ := shl1_eq hx
  obtain ⟨cm, hcm, hcmn⟩ := shl1_eq (n := BitVec.ofNat 32 dropBits) (by omega)
  rw [hdrop] at hcmn
  obtain ⟨amt, hamt, hget⟩ := AddressMaskingTable.ofMask_eq hm hu
  simp only [new, hrt, hamt, hget, lift, hcm, bind, Except.bind, pure, Except.pure]
  refine ⟨_, rfl, rfl, ⟨by omega, ?_⟩, rfl, rfl, rfl⟩
  simp only [BitVec.le_def, hrtn, hcmn, Nat.pow_le_pow_iff_right (by decide : 1 < 2)]
  split_ifs with hle
  · rw [hcmn, min_eq_left hle]
  · rw [hrtn, min_eq_right (by omega)]

/-- A table that the constructor has made has its shifts defined. -/
theorem made_of_new {addrWidth cacheabilityMask : BitVec 32} {levelAddrBits : IntTab} {useBits dropBits : ℕ}
    (hm : AddressDecodingTable.IsMask cacheabilityMask useBits dropBits)
    (hnew : new addrWidth levelAddrBits cacheabilityMask = .ok mt) :
    (addrWidth - levelAddrBits.sum 10).toNat < 32 ∧ mt.mSegmentList = [] ∧
      mt.Made addrWidth levelAddrBits cacheabilityMask (min dropBits (addrWidth - levelAddrBits.sum 10).toNat) := by
  have hx : (addrWidth - levelAddrBits.sum 10).toNat < 32 := by
    by_contra hx
    simp only [new, shl1, if_neg hx, bind, Except.bind] at hnew
    cases hnew
  have hu : useBits < 32 := by
    by_contra hu
    obtain ⟨rt, hrt, -⟩ := shl1_eq hx
    have hfail := AddressMaskingTable.ofMask_eq_error hm (not_lt.mp hu)
    simp only [new, hrt, hfail, lift, bind, Except.bind] at hnew
    cases hnew
  obtain ⟨mt', hnew', hmade⟩ := made_new hm hu hx
  rw [hnew] at hnew'
  obtain rfl : mt = mt' := Except.ok.inj hnew'
  exact ⟨hx, hmade⟩

/-- The table after some calls of `add`. -/
def adds (mt : MappingTable) (segs : List Segment) : MappingTable := segs.foldl (fun mt seg => (mt.add seg).2) mt

/-- `add` appends its segment, or changes nothing. -/
theorem add_cases (mt : MappingTable) (seg : Segment) :
    ((mt.add seg).1 = .ok () ∧ seg.mTargetIndex.level = mt.mLevelAddrBits.level ∧
      (mt.add seg).2 = { mt with mSegmentList := mt.mSegmentList ++ [seg] }) ∨
    ((∃ e, (mt.add seg).1 = .error e) ∧ (mt.add seg).2 = mt) := by
  by_cases hlevel : seg.mTargetIndex.level = mt.mLevelAddrBits.level
  · cases hcheck : mt.mSegmentList.forM (mt.checkAgainst seg) with
    | error e => exact .inr ⟨⟨e, by simp [add, hlevel, hcheck]⟩, by simp [add, hlevel, hcheck]⟩
    | ok u => exact .inl ⟨by simp [add, hlevel, hcheck], hlevel, by simp [add, hlevel, hcheck]⟩
  · exact .inr ⟨⟨.notSameLevel seg, by simp [add, hlevel]⟩, by simp [add, hlevel]⟩

/-- What holds of the stored segments is known from the calls of `add` that succeed. -/
theorem adds_inv {P : MappingTable → Prop} {Q : Segment → Prop}
    (hstep : ∀ mt seg, Q seg → P mt → (mt.add seg).1 = .ok () → P (mt.add seg).2) :
    ∀ (segs : List Segment), (∀ seg ∈ segs, Q seg) → ∀ mt, P mt → P (adds mt segs)
  | [], _, mt, h => h
  | seg :: segs, hsegs, mt, h => by
    apply adds_inv hstep segs (fun s hs => hsegs s (List.mem_cons_of_mem _ hs)) (mt.add seg).2
    rcases add_cases mt seg with ⟨hok, -⟩ | ⟨-, hsame⟩
    · exact hstep mt seg (hsegs seg List.mem_cons_self) h hok
    · rwa [hsame]

/-- Every stored segment is walkable and has the levels of the table. -/
structure Stored (r : ℕ) (mt : MappingTable) : Prop where
  walk : ∀ s ∈ mt.mSegmentList, Walkable r s
  level : ∀ s ∈ mt.mSegmentList, s.mTargetIndex.level = mt.mLevelAddrBits.level

theorem Stored.add {seg : Segment} (hseg : Walkable r seg) (h : Stored r mt) (hok : (mt.add seg).1 = .ok ()) :
    Stored r (mt.add seg).2 := by
  rcases add_cases mt seg with ⟨-, hlevel, hadd⟩ | ⟨⟨e, he⟩, -⟩
  · rw [hadd]
    constructor
    · intro s hs
      rcases List.mem_append.mp hs with hs | hs
      · exact h.walk s hs
      · rwa [List.mem_singleton.mp hs]
    · intro s hs
      rcases List.mem_append.mp hs with hs | hs
      · exact h.level s hs
      · rwa [List.mem_singleton.mp hs]
  · rw [he] at hok
    cases hok

theorem Made.add {addrWidth cacheabilityMask : BitVec 32} {levelAddrBits : IntTab}
    (h : mt.Made addrWidth levelAddrBits cacheabilityMask r) (seg : Segment) :
    (mt.add seg).2.Made addrWidth levelAddrBits cacheabilityMask r := by
  rcases add_cases mt seg with ⟨-, -, hadd⟩ | ⟨-, hadd⟩
  · rw [hadd]
    exact ⟨⟨h.le, h.eq⟩, h.addrWidth, h.levelAddrBits, h.cacheabilityMask⟩
  · rwa [hadd]

/-- A table built with walkable segments stays one. -/
theorem adds_stored {addrWidth cacheabilityMask : BitVec 32} {levelAddrBits : IntTab}
    (h : mt.Made addrWidth levelAddrBits cacheabilityMask r) (hnil : mt.mSegmentList = []) {segs : List Segment}
    (hsegs : ∀ seg ∈ segs, Walkable r seg) :
    (adds mt segs).Made addrWidth levelAddrBits cacheabilityMask r ∧ Stored r (adds mt segs) := by
  apply adds_inv (P := fun mt => mt.Made addrWidth levelAddrBits cacheabilityMask r ∧ Stored r mt) _ segs hsegs mt
  · exact ⟨h, by simp [hnil], by simp [hnil]⟩
  · intro mt seg hseg hmt hok
    exact ⟨hmt.1.add seg, hmt.2.add hseg hok⟩

/-! ### What the builders make -/

section Fill

variable {β : Type}

/-- The segments of a table that a builder looks at, the field it decodes and
the value it gives them. -/
structure Reading (β : Type) where
  keep : Segment → Bool
  useBits : ℕ
  dropBits : ℕ
  value : Segment → β

/-- Two segments give different values to addresses of one field. -/
def Clash (mt : MappingTable) (k : Reading β) : Prop :=
  ∃ s ∈ mt.mSegmentList, ∃ t ∈ mt.mSegmentList, k.keep s = true ∧ k.keep t = true ∧ k.value s ≠ k.value t ∧
    ∃ a b, s.contains a = true ∧ t.contains b = true ∧
      field k.useBits k.dropBits a = field k.useBits k.dropBits b

/-- Segments whose value is known from the field of their addresses do not clash. -/
theorem not_clash_of_field {mt : MappingTable} {k : Reading β} {f : β → ℕ} (hf : Function.Injective f)
    (h : ∀ s ∈ mt.mSegmentList, k.keep s = true → ∀ a, s.contains a = true →
      field k.useBits k.dropBits a = f (k.value s)) : ¬ mt.Clash k := by
  rintro ⟨s, hs, t, ht, hks, hkt, hne, a, b, ha, hb, hab⟩
  apply hne
  apply hf
  rw [← h s hs hks a ha, ← h t ht hkt b hb, hab]

/-- The table gives every address the value of the segments with an address of
its field, and the default if there is none. -/
structure Decodes (mt : MappingTable) (k : Reading β) (d : β) (t : AddressDecodingTable β) : Prop where
  value : ∀ a, ∀ s ∈ mt.mSegmentList, k.keep s = true →
    (∃ b, s.contains b = true ∧ field k.useBits k.dropBits b = field k.useBits k.dropBits a) → t.get a = k.value s
  rest : ∀ a, (∀ s ∈ mt.mSegmentList, k.keep s = true → ∀ b, s.contains b = true →
    field k.useBits k.dropBits b ≠ field k.useBits k.dropBits a) → t.get a = d

/-- The two tables have the field of the builder, and hold the pairs `l`. -/
structure Holds (k : Reading β) (d : β) (l : List (ℕ × β)) (p : Tables β) : Prop where
  adtUse : p.adt.mUseBits = k.useBits
  adtDrop : p.adt.mDropBits = k.dropBits
  doneUse : p.done.mUseBits = k.useBits
  doneDrop : p.done.mDropBits = k.dropBits
  fits : SlotTable.Fits d (2 ^ k.useBits) l p.adt.mTable p.done.mTable

variable {k : Reading β} {d : β} {l : List (ℕ × β)} {p : Tables β}

theorem Holds.adt_id (h : Holds k d l p) (hu : k.useBits ≤ 30) (a : BitVec 32) :
    p.adt.id a = field k.useBits k.dropBits a := by
  have huse := h.adtUse
  rw [p.adt.id_eq_field (by omega), huse, h.adtDrop]

theorem Holds.done_id (h : Holds k d l p) (hu : k.useBits ≤ 30) (a : BitVec 32) :
    p.done.id a = field k.useBits k.dropBits a := by
  have huse := h.doneUse
  rw [p.done.id_eq_field (by omega), huse, h.doneDrop]

theorem field_lt (useBits dropBits : ℕ) (a : BitVec 32) : field useBits dropBits a < 2 ^ useBits :=
  Nat.mod_lt _ (Nat.two_pow_pos _)

/-- The failures of the builders' loops. -/
def IsIncoherent (mt : MappingTable) (e : Failure) : Prop := ∃ s ∈ mt.mSegmentList, e = .incoherent s

/-- Two new tables, reset. -/
theorem holds_reset {adt : AddressDecodingTable β} {done : AddressDecodingTable Bool}
    (h1 : adt.mUseBits = k.useBits) (h2 : adt.mDropBits = k.dropBits) (h3 : done.mUseBits = k.useBits)
    (h4 : done.mDropBits = k.dropBits) : Holds k d [] ⟨adt.reset d, done.reset false⟩ where
  adtUse := h1
  adtDrop := h2
  doneUse := h3
  doneDrop := h4
  fits := {
    marked_iff := fun i hi => by simp [AddressDecodingTable.reset, h3, hi]
    value := fun i v hv => by simp at hv
    rest := fun i hi _ => by simp [AddressDecodingTable.reset, h1, hi] }

/-- The pairs a segment gives. -/
def pairs (k : Reading β) (r : ℕ) (s : Segment) : List (ℕ × β) :=
  if k.keep s then (blocksOf r s).flatMap fun b => [(field k.useBits k.dropBits b, k.value s)] else []

/-- Some segment gives a value to a slot when it has an address of that field. -/
theorem mem_pairs_iff (hwalk : ∀ s ∈ mt.mSegmentList, Walkable r s) (hr : r ≤ k.dropBits) {i : ℕ} {v : β} :
    (i, v) ∈ mt.mSegmentList.flatMap (pairs k r) ↔
      ∃ s ∈ mt.mSegmentList, k.keep s = true ∧ k.value s = v ∧
        ∃ a, s.contains a = true ∧ field k.useBits k.dropBits a = i := by
  simp only [List.mem_flatMap]
  refine exists_congr fun s => and_congr_right fun hs => ?_
  have hfield : (∃ b ∈ blocksOf r s, field k.useBits k.dropBits b = i) ↔
      ∃ a, s.contains a = true ∧ field k.useBits k.dropBits a = i :=
    exists_field_iff hr (hwalk s hs).toProper fun j => j = i
  rw [pairs]
  split_ifs with hk
  · simp only [hk, true_and, List.mem_flatMap, List.mem_singleton, Prod.mk.injEq]
    rw [← hfield]
    constructor
    · rintro ⟨b, hb, rfl, rfl⟩
      exact ⟨rfl, b, hb, rfl⟩
    · rintro ⟨rfl, b, hb, rfl⟩
      exact ⟨b, hb, rfl, rfl⟩
  · simp [hk]

theorem coherent_pairs_iff (hwalk : ∀ s ∈ mt.mSegmentList, Walkable r s) (hr : r ≤ k.dropBits) :
    SlotTable.Coherent (mt.mSegmentList.flatMap (pairs k r)) ↔ ¬ mt.Clash k := by
  simp only [SlotTable.Coherent, mem_pairs_iff hwalk hr]
  constructor
  · rintro h ⟨s, hs, t, ht, hks, hkt, hne, a, b, ha, hb, hab⟩
    exact hne (h _ _ _ ⟨s, hs, hks, rfl, a, ha, hab⟩ ⟨t, ht, hkt, rfl, b, hb, rfl⟩)
  · rintro h i v w ⟨s, hs, hks, rfl, a, ha, rfl⟩ ⟨t, ht, hkt, rfl, b, hb, hab⟩
    by_contra hne
    exact h ⟨s, hs, t, ht, hks, hkt, hne, a, b, ha, hb, hab.symm⟩

variable [DecidableEq β]

theorem mark_outcome (hu : k.useBits ≤ 30) (hs : s ∈ mt.mSegmentList) (v : β) (h : Holds k d l p) (b : BitVec 32) :
    SlotTable.Outcome (Holds k d) mt.IsIncoherent (l ++ [(field k.useBits k.dropBits b, v)]) (mark s v p b) := by
  have hconflict := h.fits.conflict_iff (v := v) (field_lt k.useBits k.dropBits b)
  rw [mark, AddressDecodingTable.get, AddressDecodingTable.get, h.adt_id hu, h.done_id hu]
  split_ifs with hc
  · exact ⟨⟨s, hs, rfl⟩, hconflict.mp hc⟩
  · constructor
    · exact h.adtUse
    · exact h.adtDrop
    · exact h.doneUse
    · exact h.doneDrop
    · show SlotTable.Fits d _ _ (Function.update _ (p.adt.id b) v) (Function.update _ (p.done.id b) true)
      rw [h.adt_id hu, h.done_id hu]
      apply h.fits.put
      by_contra hnot
      exact hc (hconflict.mpr hnot)

theorem fillWith_outcome (h : mt.Sized r) (hwalk : ∀ s ∈ mt.mSegmentList, Walkable r s) (hu : k.useBits ≤ 30)
    {val : Segment → Except Failure β} (hval : ∀ s ∈ mt.mSegmentList, k.keep s = true → val s = .ok (k.value s))
    (hp : Holds k d [] p) :
    SlotTable.Outcome (Holds k d) mt.IsIncoherent (mt.mSegmentList.flatMap (pairs k r)) (mt.fillWith k.keep val p) := by
  have hloop : ∀ s ∈ mt.mSegmentList, ∀ l p, Holds k d l p →
      SlotTable.Outcome (Holds k d) mt.IsIncoherent (l ++ pairs k r s)
        (if k.keep s then
          mt.forBlocks s (fun p addr =>
            match val s with
            | .error e => .error e
            | .ok v => mark s v p addr) p
        else .ok p) := by
    intro s hs l p hp
    rw [pairs]
    split_ifs with hk
    · rw [forBlocks_segment h (hwalk s hs), hval s hs hk]
      apply SlotTable.outcome_foldlM _ l p hp
      intro b _ l p hp
      exact mark_outcome hu hs _ hp b
    · rw [List.append_nil]
      exact hp
  exact SlotTable.outcome_foldlM hloop [] p hp

/-- **A builder fails exactly when two segments clash, and else decodes.** -/
theorem decodes_fillWith (h : mt.Sized r) (hwalk : ∀ s ∈ mt.mSegmentList, Walkable r s) (hr : r ≤ k.dropBits)
    (hu : k.useBits ≤ 30) (val : Segment → Except Failure β)
    (hval : ∀ s ∈ mt.mSegmentList, k.keep s = true → val s = .ok (k.value s)) (hp : Holds k d [] p) :
    (mt.Clash k ∧ ∃ s ∈ mt.mSegmentList, mt.fillWith k.keep val p = .error (.incoherent s)) ∨
    (¬ mt.Clash k ∧ ∃ p', mt.fillWith k.keep val p = .ok p' ∧ mt.Decodes k d p'.adt) := by
  have hout := fillWith_outcome h hwalk hu hval hp
  have hco := coherent_pairs_iff (k := k) hwalk hr
  cases hres : mt.fillWith k.keep val p with
  | error e =>
    rw [hres] at hout
    obtain ⟨⟨s, hs, rfl⟩, hnot⟩ := hout
    left
    refine ⟨?_, s, hs, rfl⟩
    rwa [hco, not_not] at hnot
  | ok p' =>
    rw [hres] at hout
    have hfits : Holds k d _ p' := hout
    right
    refine ⟨hco.mp hfits.fits.coherent, p', rfl, ?_, ?_⟩
    · rintro a s hs hk ⟨b, hb, hab⟩
      rw [AddressDecodingTable.get, hfits.adt_id hu]
      exact hfits.fits.value _ _ ((mem_pairs_iff hwalk hr).mpr ⟨s, hs, hk, rfl, b, hb, hab⟩)
    · intro a hnone
      rw [AddressDecodingTable.get, hfits.adt_id hu]
      apply hfits.fits.rest _ (field_lt _ _ _)
      intro v hv
      obtain ⟨s, hs, hk, -, b, hb, hab⟩ := (mem_pairs_iff hwalk hr).mp hv
      exact hnone s hs hk b hb hab

end Fill

end MappingTable
end Tp2
end Smc
