/-
# From the mapping table to the platform

`sc_main` (`TP2/TP2_etudiant/tp2_parallel_top.cpp`) builds its platform from
one mapping table. A master takes its identifier from it, a coprocessor its
segment, the bus its routing table, and each of these can stop the program.

For a table made by `add`, the exact condition is `elaborate_isOk_iff`. The
test of the bus is on `int`s: it lets negative target numbers pass, and these
are the only ones that a command can then lead past the bus's ports
(`route_lt_iff`). With the components wired in the order of their numbers, all
other maps that the constructors accept make a `ParallelPlatform`, for which no
run fails (`elaborated_displays`).

Key definitions: `getSegment`, `elaborate`, `Wired`.
Key theorems: `elaborate_isOk_iff`, `route_lt_iff`, `elaborated_displays`.
-/
import Smc.Tp2.Cacheability
import Smc.Tp2.Identifiers
import Smc.Tp2.ParallelProgress
import Smc.Tp2.RoutingTables

namespace Smc
namespace Tp2

open AddressDecodingTable (IsMask field)
open MappingTable (Layered Stored Walkable)

namespace IntTab

/-- `IntTab()`. -/
def empty : IntTab := ⟨[], Nat.zero_le 9, fun _ h => absurd h List.not_mem_nil⟩

/-- `operator==`. -/
def beq (t other : IntTab) : Bool := if t.level ≠ other.level then false else t.idMatches other

/-- The number of the first level. -/
def first (t : IntTab) : BitVec 32 := t.mValues.getD 0 (-1)

theorem idMatches_empty (t : IntTab) : t.idMatches empty = true :=
  idMatches_iff.mpr fun _ _ h => absurd h (Nat.not_lt_zero _)

theorem beq_iff {t other : IntTab} : t.beq other = true ↔ t = other := by
  constructor
  · intro h
    rw [beq] at h
    split_ifs at h with hl
    have hlen : t.mValues.length = other.mValues.length := not_not.mp hl
    have hvals : t.mValues = other.mValues := by
      apply List.ext_getElem hlen
      intro n hn hn'
      have hget := idMatches_iff.mp h n hn hn'
      rw [get_of_lt hn, get_of_lt hn'] at hget
      exact Option.some.inj hget
    cases t
    cases other
    cases hvals
    rfl
  · rintro rfl
    rw [beq, if_neg (not_not.mpr rfl)]
    exact idMatches_iff.mpr fun _ _ _ => rfl

end IntTab

/-! ### The constructors -/

/-- What stops the constructors. -/
inductive Refusal where
  /-- the assert of `getSegment` -/
  | notOneSegment
  /-- `exit(0)`: one target index is larger than the number of targets -/
  | indexTooLarge
  | mapping (e : Failure)
  | ident (e : IdFailure)
deriving DecidableEq

namespace MappingTable

variable (mt : MappingTable)

def getSegmentList (index : IntTab) : List Segment := mt.mSegmentList.filter fun i => i.mTargetIndex.beq index

def getSegment (index : IntTab) : Except Refusal Segment :=
  match mt.getSegmentList index with
  | [s] => .ok s
  | _ => .error .notOneSegment

end MappingTable

namespace VciVgsb

/-- The constructor of the bus: its routing table. -/
def newTable (mt : MappingTable) (nbSlave : ℕ) : Except Refusal (AddressDecodingTable (BitVec 32)) := do
  let t ← (mt.getRoutingTable IntTab.empty 0).mapError .mapping
  if t.isAllBelow (BitVec.ofNat 32 nbSlave) then pure t else throw .indexTooLarge

end VciVgsb

/-- What the constructors make for `n` masters, `n` coprocessors and a bus. -/
structure Components (n : ℕ) where
  master : Fin n → VciGcdMaster.Const
  segment : Fin n → Segment
  routingTable : AddressDecodingTable (BitVec 32)

/-- The components of `sc_main`: master and coprocessor `i` have index
`index i`, and the master the base address `base i`. -/
def elaborate {n : ℕ} (mt : IdMappingTable) (index : Fin n → IntTab) (base : Fin n → Addr) :
    Except Refusal (Components n) := do
  let master ← Clocked.allOk fun i => do
    let srcid ← (mt.indexForId (index i)).mapError .ident
    pure ({ mSrcid := srcid.setWidth 12, mBase := base i } : VciGcdMaster.Const)
  let segment ← Clocked.allOk fun i => mt.getSegment (index i)
  let routingTable ← VciVgsb.newTable mt.toMappingTable n
  pure { master, segment, routingTable }

/-! ### When a constructor returns -/

section Returns

variable {E α β : Type}

theorem bind_ok_iff {x : Except E α} {f : α → Except E β} {c : β} :
    (x >>= f) = .ok c ↔ ∃ a, x = .ok a ∧ f a = .ok c := by
  cases x with
  | error e => simp [bind, Except.bind]
  | ok a => simp [bind, Except.bind]

theorem bind_isOk {x : Except E α} {f : α → Except E β} :
    (∃ c, (x >>= f) = .ok c) ↔ ∃ a, x = .ok a ∧ ∃ c, f a = .ok c := by
  simp only [bind_ok_iff]
  exact ⟨fun ⟨c, a, hx, hf⟩ => ⟨a, hx, c, hf⟩, fun ⟨a, hx, c, hf⟩ => ⟨c, a, hx, hf⟩⟩

theorem mapError_eq_ok {E' : Type} {x : Except E α} {g : E → E'} {a : α} : x.mapError g = .ok a ↔ x = .ok a := by
  cases x <;> simp [Except.mapError]

theorem allOk_isOk {n : ℕ} {f : Fin n → Except E α} : (∃ g, Clocked.allOk f = .ok g) ↔ ∀ j, ∃ a, f j = .ok a := by
  constructor
  · rintro ⟨g, hg⟩ j
    exact ⟨g j, Clocked.forall_of_allOk hg j⟩
  · intro h
    choose g hg using h
    exact ⟨g, Clocked.allOk_of_forall hg⟩

end Returns

/-- `operator*` only fails for different levels, if the widths are those of words. -/
theorem IntTab.mul_isOk {t widths : IntTab} (hw : ∀ w ∈ widths.mValues, w.toNat < 32) :
    (∃ id, t.mul widths = .ok id) ↔ t.level = widths.level := by
  have hfold : ∀ l : List (BitVec 32 × BitVec 32), (∀ p ∈ l, p.1.toNat < 32) → ∀ r, ∃ id, l.foldlM shiftIn r = .ok id := by
    intro l
    induction l with
    | nil => exact fun _ r => ⟨r, rfl⟩
    | cons p l ih =>
      intro hl r
      obtain ⟨id, hid⟩ := ih (fun q hq => hl q (List.mem_cons_of_mem _ hq)) (r <<< p.1.toNat + p.2)
      refine ⟨id, ?_⟩
      rw [List.foldlM_cons, shiftIn, if_pos (hl p List.mem_cons_self)]
      exact hid
  rw [mul]
  split_ifs with hlevel
  · refine iff_of_false ?_ fun h => hlevel h.symm
    rintro ⟨id, hid⟩
    cases hid
  · refine ⟨fun _ => (not_not.mp hlevel).symm, fun _ => hfold _ (fun p hp => hw p.1 ?_) 0⟩
    exact (List.of_mem_zip hp).1
namespace MappingTable

theorem getSegment_eq_ok {mt : MappingTable} {index : IntTab} {s : Segment} :
    mt.getSegment index = .ok s ↔ mt.getSegmentList index = [s] := by
  rw [getSegment]
  split
  · next s' heq => rw [heq, Except.ok.injEq, List.cons.injEq, and_iff_left rfl]
  · next hne => exact iff_of_false (by simp) (hne s)

/-- The segment of an index is stored under it. -/
theorem getSegment_mem {mt : MappingTable} {index : IntTab} {s : Segment} (h : mt.getSegment index = .ok s) :
    s ∈ mt.mSegmentList ∧ s.mTargetIndex = index := by
  have hs : s ∈ mt.getSegmentList index := by
    rw [getSegment_eq_ok.mp h]
    exact List.mem_singleton_self s
  rw [getSegmentList, List.mem_filter, IntTab.beq_iff] at hs
  exact hs

/-! ### The entries of a routing table -/

/-- The loops of a builder write entries, and leave the fields of the table. -/
theorem fillWith_shape {β : Type} [DecidableEq β] {mt : MappingTable} {keep : Segment → Bool}
    {val : Segment → Except Failure β} {p p' : Tables β} (h : mt.fillWith keep val p = .ok p') :
    p'.adt.mUseBits = p.adt.mUseBits ∧ p'.adt.mDropBits = p.adt.mDropBits := by
  let P (q : Tables β) : Prop := q.adt.mUseBits = p.adt.mUseBits ∧ q.adt.mDropBits = p.adt.mDropBits
  refine Blocks.foldlM_keeps (P := P) (fun q s q' hq hs => ?_) ⟨rfl, rfl⟩ h
  split_ifs at hs with hk
  · refine Blocks.forBlocks_keeps (P := P) (fun x a x' hx ha => ?_) hq hs
    cases hv : val s with
    | error e =>
      rw [hv] at ha
      cases ha
    | ok v =>
      rw [hv] at ha
      replace ha : mark s v x a = .ok x' := ha
      rw [mark] at ha
      split_ifs at ha
      exact Except.ok.inj ha ▸ hx
  · exact Except.ok.inj hs ▸ hq

theorem toInt_ofNat_of_lt {n : ℕ} (hn : n < 2 ^ 31) : (BitVec.ofNat 32 n).toInt = n := by
  rw [BitVec.toInt_eq_toNat_cond, BitVec.toNat_ofNat, Nat.mod_eq_of_lt (by omega), if_pos (by omega)]

section Entries

variable {mt : MappingTable} {r n : ℕ} {t : AddressDecodingTable (BitVec 32)}

/-- The bits of the first level are the high ones of the address. -/
theorem layered_first (hl : Layered r mt) (hi : 0 < mt.mLevelAddrBits.level) :
    (mt.routing IntTab.empty).dropBits + (mt.routing IntTab.empty).useBits = mt.mAddrWidth.toNat := by
  have hbits := IntTab.bits_succ hi
  have hle := hl.bits_le (by omega : 0 + 1 ≤ mt.mLevelAddrBits.level)
  rw [← IntTab.getD_of_lt hi] at hbits
  have hzero : mt.mLevelAddrBits.bits 0 = 0 := rfl
  show mt.mAddrWidth.toNat - mt.mLevelAddrBits.bits (0 + 1) + (mt.mLevelAddrBits.mValues.getD 0 (-1)).toNat =
    mt.mAddrWidth.toNat
  omega

theorem getRoutingTable_shape (hl : Layered r mt) (hi : 0 < mt.mLevelAddrBits.level) {d : BitVec 32}
    (h : mt.getRoutingTable IntTab.empty d = .ok t) :
    t.mUseBits = (mt.routing IntTab.empty).useBits ∧ t.mDropBits = (mt.routing IntTab.empty).dropBits := by
  have hle := hl.bits_le (by omega : 0 + 1 ≤ mt.mLevelAddrBits.level)
  have hbits := IntTab.bits_succ hi
  rw [← IntTab.getD_of_lt hi] at hbits
  have hzero : mt.mLevelAddrBits.bits 0 = 0 := rfl
  have hwidth := mt.mAddrWidth.isLt
  have hempty : IntTab.empty.level < mt.mLevelAddrBits.level := hi
  have huse : (mt.mLevelAddrBits.mValues.getD 0 (-1)).toNat ≤ 28 := routing_narrow hempty h
  have hdrop : (mt.mAddrWidth - mt.mLevelAddrBits.mValues.getD 0 (-1) - mt.mLevelAddrBits.sum 0).toNat =
      mt.mAddrWidth.toNat - mt.mLevelAddrBits.bits (0 + 1) := by
    rw [BitVec.toNat_sub, BitVec.toNat_sub, hl.sum_toNat (Nat.zero_le _)]
    omega
  simp only [getRoutingTable, bind_ok_iff] at h
  obtain ⟨at', hat, adt, hadt, done, -, p, hp, h⟩ := h
  obtain rfl : mt.mLevelAddrBits.mValues.getD 0 (-1) = at' := Except.ok.inj ((component_eq hi).symm.trans hat)
  obtain rfl : p.adt = t := Except.ok.inj h
  obtain ⟨adt', hadt', h1, h2⟩ := AddressDecodingTable.init_eq (α := BitVec 32) (huse.trans_lt (by decide))
    (AddressDecodingTable.allocates_int_iff.mpr huse)
  obtain rfl : adt' = adt := Except.ok.inj ((congrArg lift hadt').symm.trans hadt)
  obtain ⟨huse', hdrop'⟩ := fillWith_shape hp
  exact ⟨huse'.trans h1, hdrop'.trans (h2.trans hdrop)⟩

/-- An entry of the table is the entry of an address. -/
theorem exists_get_eq (hl : Layered r mt) (hi : 0 < mt.mLevelAddrBits.level) (hw : mt.mAddrWidth.toNat ≤ 32)
    (huse : t.mUseBits = (mt.routing IntTab.empty).useBits) (hdrop : t.mDropBits = (mt.routing IntTab.empty).dropBits)
    {e : ℕ} (he : e < 2 ^ t.mUseBits) : ∃ a, t.get a = t.mTable e := by
  have hsum := layered_first hl hi
  rw [← huse, ← hdrop] at hsum
  have hpos : 0 < 2 ^ t.mDropBits := Nat.two_pow_pos _
  have hlt : e * 2 ^ t.mDropBits < 2 ^ 32 := by
    calc e * 2 ^ t.mDropBits < 2 ^ t.mUseBits * 2 ^ t.mDropBits := Nat.mul_lt_mul_of_pos_right he hpos
      _ = 2 ^ (t.mDropBits + t.mUseBits) := by rw [← pow_add, Nat.add_comm]
      _ ≤ 2 ^ 32 := Nat.pow_le_pow_right (by decide) (by omega)
  refine ⟨BitVec.ofNat 32 (e * 2 ^ t.mDropBits), ?_⟩
  have hid : t.id (BitVec.ofNat 32 (e * 2 ^ t.mDropBits)) = e := by
    rw [t.id_eq_field (by omega), field, BitVec.toNat_ofNat, Nat.mod_eq_of_lt hlt, Nat.mul_div_cancel _ hpos,
      Nat.mod_eq_of_lt he]
  rw [AddressDecodingTable.get, hid]

/-- What holds of the default and of the segments' numbers holds of the entries, and conversely. -/
theorem forall_entry_iff (hl : Layered r mt) (hst : Stored r mt) (hi : 0 < mt.mLevelAddrBits.level)
    (hw : mt.mAddrWidth.toNat ≤ 32) {d : BitVec 32} (ht : mt.getRoutingTable IntTab.empty d = .ok t)
    (hdec : mt.Decodes (mt.routing IntTab.empty) d t) {P : BitVec 32 → Prop} (hd : P d) :
    (∀ e < 2 ^ t.mUseBits, P (t.mTable e)) ↔ ∀ s ∈ mt.mSegmentList, P s.mTargetIndex.first := by
  obtain ⟨huse, hdrop⟩ := getRoutingTable_shape hl hi ht
  constructor
  · intro h s hs
    have hbase : s.contains s.mBaseAddress = true := by
      have hn := (hst.walk s hs).nonempty
      rw [(hst.walk s hs).toProper.contains_iff, (hst.walk s hs).toProper.endAddress_toNat]
      omega
    have hval : t.get s.mBaseAddress = s.mTargetIndex.first :=
      hdec.value _ s hs (IntTab.idMatches_empty _) ⟨s.mBaseAddress, hbase, rfl⟩
    rw [← hval]
    exact h _ (t.id_lt _)
  · intro h e he
    obtain ⟨a, ha⟩ := exists_get_eq hl hi hw huse hdrop he
    rw [← ha]
    by_cases hex : ∃ s ∈ mt.mSegmentList, ∃ b, s.contains b = true ∧
        field (mt.routing IntTab.empty).useBits (mt.routing IntTab.empty).dropBits b =
          field (mt.routing IntTab.empty).useBits (mt.routing IntTab.empty).dropBits a
    · obtain ⟨s, hs, hb⟩ := hex
      rw [hdec.value a s hs (IntTab.idMatches_empty _) hb]
      exact h s hs
    · rw [hdec.rest a fun s hs _ b hb hf => hex ⟨s, hs, b, hb, hf⟩]
      exact hd

/-- The table that the bus asks for. -/
theorem getRoutingTable_empty (hz : mt.Sized r) (hl : Layered r mt) (hst : Stored r mt)
    (hi : 0 < mt.mLevelAddrBits.level) (hat : (mt.routing IntTab.empty).useBits ≤ 28) :
    (mt.Clash (mt.routing IntTab.empty) ∧
      ∃ s ∈ mt.mSegmentList, mt.getRoutingTable IntTab.empty 0 = .error (.incoherent s)) ∨
    (¬ mt.Clash (mt.routing IntTab.empty) ∧
      ∃ t, mt.getRoutingTable IntTab.empty 0 = .ok t ∧ mt.Decodes (mt.routing IntTab.empty) 0 t) :=
  have hlevel : IntTab.empty.level < mt.mLevelAddrBits.level := hi
  getRoutingTable_eq hz hl hst hlevel hat 0

/-- The bus takes a table of segments that do not clash and have numbers below its own of targets,
if the first level is narrow enough. -/
theorem newTable_isOk (hz : mt.Sized r) (hl : Layered r mt) (hst : Stored r mt) (hi : 0 < mt.mLevelAddrBits.level)
    (hw : mt.mAddrWidth.toNat ≤ 32) (hn : 0 < n) (hn' : n < 2 ^ 31) :
    (∃ t, VciVgsb.newTable mt n = .ok t) ↔ mt.mLevelAddrBits.first.toNat ≤ 28 ∧
      ¬ mt.Clash (mt.routing IntTab.empty) ∧ ∀ s ∈ mt.mSegmentList, s.mTargetIndex.first.toInt < n := by
  have hempty : IntTab.empty.level < mt.mLevelAddrBits.level := hi
  simp only [VciVgsb.newTable, bind_isOk, mapError_eq_ok]
  by_cases hat : mt.mLevelAddrBits.first.toNat ≤ 28
  swap
  · refine iff_of_false ?_ fun h => hat h.1
    rintro ⟨t, ht, -⟩
    exact hat (routing_narrow hempty ht)
  rw [and_iff_right hat]
  rcases getRoutingTable_empty hz hl hst hi hat with ⟨hclash, s, -, he⟩ | ⟨hno, t, ht, hdec⟩
  · refine iff_of_false ?_ fun h => h.1 hclash
    rintro ⟨t, ht, -⟩
    rw [he] at ht
    cases ht
  · have hP : (0 : BitVec 32).toInt < n := by simpa using hn
    have hall := forall_entry_iff (P := fun v => v.toInt < n) hl hst hi hw ht hdec hP
    have hbelow : t.isAllBelow (BitVec.ofNat 32 n) = true ↔ ∀ s ∈ mt.mSegmentList, s.mTargetIndex.first.toInt < n := by
      rw [t.isAllBelow_iff, toInt_ofNat_of_lt hn']
      exact hall
    rw [and_iff_right hno, ← hbelow]
    constructor
    · rintro ⟨t', ht', c, hc⟩
      obtain rfl : t = t' := Except.ok.inj (ht.symm.trans ht')
      by_contra hnot
      rw [if_neg hnot] at hc
      cases hc
    · intro h
      refine ⟨t, ht, t, ?_⟩
      rw [if_pos h]
      rfl

theorem newTable_eq_ok (h : VciVgsb.newTable mt n = .ok t) : mt.getRoutingTable IntTab.empty 0 = .ok t ∧
    t.isAllBelow (BitVec.ofNat 32 n) = true := by
  simp only [VciVgsb.newTable, bind_ok_iff, mapError_eq_ok] at h
  obtain ⟨t', ht, h⟩ := h
  split_ifs at h with hb
  obtain rfl : t' = t := Except.ok.inj h
  exact ⟨ht, hb⟩

/-- The table of a bus that takes it decodes the segments, and all entries are below its number of targets. -/
theorem decodes_newTable (hz : mt.Sized r) (hl : Layered r mt) (hst : Stored r mt) (hi : 0 < mt.mLevelAddrBits.level)
    (h : VciVgsb.newTable mt n = .ok t) : mt.Decodes (mt.routing IntTab.empty) 0 t := by
  obtain ⟨ht, -⟩ := newTable_eq_ok h
  have hempty : IntTab.empty.level < mt.mLevelAddrBits.level := hi
  rcases getRoutingTable_empty hz hl hst hi (routing_narrow hempty ht) with ⟨-, s, -, he⟩ | ⟨-, t', ht', hdec⟩
  · rw [he] at ht
    cases ht
  · obtain rfl : t' = t := Except.ok.inj (ht'.symm.trans ht)
    exact hdec

/-- The numbers of the segments are not negative when the entries are not. -/
theorem entries_nonneg_iff (hz : mt.Sized r) (hl : Layered r mt) (hst : Stored r mt) (hi : 0 < mt.mLevelAddrBits.level)
    (hw : mt.mAddrWidth.toNat ≤ 32) (h : VciVgsb.newTable mt n = .ok t) :
    (∀ e < 2 ^ t.mUseBits, 0 ≤ (t.mTable e).toInt) ↔ ∀ s ∈ mt.mSegmentList, 0 ≤ s.mTargetIndex.first.toInt :=
  forall_entry_iff (P := fun v => 0 ≤ v.toInt) hl hst hi hw (newTable_eq_ok h).1 (decodes_newTable hz hl hst hi h) le_rfl

end Entries

end MappingTable

theorem elaborate_eq_ok {n : ℕ} {mt : IdMappingTable} {index : Fin n → IntTab} {base : Fin n → Addr} {c : Components n}
    (h : elaborate mt index base = .ok c) : (∀ i, (c.master i).mBase = base i) ∧
      (∀ i, mt.getSegment (index i) = .ok (c.segment i)) ∧ VciVgsb.newTable mt.toMappingTable n = .ok c.routingTable := by
  simp only [elaborate, bind_ok_iff] at h
  obtain ⟨master, hm, segment, hs, table, ht, h⟩ := h
  obtain rfl := Except.ok.inj h
  refine ⟨fun i => ?_, Clocked.forall_of_allOk hs, ht⟩
  obtain ⟨id, -, hid⟩ := bind_ok_iff.mp (Clocked.forall_of_allOk hm i)
  exact congrArg VciGcdMaster.Const.mBase (Except.ok.inj hid).symm

theorem elaborate_isOk {n : ℕ} {mt : IdMappingTable} {index : Fin n → IntTab} {base : Fin n → Addr}
    (hid : ∀ w ∈ mt.mLevelIdBits.mValues, w.toNat < 32) : (∃ c, elaborate mt index base = .ok c) ↔
      (∀ i, (index i).level = mt.mLevelIdBits.level) ∧ (∀ i, ∃ s, mt.getSegmentList (index i) = [s]) ∧
        ∃ t, VciVgsb.newTable mt.toMappingTable n = .ok t := by
  have hident : ∀ i, (∃ k, (do
      let srcid ← (mt.indexForId (index i)).mapError Refusal.ident
      pure ({ mSrcid := srcid.setWidth 12, mBase := base i } : VciGcdMaster.Const)) = .ok k) ↔
      (index i).level = mt.mLevelIdBits.level := by
    intro i
    rw [bind_isOk, ← IntTab.mul_isOk hid]
    simp only [mapError_eq_ok]
    exact ⟨fun ⟨id, h, _⟩ => ⟨id, h⟩, fun ⟨id, h⟩ => ⟨id, h, _, rfl⟩⟩
  constructor
  · rintro ⟨c, h⟩
    simp only [elaborate, bind_ok_iff] at h
    obtain ⟨master, hm, segment, hs, table, ht, -⟩ := h
    exact ⟨fun i => (hident i).mp ⟨_, Clocked.forall_of_allOk hm i⟩,
      fun i => ⟨_, MappingTable.getSegment_eq_ok.mp (Clocked.forall_of_allOk hs i)⟩, table, ht⟩
  · rintro ⟨hlevel, hseg, t, ht⟩
    obtain ⟨master, hm⟩ := allOk_isOk.mpr fun i => (hident i).mpr (hlevel i)
    obtain ⟨segment, hs⟩ := allOk_isOk.mpr fun i =>
      (hseg i).imp fun s (h : mt.getSegmentList (index i) = [s]) => MappingTable.getSegment_eq_ok.mpr h
    refine ⟨⟨master, segment, t⟩, ?_⟩
    simp only [elaborate, bind_ok_iff]
    exact ⟨master, hm, segment, hs, t, ht, rfl⟩

/-! ### The platform of the components -/

/-- The components are wired in the order of their numbers, and each master
works with the sixteen bytes of its coprocessor. -/
structure Wired {n : ℕ} (index : Fin n → IntTab) (base : Fin n → Addr) (c : Components n) : Prop where
  port : ∀ i, (index i).first = BitVec.ofNat 32 i
  size : ∀ i, (c.segment i).mSize = 16
  base : ∀ i, base i = (c.segment i).mBaseAddress

section Platform

variable {n r : ℕ} {mt : IdMappingTable} {index : Fin n → IntTab} {base : Fin n → Addr} {c : Components n}
  (hst : Stored r mt.toMappingTable) (hc : elaborate mt index base = .ok c) (hwired : Wired index base c)

include hc hwired

/-- The segment of a coprocessor is the one its master works with. -/
theorem Wired.extent (i : Fin n) : gcdSegment (c.master i).mBase = (c.segment i).toExtent := by
  rw [(elaborate_eq_ok hc).1 i, hwired.base i, gcdSegment, ← hwired.size i]

include hst

theorem Wired.inSpace (i : Fin n) : (c.master i).mBase.toNat + 16 < 2 ^ 32 := by
  obtain ⟨hbase, hseg, -⟩ := elaborate_eq_ok hc
  have hin := (hst.walk _ (MappingTable.getSegment_mem (hseg i)).1).inSpace
  rw [hwired.size i] at hin
  rw [hbase i, hwired.base i]
  exact hin

/-- The sixteen addresses of a master are those of its coprocessor's segment. -/
theorem Wired.contains (i : Fin n) {x : ℕ} (hx : x < 16) :
    (c.segment i).contains ((c.master i).mBase + BitVec.ofNat 32 x) = true := by
  have hs := hwired.inSpace hst hc i
  have hadd : ((c.master i).mBase + BitVec.ofNat 32 x).toNat = (c.master i).mBase.toNat + x := by
    rw [BitVec.toNat_add, BitVec.toNat_ofNat]
    omega
  rw [← hwired.extent hc i]
  refine (Extent.contains_iff (e := gcdSegment (c.master i).mBase) hs.le (Nat.succ_pos 15) _).mpr ?_
  rw [hadd]
  exact ⟨Nat.le_add_right _ _, Nat.add_lt_add_left hx _⟩

/-- The bus routes them to the coprocessor. -/
theorem Wired.routed (hz : mt.Sized r) (hl : Layered r mt.toMappingTable) (hi : 0 < mt.mLevelAddrBits.level)
    (hn : n < 2 ^ 31) (i : Fin n) {x : ℕ} (hx : x < 16) :
    (c.routingTable.get ((c.master i).mBase + BitVec.ofNat 32 x)).toNat = i := by
  obtain ⟨-, hseg, ht⟩ := elaborate_eq_ok hc
  obtain ⟨hmem, hindex⟩ := MappingTable.getSegment_mem (hseg i)
  have hdec := MappingTable.decodes_newTable hz hl hst hi ht
  have hval : c.routingTable.get ((c.master i).mBase + BitVec.ofNat 32 x) = (c.segment i).mTargetIndex.first :=
    hdec.value _ _ hmem (IntTab.idMatches_empty _) ⟨_, hwired.contains hst hc i hx, rfl⟩
  calc (c.routingTable.get ((c.master i).mBase + BitVec.ofNat 32 x)).toNat
      = (BitVec.ofNat 32 i).toNat := by rw [hval, hindex, hwired.port i]
    _ = i := by rw [BitVec.toNat_ofNat, Nat.mod_eq_of_lt (by omega)]

/-- The components are those of a parallel platform. -/
theorem Wired.exists_platform (hz : mt.Sized r) (hl : Layered r mt.toMappingTable) (hi : 0 < mt.mLevelAddrBits.level)
    (hw : mt.mAddrWidth.toNat ≤ 32) (hn : n < 2 ^ 31)
    (hpos : ∀ s ∈ mt.mSegmentList, 0 ≤ s.mTargetIndex.first.toInt) :
    ∃ k : ParallelPlatform n, k.bus.mRoutingTable = c.routingTable ∧ k.master = c.master := by
  obtain ⟨-, -, ht⟩ := elaborate_eq_ok hc
  have hbelow := (MappingTable.newTable_eq_ok ht).2
  rw [c.routingTable.isAllBelow_iff, MappingTable.toInt_ofNat_of_lt hn] at hbelow
  have hnonneg := (MappingTable.entries_nonneg_iff hz hl hst hi hw ht).mpr hpos
  refine ⟨{ bus := ⟨n, n, c.routingTable, fun e he => ⟨hnonneg e he, hbelow e he⟩⟩, master := c.master,
            nbInitiator := rfl, nbTarget := rfl, range := fun i => (hwired.inSpace hst hc i).le,
            routed := fun i x hx => hwired.routed hst hc hz hl hi hn i hx }, rfl, rfl⟩

end Platform

section Built

variable {addrWidth mask : BitVec 32} {levelAddrBits idBits : IntTab} {useBits dropBits r n : ℕ} {mt : MappingTable}
  {segs : List Segment} {index : Fin n → IntTab} {base : Fin n → Addr} {c : Components n}
  (hm : IsMask mask useBits dropBits) (hnew : MappingTable.new addrWidth levelAddrBits mask = .ok mt)
  (hr : mt.mRtSize.toNat = 2 ^ r) (hfit : levelAddrBits.bits 10 ≤ addrWidth.toNat) (hw : addrWidth.toNat ≤ 32)
  (hi : 0 < levelAddrBits.level) (hsegs : ∀ seg ∈ segs, Walkable r seg)

include hm hnew hr hfit hw hi hsegs

/-- **What the constructors accept.** For every table built by calls of `add`
with walkable segments, the components of `sc_main` can be made if and only if
every index has the levels of the identifiers and exactly one segment, the first
level has at most 28 bits, no two segments with addresses of the same routing
bits have different targets, and no segment's target is past the last one. -/
theorem elaborate_isOk_iff (hid : ∀ w ∈ idBits.mValues, w.toNat < 32) (hn : 0 < n) (hn' : n < 2 ^ 31) :
    (∃ c, elaborate ⟨mt.adds segs, idBits⟩ index base = .ok c) ↔
      (∀ i, (index i).level = idBits.level) ∧ (∀ i, ∃ s, (mt.adds segs).getSegmentList (index i) = [s]) ∧
        levelAddrBits.first.toNat ≤ 28 ∧ ¬ (mt.adds segs).Clash ((mt.adds segs).routing IntTab.empty) ∧
        ∀ s ∈ (mt.adds segs).mSegmentList, s.mTargetIndex.first.toInt < n := by
  obtain ⟨hmade, hl, hst⟩ := MappingTable.built hm hnew hr hfit hsegs
  rw [elaborate_isOk hid, MappingTable.newTable_isOk hmade.toSized hl hst (hmade.levelAddrBits.symm ▸ hi)
    (hmade.addrWidth.symm ▸ hw) hn hn', hmade.levelAddrBits]

/-- **Which addresses stay in the platform.** In components that the
constructors have made, every address is routed to one of the `n` ports if and
only if no segment has a negative target. -/
theorem route_lt_iff (hn : n < 2 ^ 31) (hc : elaborate ⟨mt.adds segs, idBits⟩ index base = .ok c) :
    (∀ a, (c.routingTable.get a).toNat < n) ↔
      ∀ s ∈ (mt.adds segs).mSegmentList, 0 ≤ s.mTargetIndex.first.toInt := by
  obtain ⟨hmade, hl, hst⟩ := MappingTable.built hm hnew hr hfit hsegs
  have hi' : 0 < (mt.adds segs).mLevelAddrBits.level := hmade.levelAddrBits.symm ▸ hi
  have hw' : (mt.adds segs).mAddrWidth.toNat ≤ 32 := hmade.addrWidth.symm ▸ hw
  obtain ⟨-, -, ht⟩ := elaborate_eq_ok hc
  obtain ⟨hget, hbelow⟩ := MappingTable.newTable_eq_ok ht
  rw [c.routingTable.isAllBelow_iff, MappingTable.toInt_ofNat_of_lt hn] at hbelow
  rw [← MappingTable.entries_nonneg_iff hmade.toSized hl hst hi' hw' ht]
  constructor
  · intro h e he
    obtain ⟨huse, hdrop⟩ := MappingTable.getRoutingTable_shape hl hi' hget
    obtain ⟨a, ha⟩ := MappingTable.exists_get_eq hl hi' hw' huse hdrop he
    have hlt := h a
    rw [ha] at hlt
    rw [BitVec.toInt_eq_toNat_cond, if_pos (by omega)]
    exact Int.natCast_nonneg _
  · intro h a
    have he := c.routingTable.id_lt a
    exact AddressDecodingTable.toNat_lt_of_toInt (h _ he) (hbelow _ he)

/-- **The constructors make a working platform.** If the components of
`sc_main` are made from a table built by `add` without negative targets, and
wired, they are a parallel platform: in every run from reset, from arbitrary
registers and for arbitrary draws, no coprocessor fails, and what a master
displays is the divisor of its operands. -/
theorem elaborated_displays (hn : n < 2 ^ 31) (hc : elaborate ⟨mt.adds segs, idBits⟩ index base = .ok c)
    (hwired : Wired index base c) (hpos : ∀ s ∈ (mt.adds segs).mSegmentList, 0 ≤ s.mTargetIndex.first.toInt) :
    ∃ k : ParallelPlatform n, k.bus.mRoutingTable = c.routingTable ∧ k.master = c.master ∧
      (∀ i, gcdSegment (k.master i).mBase = (c.segment i).toExtent) ∧
      ∀ (s : ParallelPlatform.State n) (rnd : Fin n → Data × Data) (o : Fin n → TargetSignals) (p : VciVgsb.Ports)
        (d : ℕ → Fin n → Data × Data) (t : ℕ), ∃ s', k.run s rnd o p d t = .ok s' ∧
          ∀ i, (s'.master i).rFsm = .display →
            (s'.master i).rRes.toNat = Nat.gcd (s'.master i).rOpa.toNat (s'.master i).rOpb.toNat := by
  obtain ⟨hmade, hl, hst⟩ := MappingTable.built hm hnew hr hfit hsegs
  obtain ⟨k, htable, hmaster⟩ := hwired.exists_platform hst hc hmade.toSized hl (hmade.levelAddrBits.symm ▸ hi)
    (hmade.addrWidth.symm ▸ hw) hn hpos
  refine ⟨k, htable, hmaster, fun i => ?_, fun s rnd o p d t => ?_⟩
  · rw [hmaster]
    exact hwired.extent hc i
  · obtain ⟨st, hrun, tr⟩ := k.exists_trace s rnd o p d
    refine ⟨st t, hrun t, fun i hf => ?_⟩
    obtain ⟨σ, -, hp⟩ := (tr.inv t).pair i
    exact hp.shows hf

end Built

/-! ### The platform of three -/

open MappingTable (oneLevel gcdSegmentOf)

/-- `IntTab(8)`. -/
def eightBits : IntTab := oneLevel 8 (by decide)

theorem width_eq {v : BitVec 32} (hv : v ∈ eightBits.mValues) : v.toNat = 8 := by
  rw [List.mem_singleton.mp hv]
  rfl

/-- `maptab`, before its segments are added. -/
def maptab : MappingTable where
  mSegmentList := []
  mAddrWidth := 32
  mLevelAddrBits := eightBits
  mCacheabilityMask := 0x03000000
  mRtSize := 0x1000000

theorem ofNat_ne_end (i : Fin 3) : BitVec.ofNat 32 i ≠ -1 := by
  revert i
  decide

/-- The index of a master and of its coprocessor. -/
def gcdIndex (i : Fin 3) : IntTab := oneLevel (BitVec.ofNat 32 i) (ofNat_ne_end i)

def gcdBase (i : Fin 3) : Addr := BitVec.ofNat 32 (0x10000000 * i)

def gcdSegmentAt (i : Fin 3) : Segment := gcdSegmentOf ("GCD" ++ i.val.repr) (gcdBase i) (gcdIndex i)

def gcdSegments : List Segment := (List.finRange 3).map gcdSegmentAt

theorem gcdBase_toNat (i : Fin 3) : (gcdBase i).toNat = 0x10000000 * i := by
  rw [gcdBase, BitVec.toNat_ofNat]
  omega

theorem walkable_gcd (i : Fin 3) : Walkable 24 (gcdSegmentAt i) := by
  have hbase := gcdBase_toNat i
  have hsize : (gcdSegmentAt i).mSize.toNat = 16 := rfl
  have hin : (gcdSegmentAt i).mBaseAddress.toNat = 0x10000000 * i := hbase
  exact ⟨⟨by omega, by omega⟩, .inr (by omega)⟩

theorem walkable_gcdSegments : ∀ seg ∈ gcdSegments, Walkable 24 seg := by
  intro seg hseg
  obtain ⟨i, -, rfl⟩ := List.mem_map.mp hseg
  exact walkable_gcd i

/-- `add` takes all three. -/
theorem stored_gcdSegments : (maptab.adds gcdSegments).mSegmentList = gcdSegments := by
  decide +kernel

/-- The eight high bits tell the three apart. -/
theorem field_gcd {i : Fin 3} {a : BitVec 32} (ha : (gcdSegmentAt i).contains a = true) : field 8 24 a = 16 * i := by
  rw [(walkable_gcd i).toProper.contains_iff, (walkable_gcd i).toProper.endAddress_toNat] at ha
  have hsize : (gcdSegmentAt i).mSize.toNat = 16 := rfl
  have hin : (gcdSegmentAt i).mBaseAddress.toNat = 0x10000000 * i := gcdBase_toNat i
  rw [field]
  omega

theorem not_clash_gcdSegments :
    ¬ (maptab.adds gcdSegments).Clash ((maptab.adds gcdSegments).routing IntTab.empty) := by
  have hinj : Function.Injective fun v : BitVec 32 => 16 * v.toNat := fun v w h =>
    BitVec.eq_of_toNat_eq (Nat.eq_of_mul_eq_mul_left (by decide) h)
  apply MappingTable.not_clash_of_field hinj
  intro s hs _ a ha
  rw [stored_gcdSegments] at hs
  obtain ⟨i, -, rfl⟩ := List.mem_map.mp hs
  calc field 8 24 a
    _ = 16 * i := field_gcd ha
    _ = 16 * (BitVec.ofNat 32 i).toNat := by rw [BitVec.toNat_ofNat, Nat.mod_eq_of_lt (by omega)]

theorem getSegmentList_gcd (i : Fin 3) : (maptab.adds gcdSegments).getSegmentList (gcdIndex i) = [gcdSegmentAt i] := by
  rw [MappingTable.getSegmentList, stored_gcdSegments]
  revert i
  decide +kernel

theorem first_lt_three : ∀ s ∈ (maptab.adds gcdSegments).mSegmentList, s.mTargetIndex.first.toInt < (3 : ℕ) := by
  rw [stored_gcdSegments]
  decide

theorem mask_gcd : IsMask 0x03000000 2 24 := ⟨by decide, by decide, by decide⟩

theorem new_maptab : MappingTable.new 32 eightBits 0x03000000 = .ok maptab := rfl

theorem widths_gcd : ∀ w ∈ eightBits.mValues, w.toNat < 32 := fun w hw => by
  rw [width_eq hw]
  decide

/-- The components of `tp2_parallel_top.cpp` can be made. -/
theorem elaborate_parallel : ∃ c, elaborate ⟨maptab.adds gcdSegments, eightBits⟩ gcdIndex gcdBase = .ok c :=
  (elaborate_isOk_iff (r := 24) mask_gcd new_maptab (by decide) (by decide) (by decide) (by decide)
    walkable_gcdSegments widths_gcd (by decide) (by decide)).mpr
    ⟨fun _ => rfl, fun i => ⟨_, getSegmentList_gcd i⟩, by decide, not_clash_gcdSegments, first_lt_three⟩

/-- They are wired. -/
theorem exists_components : ∃ c, elaborate ⟨maptab.adds gcdSegments, eightBits⟩ gcdIndex gcdBase = .ok c ∧
    Wired gcdIndex gcdBase c := by
  obtain ⟨hmade, hl, hst⟩ := MappingTable.built (r := 24) mask_gcd new_maptab (by decide) (by decide)
    walkable_gcdSegments
  have hex : ∃ c, elaborate ⟨maptab.adds gcdSegments, eightBits⟩ gcdIndex gcdBase = .ok c := by
    rw [elaborate_isOk widths_gcd]
    exact ⟨fun _ => rfl, fun i => ⟨_, getSegmentList_gcd i⟩,
      (MappingTable.newTable_isOk hmade.toSized hl hst (hmade.levelAddrBits.symm ▸ (by decide))
        (hmade.addrWidth.symm ▸ (by decide)) (by decide) (by decide)).mpr
          ⟨by decide, not_clash_gcdSegments, first_lt_three⟩⟩
  obtain ⟨c, hc⟩ := hex
  have hsegment : ∀ i, c.segment i = gcdSegmentAt i := by
    intro i
    have hlist := MappingTable.getSegment_eq_ok.mp ((elaborate_eq_ok hc).2.1 i)
    exact (List.cons.inj (hlist.symm.trans (getSegmentList_gcd i))).1
  refine ⟨c, hc, fun _ => rfl, fun i => ?_, fun i => ?_⟩
  · rw [hsegment i]
    rfl
  · rw [hsegment i]
    rfl

theorem first_nonneg : ∀ s ∈ (maptab.adds gcdSegments).mSegmentList, 0 ≤ s.mTargetIndex.first.toInt := by
  rw [stored_gcdSegments]
  decide

/-- No address leaves the platform of three. -/
theorem route_parallel : ∃ c, elaborate ⟨maptab.adds gcdSegments, eightBits⟩ gcdIndex gcdBase = .ok c ∧
    ∀ a, (c.routingTable.get a).toNat < 3 := by
  obtain ⟨c, hc, -⟩ := exists_components
  exact ⟨c, hc, (route_lt_iff (r := 24) mask_gcd new_maptab (by decide) (by decide) (by decide) (by decide)
    walkable_gcdSegments (by decide) hc).mpr first_nonneg⟩

/-- Its components run. -/
theorem parallel_displays : ∃ k : ParallelPlatform 3, (∀ i, (k.master i).mBase = gcdBase i) ∧
    ∀ d t, ∃ s', k.run (ParallelPlatform.unpowered 3) (fun _ => (0, 0)) (fun _ => ParallelPlatform.noTarget)
      ⟨fun _ => ParallelPlatform.noInitiator, fun _ => ParallelPlatform.noTarget⟩ d t = .ok s' ∧
      ∀ i, (s'.master i).rFsm = .display →
        (s'.master i).rRes.toNat = Nat.gcd (s'.master i).rOpa.toNat (s'.master i).rOpb.toNat := by
  obtain ⟨c, hc, hwired⟩ := exists_components
  obtain ⟨k, -, hmaster, -, hrun⟩ := elaborated_displays (r := 24) mask_gcd new_maptab (by decide) (by decide)
    (by decide) (by decide) walkable_gcdSegments (by decide) hc hwired first_nonneg
  refine ⟨k, fun i => ?_, fun d t => hrun _ _ _ _ d t⟩
  rw [hmaster]
  exact (elaborate_eq_ok hc).1 i

end Tp2
end Smc
