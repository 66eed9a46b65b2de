/-
# Identifiers of components

A component has an index, one number for each level of the interconnect, and
an identifier, the numbers packed into one word with `m_level_id_bits` bits
for each level (`TP2/TP2_etudiant/mapping_table.h`, `int_tab.h`).
`getIdMaskingTable` gives a table that takes one level's number from an
identifier. `getIdLocalityTable` tells from an identifier whether its
component is under a prefix; it decodes the bits of the prefix's levels, and
fails if two segments of the mapping table contradict each other.

Packing and unpacking are those of `MixedRadix`. The bits of some levels tell
the numbers of these levels, so no two segments contradict each other.

Key definitions: `IntTab.mul`, `indexForId`, `getIdMaskingTable`,
`getIdLocalityTable`, `IntTab.FitsIn`.
Key theorems: `IntTab.FitsIn.mul_eq`, `IntTab.FitsIn.digit`, `field_ident`,
`ids_round_trip`.
-/
import Smc.Lib.MixedRadix
import Smc.Tp2.AddressMaskingTable
import Smc.Tp2.MappingTable

namespace Smc
namespace Tp2

open AddressDecodingTable (field)

/-- The exceptions: `Levels not matching`, and those of the mapping table. -/
inductive IdFailure where
  | levelsNotMatching
  | mapping (e : Failure)
deriving DecidableEq

/-- `ret <<= widths[l]; ret += m_values[l]`. A shift by 32 or more, or by a
negative number, is undefined. -/
def shiftIn (ret : BitVec 32) (p : BitVec 32 × BitVec 32) : Except IdFailure (BitVec 32) :=
  if p.1.toNat < 32 then .ok (ret <<< p.1.toNat + p.2) else .error (.mapping (.table .undefined))

/-- `operator*`. -/
def IntTab.mul (t widths : IntTab) : Except IdFailure (BitVec 32) :=
  if widths.level ≠ t.level then .error .levelsNotMatching
  else (widths.mValues.zip t.mValues).foldlM shiftIn 0

/-- A `MappingTable`, with its field `m_level_id_bits`. -/
structure IdMappingTable extends MappingTable where
  mLevelIdBits : IntTab

namespace IdMappingTable

variable (mt : IdMappingTable)

def indexForId (index : IntTab) : Except IdFailure (BitVec 32) := index.mul mt.mLevelIdBits

/-- What the mapping table fails with. -/
def lift {α : Type} (x : Except Failure α) : Except IdFailure α := x.mapError .mapping

def getIdMaskingTable (level : ℕ) : Except IdFailure AddressMaskingTable := do
  let use ← lift (MappingTable.component mt.mLevelIdBits level)
  let drop := (mt.mLevelIdBits.mValues.drop (level + 1)).sum
  lift (MappingTable.lift (AddressMaskingTable.init use drop))

def getIdLocalityTable (index : IntTab) : Except IdFailure (AddressDecodingTable Bool) := do
  let nbits := mt.mLevelIdBits.sum index.level
  let idWidth := mt.mLevelIdBits.sum 10
  let adt ← lift (MappingTable.lift (AddressDecodingTable.init nbits (idWidth - nbits)))
  let done ← lift (MappingTable.lift (AddressDecodingTable.init nbits (idWidth - nbits)))
  let p ← mt.mSegmentList.foldlM (fun p s => do
    let id ← mt.indexForId s.mTargetIndex
    lift (MappingTable.mark s (s.mTargetIndex.idMatches index) p id)) ⟨adt.reset true, done.reset false⟩
  pure p.adt

end IdMappingTable

/-- The numbers of the index have the widths of their levels. -/
structure IntTab.FitsIn (t widths : IntTab) : Prop where
  level : t.level = widths.level
  fits : ∀ p ∈ widths.mValues.zip t.mValues, p.2.toNat < 2 ^ p.1.toNat

/-! ### Packing -/

/-- A width and a number, as natural numbers. -/
def nats (p : BitVec 32 × BitVec 32) : ℕ × ℕ := (p.1.toNat, p.2.toNat)

/-- The widths and the numbers of an index. -/
def packing (widths t : IntTab) : List (ℕ × ℕ) := (widths.mValues.zip t.mValues).map nats

section Packing

variable {widths t t' : IntTab}

theorem IntTab.FitsIn.packing_fits (h : t.FitsIn widths) : MixedRadix.Fits (packing widths t) := by
  intro q hq
  obtain ⟨p, hp, rfl⟩ := List.mem_map.mp hq
  exact h.fits p hp

/-- The widths in a packing are those of the levels. -/
theorem IntTab.FitsIn.widths_eq (h : t.FitsIn widths) :
    (packing widths t).map Prod.fst = widths.mValues.map BitVec.toNat := by
  have hlen : widths.mValues.length ≤ t.mValues.length := le_of_eq h.level.symm
  rw [packing, List.map_map]
  show (widths.mValues.zip t.mValues).map (BitVec.toNat ∘ Prod.fst) = _
  rw [← List.map_map, List.map_fst_zip hlen]

theorem IntTab.FitsIn.values_eq (h : t.FitsIn widths) :
    (packing widths t).map Prod.snd = t.mValues.map BitVec.toNat := by
  have hlen : t.mValues.length ≤ widths.mValues.length := le_of_eq h.level
  rw [packing, List.map_map]
  show (widths.mValues.zip t.mValues).map (BitVec.toNat ∘ Prod.snd) = _
  rw [← List.map_map, List.map_snd_zip hlen]

theorem toNat_map_inj {l l' : List (BitVec 32)} (h : l.map BitVec.toNat = l'.map BitVec.toNat) : l = l' := by
  have hinj : Function.Injective (BitVec.toNat (w := 32)) := fun _ _ hxy => BitVec.eq_of_toNat_eq hxy
  exact List.map_injective_iff.mpr hinj h

/-- The loop of `operator*` packs. -/
theorem foldlM_shiftIn (l : List (BitVec 32 × BitVec 32)) (hfits : MixedRadix.Fits (l.map nats))
    (hbits : MixedRadix.bits (l.map nats) < 32) :
    ∃ r, l.foldlM shiftIn 0 = .ok r ∧ r.toNat = MixedRadix.encode (l.map nats) := by
  induction l using List.reverseRecOn with
  | nil => exact ⟨0, rfl, rfl⟩
  | append_singleton l p ih =>
    have hlt := MixedRadix.encode_lt hfits
    have hpow : 2 ^ MixedRadix.bits ((l ++ [p]).map nats) < 2 ^ 32 := Nat.pow_lt_pow_right (by decide) hbits
    have hsum : MixedRadix.bits ((l ++ [p]).map nats) = MixedRadix.bits (l.map nats) + p.1.toNat := by
      rw [List.map_append, MixedRadix.bits_append]
      simp [MixedRadix.bits, nats]
    have hcode : MixedRadix.encode ((l ++ [p]).map nats) =
        MixedRadix.encode (l.map nats) * 2 ^ p.1.toNat + p.2.toNat := by
      rw [List.map_append, List.map_singleton, MixedRadix.encode_concat]
      rfl
    rw [List.map_append] at hfits
    obtain ⟨r, hr, hrn⟩ := ih hfits.of_append_left (by omega)
    refine ⟨r <<< p.1.toNat + p.2, ?_, ?_⟩
    · rw [List.foldlM_append, hr]
      show List.foldlM shiftIn r [p] = _
      rw [List.foldlM_cons, shiftIn, if_pos (by omega)]
      rfl
    · rw [hcode] at hlt ⊢
      rw [BitVec.toNat_add, BitVec.toNat_shiftLeft, Nat.shiftLeft_eq, hrn]
      omega

theorem IntTab.FitsIn.bits_eq (h : t.FitsIn widths) : MixedRadix.bits (packing widths t) = widths.bits widths.level := by
  rw [MixedRadix.bits, h.widths_eq, IntTab.bits, IntTab.level, List.take_length]

/-- The identifier of an index is its packing. -/
theorem IntTab.FitsIn.mul_eq (h : t.FitsIn widths) (hbits : widths.bits widths.level ≤ 30) :
    ∃ id, t.mul widths = .ok id ∧ id.toNat = MixedRadix.encode (packing widths t) := by
  rw [IntTab.mul, if_neg (not_not.mpr h.level.symm)]
  apply foldlM_shiftIn _ h.packing_fits
  have := h.bits_eq
  unfold packing at this
  omega

/-- Indices with one identifier are the same. -/
theorem IntTab.FitsIn.inj (h : t.FitsIn widths) (h' : t'.FitsIn widths)
    (he : MixedRadix.encode (packing widths t) = MixedRadix.encode (packing widths t')) : t = t' := by
  have hpack : packing widths t = packing widths t' :=
    MixedRadix.encode_inj (by rw [h.widths_eq, h'.widths_eq]) h.packing_fits h'.packing_fits he
  have hvalues : t.mValues.map BitVec.toNat = t'.mValues.map BitVec.toNat := by
    rw [← h.values_eq, ← h'.values_eq, hpack]
  have hlist : t.mValues = t'.mValues := toNat_map_inj hvalues
  cases t
  cases t'
  cases hlist
  rfl

theorem IntTab.FitsIn.length_packing (h : t.FitsIn widths) : (packing widths t).length = widths.level := by
  rw [packing, List.length_map, List.length_zip]
  exact min_eq_left (le_of_eq h.level.symm)

/-- The bits from a level on. -/
theorem IntTab.FitsIn.bits_drop (h : t.FitsIn widths) (n : ℕ) :
    MixedRadix.bits ((packing widths t).drop n) = ((widths.mValues.drop n).map BitVec.toNat).sum := by
  rw [MixedRadix.bits, List.map_drop, h.widths_eq, List.map_drop]

/-- The bits above a level. -/
theorem IntTab.FitsIn.bits_take (h : t.FitsIn widths) (n : ℕ) :
    MixedRadix.bits ((packing widths t).take n) = widths.bits n := by
  rw [MixedRadix.bits, List.map_take, h.widths_eq, IntTab.bits, List.map_take]

/-- The number of a level, from the identifier. -/
theorem IntTab.FitsIn.digit (h : t.FitsIn widths) {l : ℕ} (hl : l < widths.level) (hl' : l < t.level) :
    MixedRadix.encode (packing widths t) / 2 ^ MixedRadix.bits ((packing widths t).drop (l + 1)) %
      2 ^ (widths.mValues.get ⟨l, hl⟩).toNat = (t.mValues.get ⟨l, hl'⟩).toNat := by
  have hlen : l < (packing widths t).length := by rwa [h.length_packing]
  have hsplit : packing widths t = (packing widths t).take l ++ (packing widths t).get ⟨l, hlen⟩ ::
      (packing widths t).drop (l + 1) := by
    rw [List.get_eq_getElem, List.cons_getElem_drop_succ, List.take_append_drop]
  have hget : (packing widths t).get ⟨l, hlen⟩ = ((widths.mValues.get ⟨l, hl⟩).toNat, (t.mValues.get ⟨l, hl'⟩).toNat) := by
    simp [packing, nats]
  have hfits : MixedRadix.Fits ((packing widths t).get ⟨l, hlen⟩ :: (packing widths t).drop (l + 1)) := by
    have hall := h.packing_fits
    rw [hsplit] at hall
    exact hall.of_append_right
  have hdigit := MixedRadix.encode_digit hfits ((packing widths t).take l)
  rw [← hsplit, hget] at hdigit
  exact hdigit

end Packing

namespace IdMappingTable

variable {mt : IdMappingTable} {t t' index : IntTab}

/-- The table for a level takes the bits of the level. -/
theorem getIdMaskingTable_eq (hbits : mt.mLevelIdBits.bits mt.mLevelIdBits.level ≤ 30) {l : ℕ}
    (hl : l < mt.mLevelIdBits.level) :
    ∃ m, mt.getIdMaskingTable l = .ok m ∧ ∀ a, (m.get a).toNat =
      field (mt.mLevelIdBits.mValues.get ⟨l, hl⟩).toNat
        ((mt.mLevelIdBits.mValues.drop (l + 1)).map BitVec.toNat).sum a := by
  have hsucc := IntTab.bits_succ hl
  have hle := IntTab.bits_mono (t := mt.mLevelIdBits) (show l + 1 ≤ mt.mLevelIdBits.level from hl)
  have htotal : mt.mLevelIdBits.bits (l + 1) + ((mt.mLevelIdBits.mValues.drop (l + 1)).map BitVec.toNat).sum =
      mt.mLevelIdBits.bits mt.mLevelIdBits.level := by
    rw [IntTab.bits, IntTab.bits, ← List.sum_append, ← List.map_append, List.take_append_drop, IntTab.level,
      List.take_length]
  have hdrop : (mt.mLevelIdBits.mValues.drop (l + 1)).sum.toNat =
      ((mt.mLevelIdBits.mValues.drop (l + 1)).map BitVec.toNat).sum := by
    rw [IntTab.list_sum_toNat]
    exact Nat.mod_eq_of_lt (by omega)
  obtain ⟨m, hm, -, -, -, hget⟩ := AddressMaskingTable.init_eq (mt.mLevelIdBits.mValues.get ⟨l, hl⟩)
    (mt.mLevelIdBits.mValues.drop (l + 1)).sum (by omega)
  refine ⟨m, ?_, ?_⟩
  · rw [getIdMaskingTable, MappingTable.component, IntTab.get_of_lt hl]
    show lift (MappingTable.lift (AddressMaskingTable.init _ _)) = _
    rw [hm]
    rfl
  · rwa [hdrop] at hget

/-! ### The locality table -/

/-- The identifier of an index that fits. -/
def ident (widths t : IntTab) : BitVec 32 := BitVec.ofNat 32 (MixedRadix.encode (packing widths t))

theorem indexForId_eq (hbits : mt.mLevelIdBits.bits mt.mLevelIdBits.level ≤ 30) (h : t.FitsIn mt.mLevelIdBits) :
    mt.indexForId t = .ok (ident mt.mLevelIdBits t) ∧
      (ident mt.mLevelIdBits t).toNat = MixedRadix.encode (packing mt.mLevelIdBits t) := by
  obtain ⟨id, hid, hn⟩ := h.mul_eq hbits
  have he : ident mt.mLevelIdBits t = id := by
    rw [ident, ← hn, BitVec.ofNat_toNat, BitVec.setWidth_eq]
  rw [he]
  exact ⟨hid, hn⟩

/-- What the builder of the table reads. -/
def idLocality (mt : IdMappingTable) (index : IntTab) : MappingTable.Reading Bool where
  keep _ := true
  useBits := mt.mLevelIdBits.bits index.level
  dropBits := mt.mLevelIdBits.bits mt.mLevelIdBits.level - mt.mLevelIdBits.bits index.level
  value s := s.mTargetIndex.idMatches index

/-- The bits the table decodes are the packing of the prefix. -/
theorem field_ident (hbits : mt.mLevelIdBits.bits mt.mLevelIdBits.level ≤ 30) (h : t.FitsIn mt.mLevelIdBits)
    (n : ℕ) :
    field (mt.mLevelIdBits.bits n) (mt.mLevelIdBits.bits mt.mLevelIdBits.level - mt.mLevelIdBits.bits n)
      (ident mt.mLevelIdBits t) = MixedRadix.encode ((packing mt.mLevelIdBits t).take n) := by
  have hfits := h.packing_fits
  have htake : MixedRadix.Fits ((packing mt.mLevelIdBits t).take n) := fun p hp => hfits p (List.mem_of_mem_take hp)
  have hdropFits : MixedRadix.Fits ((packing mt.mLevelIdBits t).drop n) := fun p hp => hfits p (List.mem_of_mem_drop hp)
  have hlt := MixedRadix.encode_lt htake
  rw [h.bits_take] at hlt
  have hsum : MixedRadix.bits ((packing mt.mLevelIdBits t).drop n) =
      mt.mLevelIdBits.bits mt.mLevelIdBits.level - mt.mLevelIdBits.bits n := by
    have happend := MixedRadix.bits_append ((packing mt.mLevelIdBits t).take n) ((packing mt.mLevelIdBits t).drop n)
    rw [List.take_append_drop, h.bits_eq, h.bits_take] at happend
    omega
  rw [field, (indexForId_eq hbits h).2, ← hsum]
  nth_rewrite 1 [← List.take_append_drop n (packing mt.mLevelIdBits t)]
  rw [MixedRadix.encode_div hdropFits, Nat.mod_eq_of_lt hlt]

/-- Matching a prefix only looks at its levels. -/
theorem idMatches_congr (h : t.mValues.take index.level = t'.mValues.take index.level) :
    t.idMatches index = t'.idMatches index := by
  have hzip : ∀ l m : List (BitVec 32), l.zip m = (l.take m.length).zip m := by
    intro l m
    induction m generalizing l with
    | nil => simp
    | cons b m ih =>
      cases l with
      | nil => rfl
      | cons a l => rw [List.zip_cons_cons, ih, List.length_cons, List.take_succ_cons, List.zip_cons_cons]
  rw [IntTab.idMatches, IntTab.idMatches, hzip, hzip t'.mValues]
  have h' : t.mValues.take index.mValues.length = t'.mValues.take index.mValues.length := h
  rw [h']

/-- Identifiers that the table does not tell apart match the same prefix. -/
theorem idMatches_of_field (hbits : mt.mLevelIdBits.bits mt.mLevelIdBits.level ≤ 30) (h : t.FitsIn mt.mLevelIdBits)
    (h' : t'.FitsIn mt.mLevelIdBits)
    (he : field (mt.idLocality index).useBits (mt.idLocality index).dropBits (ident mt.mLevelIdBits t) =
      field (mt.idLocality index).useBits (mt.idLocality index).dropBits (ident mt.mLevelIdBits t')) :
    t.idMatches index = t'.idMatches index := by
  apply idMatches_congr
  have hcode : MixedRadix.encode ((packing mt.mLevelIdBits t).take index.level) =
      MixedRadix.encode ((packing mt.mLevelIdBits t').take index.level) := by
    rw [← field_ident hbits h, ← field_ident hbits h']
    exact he
  have hpack := MixedRadix.encode_inj (by rw [List.map_take, List.map_take, h.widths_eq, h'.widths_eq])
    (fun p hp => h.packing_fits p (List.mem_of_mem_take hp)) (fun p hp => h'.packing_fits p (List.mem_of_mem_take hp))
    hcode
  have hvalues := congrArg (List.map Prod.snd) hpack
  rw [List.map_take, List.map_take, h.values_eq, h'.values_eq, ← List.map_take, ← List.map_take] at hvalues
  exact toNat_map_inj hvalues

/-- The loop over the segments. -/
theorem fill_outcome (hbits : mt.mLevelIdBits.bits mt.mLevelIdBits.level ≤ 30)
    (hsegs : ∀ s ∈ mt.mSegmentList, s.mTargetIndex.FitsIn mt.mLevelIdBits) (hu : (mt.idLocality index).useBits ≤ 30)
    {p : MappingTable.Tables Bool} (hp : MappingTable.Holds (mt.idLocality index) true [] p) :
    SlotTable.Outcome (MappingTable.Holds (mt.idLocality index) true) (fun _ => True)
      (mt.mSegmentList.flatMap fun s => [(field (mt.idLocality index).useBits (mt.idLocality index).dropBits
        (ident mt.mLevelIdBits s.mTargetIndex), s.mTargetIndex.idMatches index)])
      (mt.mSegmentList.foldlM (fun p s => do
        let id ← mt.indexForId s.mTargetIndex
        lift (MappingTable.mark s (s.mTargetIndex.idMatches index) p id)) p) := by
  apply SlotTable.outcome_foldlM _ [] p hp
  intro s hs l p hp
  have hmark := MappingTable.mark_outcome hu hs (s.mTargetIndex.idMatches index) hp (ident mt.mLevelIdBits s.mTargetIndex)
  rw [(indexForId_eq hbits (hsegs s hs)).1]
  show SlotTable.Outcome _ _ _ (lift _)
  cases hr : MappingTable.mark s (s.mTargetIndex.idMatches index) p (ident mt.mLevelIdBits s.mTargetIndex) with
  | ok p' =>
    rw [hr] at hmark
    exact hmark
  | error e =>
    rw [hr] at hmark
    exact ⟨trivial, hmark.2⟩

/-- No two segments contradict each other. -/
theorem coherent_segments (hbits : mt.mLevelIdBits.bits mt.mLevelIdBits.level ≤ 30)
    (hsegs : ∀ s ∈ mt.mSegmentList, s.mTargetIndex.FitsIn mt.mLevelIdBits) (index : IntTab) :
    SlotTable.Coherent (mt.mSegmentList.flatMap fun s => [(field (mt.idLocality index).useBits
      (mt.idLocality index).dropBits (ident mt.mLevelIdBits s.mTargetIndex), s.mTargetIndex.idMatches index)]) := by
  intro i v v' hv hv'
  obtain ⟨s, hs, hv⟩ := List.mem_flatMap.mp hv
  obtain ⟨s', hs', hv'⟩ := List.mem_flatMap.mp hv'
  obtain ⟨rfl, rfl⟩ := Prod.mk.inj (List.mem_singleton.mp hv)
  obtain ⟨hfield, rfl⟩ := Prod.mk.inj (List.mem_singleton.mp hv')
  exact idMatches_of_field hbits (hsegs s hs) (hsegs s' hs') hfield

/-- The two words the table is made from: the bits of the prefix's levels, and
those below them. -/
theorem idLocality_bits (hbits : mt.mLevelIdBits.bits mt.mLevelIdBits.level ≤ 30) (index : IntTab) :
    (mt.mLevelIdBits.sum index.level).toNat = (mt.idLocality index).useBits ∧
      (mt.mLevelIdBits.sum 10 - mt.mLevelIdBits.sum index.level).toNat = (mt.idLocality index).dropBits ∧
      (mt.idLocality index).useBits ≤ 30 := by
  have hall : mt.mLevelIdBits.bits 10 = mt.mLevelIdBits.bits mt.mLevelIdBits.level := by
    have hlen := mt.mLevelIdBits.length_le
    rw [IntTab.bits, IntTab.bits, List.take_of_length_le (by omega), IntTab.level, List.take_length]
  have hprefix : mt.mLevelIdBits.bits index.level ≤ mt.mLevelIdBits.bits mt.mLevelIdBits.level := by
    have hlen := index.length_le
    rw [← hall]
    exact IntTab.bits_mono (show index.level ≤ 10 from by unfold IntTab.level; omega)
  have hn : (mt.mLevelIdBits.sum index.level).toNat = mt.mLevelIdBits.bits index.level := IntTab.sum_toNat (by omega)
  have hw : (mt.mLevelIdBits.sum 10).toNat = mt.mLevelIdBits.bits mt.mLevelIdBits.level := by
    rw [IntTab.sum_toNat (by omega), hall]
  refine ⟨hn, ?_, hprefix.trans hbits⟩
  rw [BitVec.toNat_sub_of_le (by rw [BitVec.le_def]; omega), hw, hn]
  rfl

/-- The locality table is built, and tells every segment's index. -/
theorem getIdLocalityTable_eq (hbits : mt.mLevelIdBits.bits mt.mLevelIdBits.level ≤ 30)
    (hsegs : ∀ s ∈ mt.mSegmentList, s.mTargetIndex.FitsIn mt.mLevelIdBits) (index : IntTab) :
    ∃ adt, mt.getIdLocalityTable index = .ok adt ∧
      ∀ s ∈ mt.mSegmentList, adt.get (ident mt.mLevelIdBits s.mTargetIndex) = s.mTargetIndex.idMatches index := by
  obtain ⟨huse, hdrop, hu⟩ := idLocality_bits hbits index
  obtain ⟨adt, hadt, hau, had⟩ : ∃ t : AddressDecodingTable Bool, AddressDecodingTable.init
      (mt.mLevelIdBits.sum index.level) (mt.mLevelIdBits.sum 10 - mt.mLevelIdBits.sum index.level) = .ok t ∧
      t.mUseBits = (mt.mLevelIdBits.sum index.level).toNat ∧
      t.mDropBits = (mt.mLevelIdBits.sum 10 - mt.mLevelIdBits.sum index.level).toNat :=
    AddressDecodingTable.init_eq (by omega) (AddressDecodingTable.allocates_bool_iff.mpr (by omega))
  rw [huse] at hau
  rw [hdrop] at had
  have hreset : MappingTable.Holds (mt.idLocality index) true [] ⟨adt.reset true, adt.reset false⟩ :=
    MappingTable.holds_reset hau had hau had
  have hout := fill_outcome hbits hsegs hu hreset
  rw [getIdLocalityTable, hadt]
  cases hr : mt.mSegmentList.foldlM (fun p s => do
      let id ← mt.indexForId s.mTargetIndex
      lift (MappingTable.mark s (s.mTargetIndex.idMatches index) p id)) ⟨adt.reset true, adt.reset false⟩ with
  | error e =>
    rw [hr] at hout
    exact absurd (coherent_segments hbits hsegs index) hout.2
  | ok p' =>
    rw [hr] at hout
    have hholds : MappingTable.Holds (mt.idLocality index) true _ p' := hout
    refine ⟨p'.adt, ?_, fun s hs => ?_⟩
    · show Except.bind (mt.mSegmentList.foldlM _ _) _ = _
      rw [hr]
      rfl
    · rw [AddressDecodingTable.get, hholds.adt_id hu]
      exact hholds.fits.value _ _ (List.mem_flatMap.mpr ⟨s, hs, List.mem_singleton_self _⟩)

/-- Identifiers and their tables are right for these indices. -/
structure RoundTrips (mt : IdMappingTable) : Prop where
  /-- every level's number is taken from the identifier -/
  digits : ∀ t : IntTab, t.FitsIn mt.mLevelIdBits → ∃ id, mt.indexForId t = .ok id ∧
    ∀ l < mt.mLevelIdBits.level, ∃ m, mt.getIdMaskingTable l = .ok m ∧ t.get l = some (m.get id)
  inj : ∀ t t' : IntTab, t.FitsIn mt.mLevelIdBits → t'.FitsIn mt.mLevelIdBits →
    mt.indexForId t = mt.indexForId t' → t = t'
  /-- the locality table of a prefix is built, and tells which segments are under it -/
  locality : (∀ s ∈ mt.mSegmentList, s.mTargetIndex.FitsIn mt.mLevelIdBits) →
    ∀ index : IntTab, ∃ adt, mt.getIdLocalityTable index = .ok adt ∧ ∀ s ∈ mt.mSegmentList,
      ∃ id, mt.indexForId s.mTargetIndex = .ok id ∧ adt.get id = s.mTargetIndex.idMatches index

/-- **Identifiers can be taken apart.** For every number of levels and every
widths of 30 bits in all: the masking table of each level takes its number from
the identifier of every index that fits, so that identifiers are different; and
if the indices of all segments fit, the locality table of every index is built
and tells for each segment whether it matches. -/
theorem ids_round_trip (mt : IdMappingTable) (hbits : mt.mLevelIdBits.bits mt.mLevelIdBits.level ≤ 30) :
    mt.RoundTrips := by
  refine ⟨fun t h => ?_, fun t t' h h' he => ?_, fun hsegs index => ?_⟩
  · obtain ⟨hid, hn⟩ := indexForId_eq hbits h
    refine ⟨_, hid, fun l hl => ?_⟩
    have hl' : l < t.level := by rwa [h.level]
    obtain ⟨m, hm, hget⟩ := getIdMaskingTable_eq hbits hl
    refine ⟨m, hm, ?_⟩
    rw [IntTab.get_of_lt hl', Option.some_inj]
    apply BitVec.eq_of_toNat_eq
    symm
    calc (m.get (ident mt.mLevelIdBits t)).toNat
        = MixedRadix.encode (packing mt.mLevelIdBits t) /
            2 ^ MixedRadix.bits ((packing mt.mLevelIdBits t).drop (l + 1)) %
            2 ^ (mt.mLevelIdBits.mValues.get ⟨l, hl⟩).toNat := by rw [hget, field, hn, h.bits_drop]
      _ = (t.mValues.get ⟨l, hl'⟩).toNat := h.digit hl hl'
  · obtain ⟨hid, hn⟩ := indexForId_eq hbits h
    obtain ⟨hid', hn'⟩ := indexForId_eq hbits h'
    rw [hid, hid'] at he
    apply h.inj h'
    rw [← hn, ← hn', Except.ok.inj he]
  · obtain ⟨adt, hadt, hget⟩ := getIdLocalityTable_eq hbits hsegs index
    exact ⟨adt, hadt, fun s hs => ⟨_, (indexForId_eq hbits (hsegs s hs)).1, hget s hs⟩⟩

/-- Two bits for the cluster, three for the target. -/
def idWidths : IntTab := ⟨[2, 3], by decide, by simp⟩

/-- A segment of target 5 in a cluster. -/
def inCluster (c : BitVec 32) (hc : c ≠ -1) : Segment where
  mName := "RAM"
  mBaseAddress := c <<< 28
  mSize := 0x1000
  mTargetIndex := ⟨[c, 5], by simp, by simpa using hc⟩
  mCacheability := true

/-- Target 5 of the clusters 1 and 3. -/
def twoClusters : IdMappingTable where
  mSegmentList := [inCluster 1 (by decide), inCluster 3 (by decide)]
  mAddrWidth := 32
  mLevelAddrBits := idWidths
  mCacheabilityMask := 0x80000000
  mRtSize := 0x1000000
  mLevelIdBits := idWidths

theorem inCluster_fits {c : BitVec 32} (hc : c ≠ -1) (hlt : c.toNat < 4) :
    (inCluster c hc).mTargetIndex.FitsIn twoClusters.mLevelIdBits := by
  refine ⟨rfl, ?_⟩
  intro p hp
  simp only [inCluster, twoClusters, idWidths, List.zip_cons_cons, List.zip_nil_right, List.mem_cons,
    List.not_mem_nil, or_false] at hp
  obtain rfl | rfl := hp
  · exact hlt
  · decide

/-- The identifiers of the two segments; seen from cluster 1, only the first
is local. -/
theorem ids_two_clusters : twoClusters.indexForId (inCluster 1 (by decide)).mTargetIndex = .ok 13 ∧
    twoClusters.indexForId (inCluster 3 (by decide)).mTargetIndex = .ok 29 ∧
    ∃ adt, twoClusters.getIdLocalityTable ⟨[1], by decide, by simp⟩ = .ok adt ∧ adt.get 13 = true ∧
      adt.get 29 = false := by
  have hsegs : ∀ s ∈ twoClusters.mSegmentList, s.mTargetIndex.FitsIn twoClusters.mLevelIdBits := by
    intro s hs
    rcases List.mem_pair.mp hs with rfl | rfl
    · exact inCluster_fits _ (by decide)
    · exact inCluster_fits _ (by decide)
  obtain ⟨adt, hadt, hget⟩ := (ids_round_trip twoClusters (by decide)).locality hsegs ⟨[1], by decide, by simp⟩
  obtain ⟨id, hid, hlocal⟩ := hget (inCluster 1 (by decide)) List.mem_cons_self
  obtain ⟨id', hid', hlocal'⟩ := hget (inCluster 3 (by decide)) (List.mem_cons_of_mem _ List.mem_cons_self)
  have h13 : twoClusters.indexForId (inCluster 1 (by decide)).mTargetIndex = .ok 13 := rfl
  have h29 : twoClusters.indexForId (inCluster 3 (by decide)).mTargetIndex = .ok 29 := rfl
  cases Except.ok.inj (h13.symm.trans hid)
  cases Except.ok.inj (h29.symm.trans hid')
  exact ⟨h13, h29, adt, hadt, hlocal, hlocal'⟩

end IdMappingTable

end Tp2
end Smc
