/-
# memcpy

The copy function of the kernel and of the applications
(`giet_2011/sys/common.h`, `giet_2011/app/stdio.h`; the two are the same).
If both addresses are word-aligned it copies by words as long as there are four
bytes left, then by bytes. A word access to an address that is not a multiple
of four is an exception.

It is the plain copy by bytes for every content, also if the ranges overlap
(`memcpy_bytes`): after some words both pointers are still aligned, so that
each word is copied as its four bytes would be.

Key definitions: `copyWords`, `copyRest`, `memcpy`, `fbSync`.
Key theorems: `copyWords_eq`, `memcpy_eq`, `memcpy_bytes`, `fbSync_bytes`.
-/
import Smc.Lib.ByteMemory
import Smc.Giet.Drivers

namespace Smc
namespace Giet
namespace Memcpy

open Drivers (Word Handed Board)
open Memory

/-! ### The function -/

/-- The load of a word, an exception at an address that is not aligned. -/
def lw (m : Memory 32) (a : Word) : Option Word := if a &&& 3 = 0 then some (m.loadWord a) else none

/-- The store of a word. -/
def sw (m : Memory 32) (a v : Word) : Option (Memory 32) := if a &&& 3 = 0 then some (m.storeWord a v) else none

/-- The loop of words: the memory after it, the two pointers and the size left. -/
def copyWords (m : Memory 32) (dst src : Word) (size : ℕ) : Option (Memory 32 × Word × Word × ℕ) :=
  if size > 3 then do
    let v ← lw m src
    let m ← sw m dst v
    copyWords m (dst + 4) (src + 4) (size - 4)
  else some (m, dst, src, size)

/-- The loop of bytes. -/
def copyRest (m : Memory 32) (cdst csrc : Word) : ℕ → Memory 32
  | 0 => m
  | size + 1 => copyRest (Function.update m cdst (m csrc)) (cdst + 1) (csrc + 1) size

/-- `memcpy`: the memory after it, and what it returns. -/
def memcpy (m : Memory 32) (dst src size : Word) : Option (Memory 32 × Word) := do
  let (m, cdst, csrc, size) ←
    if dst &&& 3 = 0 ∧ src &&& 3 = 0 then copyWords m dst src size.toNat else some (m, dst, src, size.toNat)
  some (copyRest m cdst csrc size, dst)

/-- A function of the frame buffer that copies: what it returns, and the memory
after it. -/
def fbSync (m : Memory 32) : Except Word Handed → Option (Word × Memory 32)
  | .error e => some (e, m)
  | .ok (.memcpy dst src length) => (memcpy m dst src length).map fun r => (0, r.1)
  | .ok _ => none

/-! ### The loops -/

variable {dst src a : Word} {k n : ℕ}

theorem aligned_iff : a &&& 3 = 0 ↔ a.toNat % 4 = 0 := by
  have hmod : (a &&& 3).toNat = a.toNat % 4 := by
    rw [BitVec.toNat_and]
    exact Nat.and_two_pow_sub_one_eq_mod _ 2
  rw [← hmod, ← BitVec.toNat_inj]
  rfl

theorem aligned_add (h : a.toNat % 4 = 0) (hk : 4 ∣ k) : (a + BitVec.ofNat 32 k).toNat % 4 = 0 := by
  rw [BitVec.toNat_add, BitVec.toNat_ofNat]
  omega

/-- The loop of bytes goes on with a copy. -/
theorem copyRest_eq (m : Memory 32) (dst src : Word) (k n : ℕ) :
    copyRest (m.copyBytes dst src k) (dst + BitVec.ofNat 32 k) (src + BitVec.ofNat 32 k) n =
      m.copyBytes dst src (k + n) := by
  induction n generalizing k with
  | zero => rfl
  | succ n ih =>
    rw [copyRest, show (1 : Word) = BitVec.ofNat 32 1 from rfl, add_ofNat, add_ofNat]
    show copyRest (m.copyBytes dst src (k + 1)) _ _ n = _
    rw [ih, Nat.add_assoc, Nat.add_comm 1 n]

/-- The loop of words goes on with a copy: both pointers stay aligned, and at
most three bytes are left. -/
theorem copyWords_eq (m : Memory 32) (hd : dst.toNat % 4 = 0) (hs : src.toNat % 4 = 0) (hk : 4 ∣ k) (n : ℕ) :
    ∃ j ≤ n, copyWords (m.copyBytes dst src k) (dst + BitVec.ofNat 32 k) (src + BitVec.ofNat 32 k) n =
      some (m.copyBytes dst src (k + j), dst + BitVec.ofNat 32 (k + j), src + BitVec.ofNat 32 (k + j), n - j) := by
  induction n using Nat.strong_induction_on generalizing k with
  | _ n ih =>
    rw [copyWords]
    by_cases hn : n > 3
    · have hdk := aligned_add hd hk
      have hsk := aligned_add hs hk
      obtain ⟨j, hj, hrun⟩ := ih (n - 4) (by omega) (Nat.dvd_add hk (dvd_refl 4))
      refine ⟨j + 4, by omega, ?_⟩
      rw [if_pos hn, lw, if_pos (aligned_iff.mpr hsk)]
      simp only [Option.bind_eq_bind, Option.bind_some]
      rw [sw, if_pos (aligned_iff.mpr hdk), Option.bind_some, storeWord_loadWord (by decide) _ hdk hsk,
        copyBytes_add, show (4 : Word) = BitVec.ofNat 32 4 from rfl, add_ofNat, add_ofNat, hrun]
      rw [show k + 4 + j = k + (j + 4) by omega, show n - 4 - j = n - (j + 4) by omega]
    · refine ⟨0, Nat.zero_le n, ?_⟩
      rw [if_neg hn]
      rfl

/-- `memcpy` is the plain copy. -/
theorem memcpy_eq (m : Memory 32) (dst src size : Word) :
    memcpy m dst src size = some (m.copyBytes dst src size.toNat, dst) := by
  have hzero : ∀ a : Word, a = a + BitVec.ofNat 32 0 := fun a => (BitVec.add_zero a).symm
  unfold memcpy
  by_cases h : dst &&& 3 = 0 ∧ src &&& 3 = 0
  · obtain ⟨j, hj, hrun⟩ := copyWords_eq m (aligned_iff.mp h.1) (aligned_iff.mp h.2) (dvd_zero 4) size.toNat
    rw [← hzero, ← hzero, Nat.zero_add] at hrun
    rw [if_pos h, show m = m.copyBytes dst src 0 from rfl, hrun]
    show some (copyRest _ _ _ _, dst) = _
    rw [copyRest_eq, Nat.add_sub_cancel' hj]
    rfl
  · rw [if_neg h]
    show some (copyRest m dst src size.toNat, dst) = _
    have hrest := copyRest_eq m dst src 0 size.toNat
    rw [← hzero, ← hzero, Nat.zero_add] at hrest
    rw [← hrest]
    rfl

/-! ### What is copied -/

/-- The address is in the range. -/
def InRange (a : Word) (n : ℕ) (x : Word) : Prop := a.toNat ≤ x.toNat ∧ x.toNat < a.toNat + n

theorem inRange_add (h : a.toNat + n ≤ 2 ^ 32) {i : ℕ} (hi : i < n) : InRange a n (a + BitVec.ofNat 32 i) := by
  unfold InRange
  rw [BitVec.toNat_add, BitVec.toNat_ofNat]
  omega

/-- **`memcpy` is the copy by bytes.** For every destination, source and size
whose ranges do not run past the end of the memory and every content, the
memory after `memcpy` is that of the plain copy from index 0 on. Nothing
outside the destination changes. If the ranges are disjoint the destination is
what the source was. -/
theorem memcpy_bytes (m : Memory 32) (dst src size : Word) (hd : dst.toNat + size.toNat ≤ 2 ^ 32)
    (hs : src.toNat + size.toNat ≤ 2 ^ 32) :
    ∃ m', memcpy m dst src size = some (m', dst) ∧ m' = m.copyBytes dst src size.toNat ∧
      (∀ a, ¬ InRange dst size.toNat a → m' a = m a) ∧
      ((∀ a, ¬ (InRange dst size.toNat a ∧ InRange src size.toNat a)) →
        ∀ i < size.toNat, m' (dst + BitVec.ofNat 32 i) = m (src + BitVec.ofNat 32 i)) := by
  refine ⟨_, memcpy_eq m dst src size, rfl, ?_, ?_⟩
  · intro a ha
    apply copyBytes_outside
    intro i hi he
    exact ha (he ▸ inRange_add hd hi)
  · intro hdisj i hi
    apply copyBytes_disjoint (by omega) _ hi
    intro i hi j hj he
    exact hdisj _ ⟨inRange_add hd hj, he ▸ inRange_add hs hi⟩

/-- Six bytes copied to the next word: the fifth is read after it is
overwritten by the first. -/
theorem memcpy_overlap : ∃ m', memcpy (fun a => a.setWidth 8) 0x104 0x100 6 = some (m', 0x104) ∧
    m' 0x104 = 0x00 ∧ m' 0x108 = 0x00 ∧ m' 0x10A = 0x0A := by
  obtain ⟨m', hrun, hcopy, houtside, -⟩ :=
    memcpy_bytes (fun a => a.setWidth 8) 0x104 0x100 6 (by decide) (by decide)
  refine ⟨m', hrun, ?_, ?_, houtside 0x10A (by unfold InRange; decide)⟩
  · rw [hcopy]
    decide
  · rw [hcopy]
    decide

/-- The functions of the frame buffer that copy return 1 and do nothing, or
return 0 after the plain copy. -/
theorem fbSync_bytes (b : Board) (m : Memory 32) (offset buffer length : Word) :
    fbSync m (Drivers.fbSyncWrite b offset buffer length) =
        some (if Drivers.outsideUserSpace buffer length then (1, m)
          else (0, m.copyBytes (b.segFbBase + offset) buffer length.toNat)) ∧
      fbSync m (Drivers.fbSyncRead b offset buffer length) =
        some (if Drivers.outsideUserSpace buffer length then (1, m)
          else (0, m.copyBytes buffer (b.segFbBase + offset) length.toNat)) := by
  have hcopy : ∀ dst src, fbSync m (Drivers.checked buffer length (.memcpy dst src length)) =
      some (if Drivers.outsideUserSpace buffer length then (1, m) else (0, m.copyBytes dst src length.toNat)) := by
    intro dst src
    unfold Drivers.checked
    by_cases h : Drivers.outsideUserSpace buffer length
    · rw [if_pos h, if_pos h]
      rfl
    · rw [if_neg h, if_neg h, fbSync, memcpy_eq]
      rfl
  exact ⟨hcopy _ _, hcopy _ _⟩

end Memcpy
end Giet
end Smc
