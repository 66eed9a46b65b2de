/-
# A memory of bytes

The addresses are words and come round. A 32-bit word is kept in four bytes,
the lowest first. `copyBytes` is the plain copy, one byte after the other from
index 0 on; each byte is read when it is its turn, so that if the ranges
overlap it may be one that was written before.

Loading a word and storing it copies four bytes. This is the same as copying
them one by one if none of the last three is among those written before it.
It is so if both addresses are multiples of four
(`storeWord_loadWord`): then the distance of the two is one, too.

Key definitions: `Memory`, `loadWord`, `storeWord`, `copyBytes`.
Key theorems: `copyBytes_add`, `copyBytes_outside`, `copyBytes_disjoint`,
`storeWord_loadWord`.
-/
import Mathlib.Tactic

namespace Smc

/-- A byte for each address. -/
abbrev Memory (w : ℕ) := BitVec w → BitVec 8

namespace Memory

variable {w : ℕ}

def loadWord (m : Memory w) (a : BitVec w) : BitVec 32 := m (a + 3) ++ m (a + 2) ++ m (a + 1) ++ m a

def byte (v : BitVec 32) (i : ℕ) : BitVec 8 := v.extractLsb' (8 * i) 8

/-- The first `n` bytes of a word, written from `a` on. -/
def storeBytes (m : Memory w) (a : BitVec w) (v : BitVec 32) : ℕ → Memory w
  | 0 => m
  | n + 1 => Function.update (storeBytes m a v n) (a + BitVec.ofNat w n) (byte v n)

def storeWord (m : Memory w) (a : BitVec w) (v : BitVec 32) : Memory w := storeBytes m a v 4

/-- The bytes `src[0]`, ..., `src[n - 1]` are copied, in this order. -/
def copyBytes (m : Memory w) (dst src : BitVec w) : ℕ → Memory w
  | 0 => m
  | n + 1 => Function.update (copyBytes m dst src n) (dst + BitVec.ofNat w n)
      (copyBytes m dst src n (src + BitVec.ofNat w n))

variable {m : Memory w} {a dst src : BitVec w} {n : ℕ}

/-! ### The plain copy -/

theorem add_ofNat (a : BitVec w) (i j : ℕ) : a + BitVec.ofNat w i + BitVec.ofNat w j = a + BitVec.ofNat w (i + j) := by
  rw [BitVec.add_assoc, BitVec.ofNat_add]

theorem copyBytes_add (m : Memory w) (dst src : BitVec w) (k n : ℕ) :
    copyBytes (copyBytes m dst src k) (dst + BitVec.ofNat w k) (src + BitVec.ofNat w k) n =
      copyBytes m dst src (k + n) := by
  induction n with
  | zero => rfl
  | succ n ih =>
    rw [copyBytes, ih, add_ofNat, add_ofNat, ← Nat.add_assoc, copyBytes]

theorem copyBytes_outside (h : ∀ i < n, a ≠ dst + BitVec.ofNat w i) : copyBytes m dst src n a = m a := by
  induction n with
  | zero => rfl
  | succ n ih =>
    rw [copyBytes, Function.update_of_ne (h n (Nat.lt_succ_self n))]
    exact ih fun i hi => h i (by omega)

theorem ofNat_add_ne {i j : ℕ} (hi : i < 2 ^ w) (hj : j < 2 ^ w) (hne : i ≠ j) :
    dst + BitVec.ofNat w i ≠ dst + BitVec.ofNat w j := by
  intro h
  have heq := (BitVec.add_right_inj dst).mp h
  rw [← BitVec.toNat_inj, BitVec.toNat_ofNat, BitVec.toNat_ofNat, Nat.mod_eq_of_lt hi, Nat.mod_eq_of_lt hj] at heq
  exact hne heq

/-- If the source is not written, its bytes are what the destination has at the
end. -/
theorem copyBytes_disjoint (hn : n ≤ 2 ^ w)
    (h : ∀ i < n, ∀ j < n, src + BitVec.ofNat w i ≠ dst + BitVec.ofNat w j) {i : ℕ} (hi : i < n) :
    copyBytes m dst src n (dst + BitVec.ofNat w i) = m (src + BitVec.ofNat w i) := by
  induction n with
  | zero => omega
  | succ n ih =>
    rcases Nat.lt_succ_iff_lt_or_eq.mp hi with hlt | rfl
    · rw [copyBytes, Function.update_of_ne (ofNat_add_ne (by omega) (by omega) (by omega))]
      exact ih (by omega) (fun i hi j hj => h i (by omega) j (by omega)) hlt
    · rw [copyBytes, Function.update_self]
      exact copyBytes_outside fun j hj => h i (by omega) j (by omega)

/-! ### Words -/

theorem byte_loadWord (m : Memory w) (a : BitVec w) (hn : n < 4) :
    byte (loadWord m a) n = m (a + BitVec.ofNat w n) := by
  unfold byte loadWord
  interval_cases n
  all_goals
    ext i hi
    simp only [BitVec.getElem_extractLsb', BitVec.getLsbD_append]
    grind

theorem ne_of_aligned (hw : 2 ≤ w) (hd : dst.toNat % 4 = 0) (hs : src.toNat % 4 = 0) {i j : ℕ} (hi : i < j) (hj : j < 4) :
    src + BitVec.ofNat w j ≠ dst + BitVec.ofNat w i := by
  have hdvd : 4 ∣ 2 ^ w := pow_dvd_pow 2 hw
  have hmod : ∀ (a : BitVec w) (k : ℕ), a.toNat % 4 = 0 → k < 4 → (a + BitVec.ofNat w k).toNat % 4 = k := by
    intro a k ha hk
    rw [BitVec.toNat_add, BitVec.toNat_ofNat, Nat.add_mod_mod, Nat.mod_mod_of_dvd _ hdvd]
    omega
  intro h
  have hj' := hmod src j hs hj
  rw [h, hmod dst i hd (by omega)] at hj'
  omega

/-- Copying a word copies its bytes, if both addresses are aligned. -/
theorem storeWord_loadWord (hw : 2 ≤ w) (m : Memory w) (hd : dst.toNat % 4 = 0) (hs : src.toNat % 4 = 0) :
    storeWord m dst (loadWord m src) = copyBytes m dst src 4 := by
  have hbytes : ∀ n ≤ 4, storeBytes m dst (loadWord m src) n = copyBytes m dst src n := by
    intro n hn
    induction n with
    | zero => rfl
    | succ n ih =>
      -- the byte that is copied now is not among those written before
      have hkept : copyBytes m dst src n (src + BitVec.ofNat w n) = m (src + BitVec.ofNat w n) :=
        copyBytes_outside fun i hi => ne_of_aligned hw hd hs hi (by omega)
      rw [storeBytes, copyBytes, ih (by omega), byte_loadWord m src (by omega), hkept]
  exact hbytes 4 le_rfl

end Memory
end Smc
