/-
# The frame buffer

`_fb_sync_write` and `_fb_sync_read` (`giet_2011/sys/drivers.c`) copy between a
buffer in user space and the frame buffer. They check where the buffer is, in
32 bits, and not whether the transfer stays in the frame buffer.

As long as the transfers do stay there, the two functions are an array of bytes
that is written and read from user memory (`Abs`): the results and all that is
read are those of the array, for any sequence of calls with any stores of the
tasks in between, and no other address of the kernel changes (`fb_refines`). So
what is written is read back, until something else is written over it
(`fb_reads_back`).

Key definitions: `put`, `get`, `Abs.step`, `step`, `Shows`.
Key theorems: `fb_refines`, `fb_reads_back`.
-/
import Smc.Giet.Memcpy

namespace Smc
namespace Giet
namespace FrameBuffer

open Drivers (Word Board)
open Memory

abbrev Byte := BitVec 8

/-! ### Arrays of bytes -/

/-- The array with some bytes written from `o` on. -/
def put (l : ℕ → Byte) (o : ℕ) (data : List Byte) : ℕ → Byte := fun i =>
  if o ≤ i ∧ i < o + data.length then data.getD (i - o) 0 else l i

/-- The `n` bytes from `o` on. -/
def get (l : ℕ → Byte) (o n : ℕ) : List Byte := (List.range n).map fun i => l (o + i)

section Arrays

variable {l : ℕ → Byte} {o p n i : ℕ} {data : List Byte}

@[simp] theorem length_get (l : ℕ → Byte) (o n : ℕ) : (get l o n).length = n := by
  simp [get]

theorem getD_get (hi : i < n) : (get l o n).getD i 0 = l (o + i) := by
  simp [get, List.getD_eq_getElem?_getD, hi]

theorem put_inside (hi : i < data.length) : put l o data (o + i) = data.getD i 0 := by
  rw [put, if_pos ⟨Nat.le_add_right o i, Nat.add_lt_add_left hi o⟩, Nat.add_sub_cancel_left]

theorem put_outside (h : i < o ∨ o + data.length ≤ i) : put l o data i = l i := by
  rw [put, if_neg (by omega)]

/-- What is written is read, also in parts. -/
theorem get_put_inside (h : p + n ≤ data.length) : get (put l o data) (o + p) n = (data.drop p).take n := by
  apply List.ext_getElem?
  intro i
  by_cases hi : i < n
  · have hdata : i + p < data.length := by omega
    have hget := getD_get (l := put l o data) (o := o + p) hi
    rw [Nat.add_assoc, put_inside (by omega), List.getD_eq_getElem?_getD, List.getD_eq_getElem?_getD,
      List.getElem?_eq_getElem (show i < (get (put l o data) (o + p) n).length by rw [length_get]; exact hi),
      List.getElem?_eq_getElem (show p + i < data.length by omega), Option.getD_some, Option.getD_some] at hget
    rw [List.getElem?_eq_getElem (show i < (get (put l o data) (o + p) n).length by rw [length_get]; exact hi), hget,
      List.getElem?_take_of_lt hi, List.getElem?_drop, List.getElem?_eq_getElem (show p + i < data.length by omega)]
  · rw [List.getElem?_eq_none (by rw [length_get]; omega), List.getElem?_eq_none]
    rw [List.length_take]
    omega

theorem get_put_self : get (put l o data) o data.length = data := by
  have h := get_put_inside (l := l) (o := o) (p := 0) (show 0 + data.length ≤ data.length by omega)
  rwa [Nat.add_zero, List.drop_zero, List.take_length] at h

/-- What is written elsewhere is not read. -/
theorem get_put_outside (h : p + n ≤ o ∨ o + data.length ≤ p) : get (put l o data) p n = get l p n := by
  apply List.map_congr_left
  intro i hi
  have hi' := List.mem_range.mp hi
  exact put_outside (by omega)

end Arrays

/-! ### The functions -/

/-- What happens: tasks store in user space, or call one of the two functions. -/
inductive Act where
  | stores (user : ℕ → Byte)
  | write (offset buffer length : Word)
  | read (offset buffer length : Word)

/-- What a call shows: its result, and what a read has put in the buffer. -/
inductive Obs where
  | wrote (r : Word)
  | read (r : Word) (data : List Byte)
deriving DecidableEq, Repr

/-- The bytes of the memory from an address on. -/
def bytes (m : Memory 32) (a : Word) (n : ℕ) : List Byte := (List.range n).map fun i => m (a + BitVec.ofNat 32 i)

def step (b : Board) (m : Memory 32) : Act → Option (Memory 32 × List Obs)
  | .stores user => some (fun a => if a.toNat < 0x80000000 then user a.toNat else m a, [])
  | .write offset buffer length => do
    let (r, m) ← Memcpy.fbSync m (Drivers.fbSyncWrite b offset buffer length)
    some (m, [.wrote r])
  | .read offset buffer length => do
    let (r, m) ← Memcpy.fbSync m (Drivers.fbSyncRead b offset buffer length)
    some (m, [.read r (if r = 0 then bytes m buffer length.toNat else [])])

def run (b : Board) : List Act → Memory 32 → Option (Memory 32 × List Obs)
  | [], m => some (m, [])
  | a :: acts, m => do
    let (m, obs) ← step b m a
    let (m, rest) ← run b acts m
    some (m, obs ++ rest)

/-! ### The array -/

/-- User memory and the frame buffer, as arrays. -/
structure Abs where
  user : ℕ → Byte
  fb : ℕ → Byte

/-- A call does its transfer if the buffer is in user space, in exact numbers. -/
def Abs.step (s : Abs) : Act → Abs × List Obs
  | .stores user => ({ s with user := user }, [])
  | .write offset buffer length =>
    if buffer.toNat + length.toNat < 0x80000000 then
      ({ s with fb := put s.fb offset.toNat (get s.user buffer.toNat length.toNat) }, [.wrote 0])
    else (s, [.wrote 1])
  | .read offset buffer length =>
    if buffer.toNat + length.toNat < 0x80000000 then
      ({ s with user := put s.user buffer.toNat (get s.fb offset.toNat length.toNat) },
        [.read 0 (get s.fb offset.toNat length.toNat)])
    else (s, [.read 1 []])

def Abs.run : List Act → Abs → Abs × List Obs
  | [], s => (s, [])
  | a :: acts, s => ((Abs.run acts (s.step a).1).1, (s.step a).2 ++ (Abs.run acts (s.step a).1).2)

/-- The transfer stays in a frame buffer of `size` bytes. -/
def Act.Fits (size : ℕ) : Act → Prop
  | .stores _ => True
  | .write offset _ length | .read offset _ length => offset.toNat + length.toNat ≤ size

/-- The frame buffer is in kernel space. -/
structure Mapped (b : Board) (size : ℕ) : Prop where
  kernel : 0x80000000 ≤ b.segFbBase.toNat
  fits : b.segFbBase.toNat + size ≤ 2 ^ 32

/-- The memory has the two arrays, and elsewhere what it had at first. -/
structure Shows (b : Board) (size : ℕ) (m₀ m : Memory 32) (s : Abs) : Prop where
  user : ∀ a : Word, a.toNat < 0x80000000 → m a = s.user a.toNat
  fb : ∀ i < size, m (b.segFbBase + BitVec.ofNat 32 i) = s.fb i
  rest : ∀ a : Word, 0x80000000 ≤ a.toNat → (∀ i < size, a ≠ b.segFbBase + BitVec.ofNat 32 i) → m a = m₀ a

/-! ### One step -/

section Step

variable {b : Board} {size : ℕ} {m₀ m : Memory 32} {s : Abs} {offset buffer length : Word} {i : ℕ}

theorem toNat_fb (hb : Mapped b size) (hi : i < size) :
    (b.segFbBase + BitVec.ofNat 32 i).toNat = b.segFbBase.toNat + i := by
  have := hb.fits
  rw [BitVec.toNat_add, BitVec.toNat_ofNat]
  omega

theorem toNat_user (h : buffer.toNat + length.toNat < 0x80000000) (hi : i < length.toNat) :
    (buffer + BitVec.ofNat 32 i).toNat = buffer.toNat + i := by
  rw [BitVec.toNat_add, BitVec.toNat_ofNat]
  omega

theorem fb_add_offset (i : ℕ) :
    b.segFbBase + offset + BitVec.ofNat 32 i = b.segFbBase + BitVec.ofNat 32 (offset.toNat + i) := by
  rw [BitVec.add_assoc, BitVec.ofNat_add, BitVec.ofNat_toNat, BitVec.setWidth_eq]

/-- A transfer that stays in the frame buffer is too short for its end to come round. -/
theorem outside_iff (hb : Mapped b size) (hfits : offset.toNat + length.toNat ≤ size) :
    Drivers.outsideUserSpace buffer length = false ↔ buffer.toNat + length.toNat < 0x80000000 := by
  have hkernel := hb.kernel
  have htop := hb.fits
  have hcheck : Drivers.outsideUserSpace buffer (BitVec.ofNat 32 length.toNat) = false ↔ _ :=
    Drivers.outsideUserSpace_eq_false
  rw [BitVec.ofNat_toNat, BitVec.setWidth_eq] at hcheck
  rw [hcheck]
  omega

/-- The bytes of a buffer in user space are those of the array. -/
theorem Shows.bytes_eq (h : Shows b size m₀ m s) (hin : buffer.toNat + length.toNat < 0x80000000) :
    bytes m buffer length.toNat = get s.user buffer.toNat length.toNat := by
  apply List.map_congr_left
  intro i hi
  have hi' : i < length.toNat := List.mem_range.mp hi
  have haddr := toNat_user hin hi'
  rw [h.user _ (by omega), haddr]

/-- The copy of a buffer into the frame buffer. -/
theorem Shows.write (h : Shows b size m₀ m s) (hb : Mapped b size) (hfits : offset.toNat + length.toNat ≤ size)
    (hin : buffer.toNat + length.toNat < 0x80000000) :
    Shows b size m₀ (m.copyBytes (b.segFbBase + offset) buffer length.toNat)
      { s with fb := put s.fb offset.toNat (get s.user buffer.toNat length.toNat) } := by
  have hkernel := hb.kernel
  have hlen := length_get s.user buffer.toNat length.toNat
  -- the bytes written are those from `offset` on
  have hdst : ∀ i < length.toNat, (b.segFbBase + offset + BitVec.ofNat 32 i).toNat =
      b.segFbBase.toNat + (offset.toNat + i) := by
    intro i hi
    rw [fb_add_offset, toNat_fb hb (by omega)]
  constructor
  · intro a ha
    rw [copyBytes_outside, h.user a ha]
    intro i hi he
    have := hdst i hi
    rw [← he] at this
    omega
  · intro i hi
    by_cases hinside : offset.toNat ≤ i ∧ i < offset.toNat + length.toNat
    · obtain ⟨j, rfl⟩ := Nat.exists_eq_add_of_le hinside.1
      have hj : j < length.toNat := by omega
      have hsrc := toNat_user hin hj
      rw [← fb_add_offset, copyBytes_disjoint length.isLt.le _ hj, h.user _ (by omega), hsrc]
      · show _ = put s.fb offset.toNat _ (offset.toNat + j)
        rw [put_inside (by rw [hlen]; exact hj), getD_get hj]
      · intro i hi j hj he
        have heq := congrArg BitVec.toNat he
        rw [toNat_user hin hi, hdst j hj] at heq
        omega
    · have hout : put s.fb offset.toNat (get s.user buffer.toNat length.toNat) i = s.fb i :=
        put_outside (by rw [hlen]; omega)
      rw [copyBytes_outside, h.fb i hi]
      · exact hout.symm
      · intro j hj he
        have heq := congrArg BitVec.toNat he
        rw [toNat_fb hb hi, hdst j hj] at heq
        omega
  · intro a ha hnot
    rw [copyBytes_outside, h.rest a ha hnot]
    intro i hi he
    rw [fb_add_offset] at he
    exact hnot _ (by omega) he

/-- The copy of a part of the frame buffer into a buffer. -/
theorem Shows.read (h : Shows b size m₀ m s) (hb : Mapped b size) (hfits : offset.toNat + length.toNat ≤ size)
    (hin : buffer.toNat + length.toNat < 0x80000000) :
    Shows b size m₀ (m.copyBytes buffer (b.segFbBase + offset) length.toNat)
      { s with user := put s.user buffer.toNat (get s.fb offset.toNat length.toNat) } := by
  have hkernel := hb.kernel
  have hlen := length_get s.fb offset.toNat length.toNat
  constructor
  · intro a ha
    by_cases hinside : buffer.toNat ≤ a.toNat ∧ a.toNat < buffer.toNat + length.toNat
    · obtain ⟨j, hj⟩ := Nat.exists_eq_add_of_le hinside.1
      have hjlt : j < length.toNat := by omega
      have haddr : a = buffer + BitVec.ofNat 32 j := by
        apply BitVec.eq_of_toNat_eq
        rw [toNat_user hin hjlt, hj]
      rw [haddr, copyBytes_disjoint length.isLt.le _ hjlt, fb_add_offset, h.fb _ (by omega), toNat_user hin hjlt]
      · show _ = put s.user buffer.toNat _ (buffer.toNat + j)
        rw [put_inside (by rw [hlen]; exact hjlt), getD_get hjlt]
      · intro i hi k hk he
        have heq := congrArg BitVec.toNat he
        rw [fb_add_offset, toNat_fb hb (by omega), toNat_user hin hk] at heq
        omega
    · have hout : put s.user buffer.toNat (get s.fb offset.toNat length.toNat) a.toNat = s.user a.toNat :=
        put_outside (by rw [hlen]; omega)
      rw [copyBytes_outside, h.user a ha]
      · exact hout.symm
      · intro j hj he
        have heq := congrArg BitVec.toNat he
        rw [toNat_user hin hj] at heq
        omega
  · intro i hi
    rw [copyBytes_outside, h.fb i hi]
    intro j hj he
    have heq := congrArg BitVec.toNat he
    rw [toNat_fb hb hi, toNat_user hin hj] at heq
    omega
  · intro a ha hnot
    rw [copyBytes_outside, h.rest a ha hnot]
    intro j hj he
    have heq := congrArg BitVec.toNat he
    rw [toNat_user hin hj] at heq
    omega

theorem Shows.step (h : Shows b size m₀ m s) (hb : Mapped b size) {a : Act} (hfits : a.Fits size) :
    ∃ m', FrameBuffer.step b m a = some (m', (s.step a).2) ∧ Shows b size m₀ m' (s.step a).1 := by
  cases a with
  | stores user =>
    refine ⟨_, rfl, fun a ha => if_pos ha, fun i hi => ?_, fun a ha hnot => ?_⟩
    · have hkernel := hb.kernel
      have haddr := toNat_fb hb hi
      rw [if_neg (by omega)]
      exact h.fb i hi
    · rw [if_neg (by omega)]
      exact h.rest a ha hnot
  | write offset buffer length =>
    obtain ⟨hrun, -⟩ := Memcpy.fbSync_bytes b m offset buffer length
    by_cases hin : buffer.toNat + length.toNat < 0x80000000
    · have hcheck : ¬ Drivers.outsideUserSpace buffer length = true := by
        rw [(outside_iff hb hfits).mpr hin]
        exact Bool.false_ne_true
      refine ⟨m.copyBytes (b.segFbBase + offset) buffer length.toNat, ?_, ?_⟩
      · rw [FrameBuffer.step, hrun, if_neg hcheck, Abs.step, if_pos hin]
        rfl
      · rw [Abs.step, if_pos hin]
        exact h.write hb hfits hin
    · have hcheck : Drivers.outsideUserSpace buffer length = true :=
        Bool.eq_true_of_not_eq_false fun hf => hin ((outside_iff hb hfits).mp hf)
      refine ⟨m, ?_, ?_⟩
      · rw [FrameBuffer.step, hrun, if_pos hcheck, Abs.step, if_neg hin]
        rfl
      · rw [Abs.step, if_neg hin]
        exact h
  | read offset buffer length =>
    obtain ⟨-, hrun⟩ := Memcpy.fbSync_bytes b m offset buffer length
    by_cases hin : buffer.toNat + length.toNat < 0x80000000
    · have hcheck : ¬ Drivers.outsideUserSpace buffer length = true := by
        rw [(outside_iff hb hfits).mpr hin]
        exact Bool.false_ne_true
      have hread := h.read hb hfits hin
      have hdata : bytes (m.copyBytes buffer (b.segFbBase + offset) length.toNat) buffer length.toNat =
          get s.fb offset.toNat length.toNat := by
        have hput : get (put s.user buffer.toNat (get s.fb offset.toNat length.toNat)) buffer.toNat
            (get s.fb offset.toNat length.toNat).length = get s.fb offset.toNat length.toNat := get_put_self
        rw [length_get] at hput
        exact (hread.bytes_eq hin).trans hput
      refine ⟨m.copyBytes buffer (b.segFbBase + offset) length.toNat, ?_, ?_⟩
      · rw [FrameBuffer.step, hrun, if_neg hcheck, Abs.step, if_pos hin, ← hdata]
        rfl
      · rw [Abs.step, if_pos hin]
        exact hread
    · have hcheck : Drivers.outsideUserSpace buffer length = true :=
        Bool.eq_true_of_not_eq_false fun hf => hin ((outside_iff hb hfits).mp hf)
      refine ⟨m, ?_, ?_⟩
      · rw [FrameBuffer.step, hrun, if_pos hcheck, Abs.step, if_neg hin]
        rfl
      · rw [Abs.step, if_neg hin]
        exact h

end Step

/-! ### Whole runs -/

section Run

variable {b : Board} {size : ℕ} {m₀ m : Memory 32} {s : Abs}

theorem Shows.run (h : Shows b size m₀ m s) (hb : Mapped b size) {acts : List Act} (hfits : ∀ a ∈ acts, a.Fits size) :
    ∃ m', FrameBuffer.run b acts m = some (m', (Abs.run acts s).2) ∧ Shows b size m₀ m' (Abs.run acts s).1 := by
  induction acts generalizing m s with
  | nil => exact ⟨m, rfl, h⟩
  | cons a acts ih =>
    obtain ⟨m', hstep, hm'⟩ := h.step hb (hfits a List.mem_cons_self)
    obtain ⟨m'', hrun, hm''⟩ := ih hm' fun a ha => hfits a (List.mem_cons_of_mem _ ha)
    refine ⟨m'', ?_, hm''⟩
    rw [FrameBuffer.run, hstep]
    simp only [Option.bind_eq_bind, Option.bind_some, hrun]
    rfl

/-- The memory as the two arrays. -/
def Abs.of (b : Board) (m : Memory 32) : Abs where
  user i := m (BitVec.ofNat 32 i)
  fb i := m (b.segFbBase + BitVec.ofNat 32 i)

theorem shows_of (b : Board) (size : ℕ) (m : Memory 32) : Shows b size m m (Abs.of b m) where
  user a _ := by
    show m a = m (BitVec.ofNat 32 a.toNat)
    rw [BitVec.ofNat_toNat, BitVec.setWidth_eq]
  fb _ _ := rfl
  rest _ _ _ := rfl

/-- **The frame buffer is an array of bytes.** For any memory and any sequence
of stores in user space and of calls that stay in the frame buffer: no call
fails, the results and what is read are those of the array, and the memory
afterwards has the arrays and, in the rest of kernel space, what it had before. -/
theorem fb_refines (hb : Mapped b size) (m : Memory 32) {acts : List Act} (hfits : ∀ a ∈ acts, a.Fits size) :
    ∃ m', FrameBuffer.run b acts m = some (m', (Abs.run acts (Abs.of b m)).2) ∧
      Shows b size m m' (Abs.run acts (Abs.of b m)).1 :=
  (shows_of b size m).run hb hfits

/-- A board of 512 bytes of frame buffer. -/
def board : Board := ⟨0x96000000, 512⟩

theorem mapped_board : Mapped board 512 := ⟨by decide, by decide⟩

/-- A line is written, moved in the frame buffer by a read and a write, and read
again, also into kernel space. -/
def moved : List Act :=
  [.stores fun i => BitVec.ofNat 8 i, .write 0 0x1000 8, .read 4 0x1002 4, .write 8 0x1000 8, .read 0 0x2000 16,
    .read 0 0x7FFFFFF8 16]

theorem fits_moved : ∀ a ∈ moved, a.Fits 512 := by
  simp [moved, Act.Fits]

theorem moved_shows : (Abs.run moved (Abs.of board fun _ => 0)).2 = [.wrote 0, .read 0 [4, 5, 6, 7], .wrote 0,
    .read 0 [0, 1, 2, 3, 4, 5, 6, 7, 0, 1, 4, 5, 6, 7, 6, 7], .read 1 []] := by
  decide

theorem fb_refines_moved :
    ∃ m', FrameBuffer.run board moved (fun _ => 0) = some (m', [.wrote 0, .read 0 [4, 5, 6, 7], .wrote 0,
      .read 0 [0, 1, 2, 3, 4, 5, 6, 7, 0, 1, 4, 5, 6, 7, 6, 7], .read 1 []]) := by
  obtain ⟨m', hrun, -⟩ := fb_refines mapped_board (fun _ => 0) fits_moved
  exact ⟨m', moved_shows ▸ hrun⟩

/-- The act writes nothing to a part of the frame buffer. -/
def Act.Spares (o n : ℕ) : Act → Prop
  | .write offset _ length => offset.toNat + length.toNat ≤ o ∨ o + n ≤ offset.toNat
  | _ => True

theorem Abs.step_spares {a : Act} {o n : ℕ} (h : a.Spares o n) : get (s.step a).1.fb o n = get s.fb o n := by
  cases a with
  | stores user => rfl
  | read offset buffer length =>
    rw [Abs.step]
    split <;> rfl
  | write offset buffer length =>
    rw [Abs.step]
    split
    · apply get_put_outside
      rw [length_get]
      exact h.symm
    · rfl

theorem Abs.run_spares {acts : List Act} {o n : ℕ} (h : ∀ a ∈ acts, a.Spares o n) :
    get (Abs.run acts s).1.fb o n = get s.fb o n := by
  induction acts generalizing s with
  | nil => rfl
  | cons a acts ih =>
    calc get (Abs.run acts (s.step a).1).1.fb o n
      _ = get (s.step a).1.fb o n := ih fun a ha => h a (List.mem_cons_of_mem _ ha)
      _ = get s.fb o n := Abs.step_spares (h a List.mem_cons_self)

variable {offset buffer length offset' buffer' length' : Word}

/-- **What is written is read back.** Whatever has happened before: if a buffer is
written to the frame buffer, and then no call writes to some part of this, for
any calls and stores in between, a read of that part gives the bytes that the
buffer had at the time of the write. -/
theorem fb_reads_back (hb : Mapped b size) (m : Memory 32) {before between : List Act}
    (hbefore : ∀ a ∈ before, a.Fits size) (hbetween : ∀ a ∈ between, a.Fits size)
    (hfits : offset.toNat + length.toNat ≤ size)
    (hpart : offset.toNat ≤ offset'.toNat ∧ offset'.toNat + length'.toNat ≤ offset.toNat + length.toNat)
    (hspares : ∀ a ∈ between, a.Spares offset'.toNat length'.toNat)
    (hbuffer : buffer.toNat + length.toNat < 0x80000000) (hbuffer' : buffer'.toNat + length'.toNat < 0x80000000) :
    ∃ m₁ obs₁ m₂ obs₂ m₃, FrameBuffer.run b before m = some (m₁, obs₁) ∧
      FrameBuffer.run b (.write offset buffer length :: between) m₁ = some (m₂, obs₂) ∧
      FrameBuffer.step b m₂ (.read offset' buffer' length') = some (m₃,
        [.read 0 (((bytes m₁ buffer length.toNat).drop (offset'.toNat - offset.toNat)).take length'.toNat)]) := by
  obtain ⟨m₁, hrun₁, h₁⟩ := (shows_of b size m).run hb hbefore
  -- what the frame buffer has after the write, and keeps
  have hwrite : ∀ a ∈ Act.write offset buffer length :: between, a.Fits size := by
    intro a ha
    rcases List.mem_cons.mp ha with rfl | ha
    · exact hfits
    · exact hbetween a ha
  obtain ⟨m₂, hrun₂, h₂⟩ := h₁.run hb hwrite
  have hread : (Act.read offset' buffer' length').Fits size := hpart.2.trans hfits
  obtain ⟨m₃, hstep, -⟩ := h₂.step hb hread
  refine ⟨m₁, _, m₂, _, m₃, hrun₁, hrun₂, hstep.trans ?_⟩
  rw [Abs.step, if_pos hbuffer', Abs.run, Abs.run_spares hspares, Abs.step, if_pos hbuffer, h₁.bytes_eq hbuffer]
  obtain ⟨p, hp⟩ := Nat.exists_eq_add_of_le hpart.1
  rw [hp, Nat.add_sub_cancel_left, get_put_inside]
  rw [length_get]
  omega

/-- The first half of a line, after the second half has been overwritten. -/
theorem fb_reads_back_half :
    ∃ m₁ obs₁ m₂ obs₂ m₃, FrameBuffer.run board [.stores fun i => BitVec.ofNat 8 i] (fun _ => 0) = some (m₁, obs₁) ∧
      FrameBuffer.run board [.write 16 0x1000 8, .stores fun _ => 7, .write 20 0x1000 8] m₁ = some (m₂, obs₂) ∧
      FrameBuffer.step board m₂ (.read 17 0x2000 3) = some (m₃, [.read 0 [1, 2, 3]]) := by
  have hbefore : ∀ a ∈ [Act.stores fun i => BitVec.ofNat 8 i], a.Fits 512 := by simp [Act.Fits]
  have hbetween : ∀ a ∈ [Act.stores fun _ => 7, Act.write 20 0x1000 8], a.Fits 512 := by simp [Act.Fits]
  have hspares : ∀ a ∈ [Act.stores fun _ => 7, Act.write 20 0x1000 8],
      a.Spares (17 : Word).toNat (3 : Word).toNat := by simp [Act.Spares]
  have hpart : (16 : Word).toNat ≤ (17 : Word).toNat ∧
      (17 : Word).toNat + (3 : Word).toNat ≤ (16 : Word).toNat + (8 : Word).toNat := by decide
  have hbuffer : (0x1000 : Word).toNat + (8 : Word).toNat < 0x80000000 := by decide
  have hbuffer' : (0x2000 : Word).toNat + (3 : Word).toNat < 0x80000000 := by decide
  obtain ⟨m₁, obs₁, m₂, obs₂, m₃, hrun₁, hrun₂, hstep⟩ :=
    fb_reads_back mapped_board (fun _ => 0) hbefore hbetween (by decide) hpart hspares hbuffer hbuffer'
  refine ⟨m₁, obs₁, m₂, obs₂, m₃, hrun₁, hrun₂, hstep.trans ?_⟩
  cases hrun₁
  rfl

end Run

end FrameBuffer
end Giet
end Smc
