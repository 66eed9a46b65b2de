/-
# The transfer drivers of the GIET

The functions of `giet_2011/sys/drivers.c` that move a user buffer: the frame
buffer by `memcpy` (`_fb_sync_write`, `_fb_sync_read`) or by the processor's
DMA (`_fb_write`, `_fb_read`), the disk by the block device (`_ioc_write`,
`_ioc_read`). Each checks that its buffer is in user space, below
`0x80000000`, and then hands it over: `memcpy` gets its arguments, the devices
get words in their registers (`giet_2011/sys/hwr_mapping.h`).

The check adds in 32-bit words. It is the isolation of the kernel from user
programs, and it holds exactly for the calls whose sum does not come round
(`isolated_iff`).

Key definitions: `checked`, `Call.perform`, `Handed.memory`, `Call.Isolated`,
`Call.ComesRound`.
Key theorem: `isolated_iff`.
-/
import Smc.Lib.Traces

namespace Smc
namespace Giet
namespace Drivers

abbrev Word := BitVec 32

/-! ### The devices' registers -/

/-- `enum IOC_registers`. -/
inductive IocReg where
  | buffer
  | lba
  | count
  | op
  | status
  | irqEnable
  | size
  | blockSize
deriving DecidableEq, Repr

/-- `enum IOC_operations`. -/
inductive IocOp where
  | noop
  | read
  | write
deriving DecidableEq, Repr

/-- The word of an operation in `BLOCK_DEVICE_OP`. -/
def IocOp.word : IocOp → Word
  | .noop => 0
  | .read => 1
  | .write => 2

/-- `enum IOC_status`. -/
inductive IocStatus where
  | idle
  | busy
  | readSuccess
  | writeSuccess
  | readError
  | writeError
  | error
deriving DecidableEq, Repr

/-- `enum DMA_registers`. -/
inductive DmaReg where
  | src
  | dst
  | len
  | reset
  | irqDisable
deriving DecidableEq, Repr

/-! ### The functions -/

/-- What a transfer function gives to the copy or to the device: the arguments
of `memcpy`, or the words it writes in the device's registers, in order. -/
inductive Handed where
  | memcpy (dst src length : Word)
  | dma (writes : List (DmaReg × Word))
  | ioc (writes : List (IocReg × Word))
deriving DecidableEq, Repr

/-- Where the devices are: `seg_fb_base`, and the block size the disk gives in
`BLOCK_DEVICE_BLOCK_SIZE`. -/
structure Board where
  segFbBase : Word
  blockSize : Word
deriving DecidableEq, Repr

/-- The parameters check, `buffer must be in user space`. -/
def outsideUserSpace (buffer length : Word) : Bool :=
  decide (0x80000000 ≤ buffer) || decide (0x80000000 ≤ buffer + length)

/-- A transfer function returns 1 if the check fails, else 0 once it has
handed the buffer over. -/
def checked (buffer length : Word) (h : Handed) : Except Word Handed :=
  if outsideUserSpace buffer length then .error 1 else .ok h

/-- The words written to program the DMA. -/
def dmaConfig (src dst length : Word) : List (DmaReg × Word) :=
  [(.irqDisable, 0), (.src, src), (.dst, dst), (.len, length)]

/-- The words written to program the block device. -/
def iocConfig (op : IocOp) (lba buffer count : Word) : List (IocReg × Word) :=
  [(.buffer, buffer), (.count, count), (.lba, lba), (.irqEnable, 1), (.op, op.word)]

/-- The register a configuration ends with is written last, if nowhere else. -/
theorem eq_last_iff {R : Type} (front : List (R × Word)) {ws : List (R × Word)} {r₀ r : R} {v₀ v : Word}
    (hfront : r₀ ∉ front.map Prod.fst) (h : (r, v) :: ws <:+ front ++ [(r₀, v₀)]) : r = r₀ ↔ ws = [] := by
  obtain ⟨l, hl⟩ := h
  rcases Traces.concat_eq_append_cons hl.symm with ⟨rfl, -, he⟩ | ⟨ws', rfl, rfl⟩
  · cases he
    simp
  · constructor
    · rintro rfl
      simp at hfront
    · intro hnil
      simp at hnil

variable (b : Board)

def fbSyncWrite (offset buffer length : Word) : Except Word Handed :=
  checked buffer length (.memcpy (b.segFbBase + offset) buffer length)

def fbSyncRead (offset buffer length : Word) : Except Word Handed :=
  checked buffer length (.memcpy buffer (b.segFbBase + offset) length)

def fbWrite (offset buffer length : Word) : Except Word Handed :=
  checked buffer length (.dma (dmaConfig buffer (b.segFbBase + offset) length))

def fbRead (offset buffer length : Word) : Except Word Handed :=
  checked buffer length (.dma (dmaConfig (b.segFbBase + offset) buffer length))

def iocWrite (lba buffer count : Word) : Except Word Handed :=
  checked buffer (b.blockSize * count) (.ioc (iocConfig .write lba buffer count))

def iocRead (lba buffer count : Word) : Except Word Handed :=
  checked buffer (b.blockSize * count) (.ioc (iocConfig .read lba buffer count))

/-- A call of a transfer function. -/
inductive Call where
  | fbSyncWrite (offset buffer length : Word)
  | fbSyncRead (offset buffer length : Word)
  | fbWrite (offset buffer length : Word)
  | fbRead (offset buffer length : Word)
  | iocWrite (lba buffer count : Word)
  | iocRead (lba buffer count : Word)
deriving DecidableEq, Repr

namespace Call

def perform : Call → Except Word Handed
  | fbSyncWrite offset buffer length => Drivers.fbSyncWrite b offset buffer length
  | fbSyncRead offset buffer length => Drivers.fbSyncRead b offset buffer length
  | fbWrite offset buffer length => Drivers.fbWrite b offset buffer length
  | fbRead offset buffer length => Drivers.fbRead b offset buffer length
  | iocWrite lba buffer count => Drivers.iocWrite b lba buffer count
  | iocRead lba buffer count => Drivers.iocRead b lba buffer count

def buffer : Call → Word
  | fbSyncWrite _ buffer _ | fbSyncRead _ buffer _ | fbWrite _ buffer _ | fbRead _ buffer _ => buffer
  | iocWrite _ buffer _ | iocRead _ buffer _ => buffer

/-- The number of bytes asked for, an exact integer. -/
def exactLength : Call → ℕ
  | fbSyncWrite _ _ length | fbSyncRead _ _ length | fbWrite _ _ length | fbRead _ _ length => length.toNat
  | iocWrite _ _ count | iocRead _ _ count => b.blockSize.toNat * count.toNat

/-- The transfer writes in the user's buffer. -/
def intoBuffer : Call → Bool
  | fbSyncWrite .. | fbWrite .. | iocWrite .. => false
  | fbSyncRead .. | fbRead .. | iocRead .. => true

end Call

/-! ### The memory handed over -/

/-- What a register holds after some writes. -/
def written {R : Type*} [DecidableEq R] (writes : List (R × Word)) (r : R) : Word :=
  ((writes.filter (fun w => w.1 = r)).getLast?.map Prod.snd).getD 0

/-- The memory at the user's end of a transfer: its first address and its
number of bytes. The block device moves `COUNT` blocks. -/
def Handed.memory (intoBuffer : Bool) : Handed → Word × ℕ
  | memcpy dst src length => (if intoBuffer then dst else src, length.toNat)
  | dma writes => (written writes (if intoBuffer then .dst else .src), (written writes .len).toNat)
  | ioc writes => (written writes .buffer, b.blockSize.toNat * (written writes .count).toNat)

/-- If the call returns 0, the memory it has handed over ends below the kernel. -/
def Call.Isolated (c : Call) : Prop :=
  ∀ h, c.perform b = .ok h →
    (h.memory b c.intoBuffer).1.toNat + (h.memory b c.intoBuffer).2 ≤ 0x80000000

/-- The end of the buffer is past the last address, and comes round to user space. -/
def Call.ComesRound (c : Call) : Prop :=
  c.buffer.toNat < 0x80000000 ∧ 2 ^ 32 ≤ c.buffer.toNat + c.exactLength b ∧
    (c.buffer.toNat + c.exactLength b) % 2 ^ 32 < 0x80000000

/-- What a call hands over if it passes the check. -/
def Call.handed : Call → Handed
  | fbSyncWrite offset buffer length => .memcpy (b.segFbBase + offset) buffer length
  | fbSyncRead offset buffer length => .memcpy buffer (b.segFbBase + offset) length
  | fbWrite offset buffer length => .dma (dmaConfig buffer (b.segFbBase + offset) length)
  | fbRead offset buffer length => .dma (dmaConfig (b.segFbBase + offset) buffer length)
  | iocWrite lba buffer count => .ioc (iocConfig .write lba buffer count)
  | iocRead lba buffer count => .ioc (iocConfig .read lba buffer count)

/-- The memory handed over is the memory asked for. -/
theorem Call.memory_handed (c : Call) : (c.handed b).memory b c.intoBuffer = (c.buffer, c.exactLength b) := by
  cases c <;> rfl

/-- Every call checks the word of its exact length. -/
theorem Call.perform_eq (c : Call) :
    c.perform b = checked c.buffer (BitVec.ofNat 32 (c.exactLength b)) (c.handed b) := by
  cases c with
  | fbSyncWrite offset buffer length | fbSyncRead offset buffer length
  | fbWrite offset buffer length | fbRead offset buffer length =>
    rw [exactLength, BitVec.ofNat_toNat, BitVec.setWidth_eq]
    rfl
  | iocWrite lba buffer count | iocRead lba buffer count =>
    have hword : BitVec.ofNat 32 (b.blockSize.toNat * count.toNat) = b.blockSize * count := by
      rw [BitVec.ofNat_mul, BitVec.ofNat_toNat, BitVec.ofNat_toNat, BitVec.setWidth_eq, BitVec.setWidth_eq]
    rw [exactLength, hword]
    rfl

theorem Call.perform_eq_ok {c : Call} {h : Handed} : c.perform b = .ok h ↔
    outsideUserSpace c.buffer (BitVec.ofNat 32 (c.exactLength b)) = false ∧ c.handed b = h := by
  rw [c.perform_eq, checked]
  split_ifs with hcheck
  · simp [hcheck]
  · simp [hcheck, Except.ok.injEq]

/-- What the check lets through, in exact integers. -/
theorem outsideUserSpace_eq_false {buffer : Word} {n : ℕ} :
    outsideUserSpace buffer (BitVec.ofNat 32 n) = false ↔
      buffer.toNat < 0x80000000 ∧ (buffer.toNat + n) % 2 ^ 32 < 0x80000000 := by
  simp only [outsideUserSpace, Bool.or_eq_false_iff, decide_eq_false_iff_not, BitVec.not_le, BitVec.lt_def,
    BitVec.toNat_add, BitVec.toNat_ofNat, Nat.add_mod_mod]
  exact Iff.rfl

/-- **The kernel is isolated from a call unless its length comes round.**
For every block size and every call of a transfer function: that it hands over
user memory only, when it returns 0, is the same as that its end does not come
round to user space in 32 bits. -/
theorem isolated_iff (c : Call) : c.Isolated b ↔ ¬ c.ComesRound b := by
  have hm := c.memory_handed b
  constructor
  · rintro hiso ⟨hbuf, hfar, hround⟩
    have hcheck := outsideUserSpace_eq_false.mpr ⟨hbuf, hround⟩
    have hle := hiso _ ((Call.perform_eq_ok b).mpr ⟨hcheck, rfl⟩)
    rw [hm] at hle
    dsimp only at hle
    omega
  · intro hround h hok
    obtain ⟨hcheck, rfl⟩ := (Call.perform_eq_ok b).mp hok
    rw [outsideUserSpace_eq_false] at hcheck
    rw [hm]
    dsimp only
    have hnear : ¬ 2 ^ 32 ≤ c.buffer.toNat + c.exactLength b := fun hfar => hround ⟨hcheck.1, hfar, hcheck.2⟩
    omega

/-- Four gigabytes from the address 1 pass the check of `_fb_sync_read`, and
so do `2 ^ 23` blocks of 512 bytes that of `_ioc_read`. -/
theorem kernel_overwritten :
    ¬ (Call.fbSyncRead 0 1 0xFFFFFFFF).Isolated ⟨0, 512⟩ ∧ ¬ (Call.iocRead 0 0x1000 0x800000).Isolated ⟨0, 512⟩ := by
  constructor
  · intro h
    have hle := h _ rfl
    revert hle
    decide
  · intro h
    have hle := h _ rfl
    revert hle
    decide

end Drivers
end Giet
end Smc
