/-
# A MIPS32 processor, as handlers use it

The registers, the instructions of straight-line handler code, and the entry
and exit of exceptions. Memory is by words, at byte addresses.

Handlers save registers in consecutive slots and load them back: `stores` and
`loads` are these blocks, for any list of registers with their slots. A block
of stores changes the slots only (`stores_mem_of_ne`) and puts in each the
register's value (`stores_mem_slot`); a block of loads changes the registers
of the list only (`loads_get_of_notMem`) and takes each from its slot
(`loads_get_of_mem`).

Functions compiled from C are known by the calling convention only.

Key definitions: `Cpu`, `Machine`, `Instr.exec`, `exec`, `stores`, `loads`,
`Called`, `Resumable`, `Returned`.
-/
import Mathlib.Tactic

namespace Smc
namespace Mips

abbrev Word := BitVec 32
abbrev Reg := Fin 32

/-- There are registers, so numerals name them. -/
instance neZero_registers : NeZero 32 := ⟨by decide⟩

/-- The registers of coprocessor 0 that handlers access. -/
inductive Cp0 where
  | sr
  | cr
  | epc
deriving DecidableEq, Repr

structure Cpu where
  gpr : Reg → Word
  hi : Word
  lo : Word
  sr : Word
  cr : Word
  epc : Word
  pc : Word

namespace Cpu

/-- The value of a register; `$0` is zero. -/
def get (c : Cpu) (r : Reg) : Word := if r = 0 then 0 else c.gpr r

def set (c : Cpu) (r : Reg) (v : Word) : Cpu :=
  if r = 0 then c else { c with gpr := Function.update c.gpr r v }

def getCp0 (c : Cpu) : Cp0 → Word
  | .sr => c.sr
  | .cr => c.cr
  | .epc => c.epc

def setCp0 (c : Cpu) (x : Cp0) (v : Word) : Cpu :=
  match x with
  | .sr => { c with sr := v }
  | .cr => { c with cr := v }
  | .epc => { c with epc := v }

def setHi (c : Cpu) (v : Word) : Cpu := { c with hi := v }

def setLo (c : Cpu) (v : Word) : Cpu := { c with lo := v }

/-- The `EXL` bit of `SR`: in an exception, interrupts masked. -/
def exl : Word := 2

/-- The `IE` bit of `SR`. -/
def ie : Word := 1

/-- An exception: `cr` is what it leaves in the cause register. -/
def trap (c : Cpu) (cr : Word) : Cpu := { c with epc := c.pc, sr := c.sr ||| exl, cr := cr }

/-- Interrupts are taken. -/
def Interruptible (c : Cpu) : Prop := c.sr &&& ie = ie ∧ c.sr &&& exl = 0

/-- `jr`. -/
def jump (c : Cpu) (target : Word) : Cpu := { c with pc := target }

/-- `eret`. -/
def eret (c : Cpu) : Cpu := { c with pc := c.epc, sr := c.sr &&& ~~~exl }

theorem get_set_self (c : Cpu) {r : Reg} (h : r ≠ 0) (v : Word) : (c.set r v).get r = v := by
  simp [set, get, h]

theorem get_set_of_ne (c : Cpu) {r q : Reg} (h : q ≠ r) (v : Word) : (c.set r v).get q = c.get q := by
  unfold set get
  split_ifs <;> simp [h]

section Fields

variable (c : Cpu) (r : Reg) (v : Word) (x : Cp0)

@[simp] theorem set_hi : (c.set r v).hi = c.hi := by unfold set; split_ifs <;> rfl
@[simp] theorem set_lo : (c.set r v).lo = c.lo := by unfold set; split_ifs <;> rfl
@[simp] theorem set_sr : (c.set r v).sr = c.sr := by unfold set; split_ifs <;> rfl
@[simp] theorem set_cr : (c.set r v).cr = c.cr := by unfold set; split_ifs <;> rfl
@[simp] theorem set_epc : (c.set r v).epc = c.epc := by unfold set; split_ifs <;> rfl
@[simp] theorem set_pc : (c.set r v).pc = c.pc := by unfold set; split_ifs <;> rfl
@[simp] theorem get_setCp0 : (c.setCp0 x v).get r = c.get r := by cases x <;> rfl
@[simp] theorem setCp0_hi : (c.setCp0 x v).hi = c.hi := by cases x <;> rfl
@[simp] theorem setCp0_lo : (c.setCp0 x v).lo = c.lo := by cases x <;> rfl
@[simp] theorem setCp0_pc : (c.setCp0 x v).pc = c.pc := by cases x <;> rfl
@[simp] theorem setCp0_sr_sr : (c.setCp0 .sr v).sr = v := rfl
@[simp] theorem setCp0_cr_sr : (c.setCp0 .cr v).sr = c.sr := rfl
@[simp] theorem setCp0_epc_sr : (c.setCp0 .epc v).sr = c.sr := rfl
@[simp] theorem setCp0_epc_epc : (c.setCp0 .epc v).epc = v := rfl
@[simp] theorem get_setHi : (c.setHi v).get r = c.get r := rfl
@[simp] theorem get_setLo : (c.setLo v).get r = c.get r := rfl
@[simp] theorem get_zero : c.get 0 = 0 := rfl
@[simp] theorem get_jump : (c.jump v).get r = c.get r := rfl
@[simp] theorem jump_hi : (c.jump v).hi = c.hi := rfl
@[simp] theorem jump_lo : (c.jump v).lo = c.lo := rfl
@[simp] theorem jump_sr : (c.jump v).sr = c.sr := rfl
@[simp] theorem jump_epc : (c.jump v).epc = c.epc := rfl
@[simp] theorem jump_pc : (c.jump v).pc = v := rfl

end Fields

/-- Leaving an exception gives back the `SR` that was there before. -/
theorem unmask {w : Word} (h : w &&& exl = 0) : (w ||| exl) &&& ~~~exl = w := by
  ext i hi
  have hb : (w &&& exl).getLsbD i = false := by rw [h]; simp
  simp only [BitVec.getLsbD_and, Bool.and_eq_false_iff] at hb
  simp only [BitVec.getElem_and, BitVec.getElem_or, BitVec.getElem_not]
  rw [← BitVec.getLsbD_eq_getElem, ← BitVec.getLsbD_eq_getElem]
  rcases hb with hb | hb <;> simp [hb]

theorem or_exl_ne (w : Word) : (w ||| exl) &&& exl ≠ 0 := by
  intro h
  have hb := congrArg (fun v => BitVec.getLsbD v 1) h
  simp [exl] at hb

end Cpu

/-- A processor and the memory it shares. -/
structure Machine where
  cpu : Cpu
  mem : Word → Word

inductive Instr where
  | addiu (rt rs : Reg) (imm : BitVec 16)
  | addu (rd rs rt : Reg)
  | and (rd rs rt : Reg)
  | andi (rt rs : Reg) (imm : BitVec 16)
  | sll (rd rt : Reg) (sa : ℕ)
  /-- `li` and `la` -/
  | li (rt : Reg) (imm : Word)
  | lw (rt base : Reg) (offset : ℕ)
  | sw (rt base : Reg) (offset : ℕ)
  | mfc0 (rt : Reg) (x : Cp0)
  | mtc0 (rt : Reg) (x : Cp0)
  | mfhi (rd : Reg)
  | mflo (rd : Reg)
  | mthi (rs : Reg)
  | mtlo (rs : Reg)
deriving DecidableEq, Repr

def Instr.exec (m : Machine) : Instr → Machine
  | .addiu rt rs imm => { m with cpu := m.cpu.set rt (m.cpu.get rs + imm.signExtend 32) }
  | .addu rd rs rt => { m with cpu := m.cpu.set rd (m.cpu.get rs + m.cpu.get rt) }
  | .and rd rs rt => { m with cpu := m.cpu.set rd (m.cpu.get rs &&& m.cpu.get rt) }
  | .andi rt rs imm => { m with cpu := m.cpu.set rt (m.cpu.get rs &&& imm.setWidth 32) }
  | .sll rd rt sa => { m with cpu := m.cpu.set rd (m.cpu.get rt <<< sa) }
  | .li rt imm => { m with cpu := m.cpu.set rt imm }
  | .lw rt base offset => { m with cpu := m.cpu.set rt (m.mem (m.cpu.get base + BitVec.ofNat 32 offset)) }
  | .sw rt base offset =>
    { m with mem := Function.update m.mem (m.cpu.get base + BitVec.ofNat 32 offset) (m.cpu.get rt) }
  | .mfc0 rt x => { m with cpu := m.cpu.set rt (m.cpu.getCp0 x) }
  | .mtc0 rt x => { m with cpu := m.cpu.setCp0 x (m.cpu.get rt) }
  | .mfhi rd => { m with cpu := m.cpu.set rd m.cpu.hi }
  | .mflo rd => { m with cpu := m.cpu.set rd m.cpu.lo }
  | .mthi rs => { m with cpu := m.cpu.setHi (m.cpu.get rs) }
  | .mtlo rs => { m with cpu := m.cpu.setLo (m.cpu.get rs) }

/-- Straight-line code. -/
def exec (l : List Instr) (m : Machine) : Machine := l.foldl Instr.exec m

theorem exec_append (l l' : List Instr) (m : Machine) : exec (l ++ l') m = exec l' (exec l m) := by
  simp [exec]

theorem exec_cons (i : Instr) (l : List Instr) (m : Machine) : exec (i :: l) m = exec l (i.exec m) := rfl

theorem exec_nil (m : Machine) : exec [] m = m := rfl

/-! ### Slots -/

/-- The address of slot `i` from a base. -/
def slot (base : Word) (i : ℕ) : Word := base + BitVec.ofNat 32 (4 * i)

theorem slot_toNat {base : Word} {i : ℕ} (h : base.toNat + 4 * i < 2 ^ 32) : (slot base i).toNat = base.toNat + 4 * i := by
  rw [slot, BitVec.toNat_add, BitVec.toNat_ofNat]
  omega

theorem slot_inj {base : Word} {i j : ℕ} (hi : i < 2 ^ 30) (hj : j < 2 ^ 30) (h : slot base i = slot base j) : i = j := by
  have h' : BitVec.ofNat 32 (4 * i) = BitVec.ofNat 32 (4 * j) := by simpa [slot] using h
  have := congrArg BitVec.toNat h'
  rw [BitVec.toNat_ofNat, BitVec.toNat_ofNat] at this
  omega

theorem sub_toNat {sp : Word} {n : ℕ} (h : n ≤ sp.toNat) : (sp - BitVec.ofNat 32 n).toNat = sp.toNat - n := by
  have hlt := sp.isLt
  have hn : (BitVec.ofNat 32 n).toNat = n := by
    rw [BitVec.toNat_ofNat]
    exact Nat.mod_eq_of_lt (by omega)
  rw [BitVec.toNat_sub_of_le (by rw [BitVec.le_def, hn]; exact h), hn]

/-! ### Blocks of stores and loads -/

/-- Store registers in slots from the base register. -/
def stores (base : Reg) (l : List (Reg × ℕ)) : List Instr := l.map fun x => .sw x.1 base (4 * x.2)

/-- Load registers from slots of the base register. -/
def loads (base : Reg) (l : List (Reg × ℕ)) : List Instr := l.map fun x => .lw x.1 base (4 * x.2)

section Stores

variable {b : Reg}

theorem exec_stores_cons (x : Reg × ℕ) (l : List (Reg × ℕ)) (m : Machine) :
    exec (stores b (x :: l)) m =
      exec (stores b l) { m with mem := Function.update m.mem (slot (m.cpu.get b) x.2) (m.cpu.get x.1) } := rfl

theorem stores_cpu (l : List (Reg × ℕ)) (m : Machine) : (exec (stores b l) m).cpu = m.cpu := by
  induction l generalizing m with
  | nil => rfl
  | cons x l ih => rw [exec_stores_cons, ih]

theorem stores_mem_of_ne (l : List (Reg × ℕ)) (m : Machine) {a : Word}
    (h : ∀ x ∈ l, a ≠ slot (m.cpu.get b) x.2) : (exec (stores b l) m).mem a = m.mem a := by
  induction l generalizing m with
  | nil => rfl
  | cons x l ih =>
    have hl := ih { m with mem := Function.update m.mem (slot (m.cpu.get b) x.2) (m.cpu.get x.1) }
      fun y hy => h y (List.mem_cons_of_mem x hy)
    rw [exec_stores_cons, hl]
    exact Function.update_of_ne (h x List.mem_cons_self) _ _

theorem stores_mem_slot (l : List (Reg × ℕ)) (m : Machine) (hn : (l.map Prod.snd).Nodup)
    (hb : ∀ x ∈ l, x.2 < 2 ^ 30) {x : Reg × ℕ} (hx : x ∈ l) :
    (exec (stores b l) m).mem (slot (m.cpu.get b) x.2) = m.cpu.get x.1 := by
  induction l generalizing m with
  | nil => cases hx
  | cons y l ih =>
    rw [List.map_cons, List.nodup_cons] at hn
    rw [exec_stores_cons]
    rcases List.mem_cons.mp hx with rfl | hx
    · refine (stores_mem_of_ne l _ fun z hz he => ?_).trans (Function.update_self _ _ _)
      have hzb := hb z (List.mem_cons_of_mem x hz)
      have hxb := hb x List.mem_cons_self
      exact hn.1 (List.mem_map.mpr ⟨z, hz, (slot_inj hxb hzb he).symm⟩)
    · exact ih { m with mem := Function.update m.mem (slot (m.cpu.get b) y.2) (m.cpu.get y.1) } hn.2
        (fun z hz => hb z (List.mem_cons_of_mem y hz)) hx

end Stores

section Loads

variable {b : Reg}

theorem exec_loads_cons (x : Reg × ℕ) (l : List (Reg × ℕ)) (m : Machine) :
    exec (loads b (x :: l)) m =
      exec (loads b l) { m with cpu := m.cpu.set x.1 (m.mem (slot (m.cpu.get b) x.2)) } := rfl

/-- The registers that are not general ones. -/
structure SameSpecial (c c' : Cpu) : Prop where
  hi : c.hi = c'.hi
  lo : c.lo = c'.lo
  sr : c.sr = c'.sr
  cr : c.cr = c'.cr
  epc : c.epc = c'.epc
  pc : c.pc = c'.pc

theorem SameSpecial.trans {c c' c'' : Cpu} (h : SameSpecial c c') (h' : SameSpecial c' c'') : SameSpecial c c'' :=
  ⟨h.hi.trans h'.hi, h.lo.trans h'.lo, h.sr.trans h'.sr, h.cr.trans h'.cr, h.epc.trans h'.epc, h.pc.trans h'.pc⟩

theorem sameSpecial_set (c : Cpu) (r : Reg) (v : Word) : SameSpecial (c.set r v) c :=
  ⟨c.set_hi r v, c.set_lo r v, c.set_sr r v, c.set_cr r v, c.set_epc r v, c.set_pc r v⟩

theorem loads_mem (l : List (Reg × ℕ)) (m : Machine) : (exec (loads b l) m).mem = m.mem := by
  induction l generalizing m with
  | nil => rfl
  | cons x l ih => rw [exec_loads_cons, ih]

theorem loads_special (l : List (Reg × ℕ)) (m : Machine) : SameSpecial (exec (loads b l) m).cpu m.cpu := by
  induction l generalizing m with
  | nil => exact ⟨rfl, rfl, rfl, rfl, rfl, rfl⟩
  | cons x l ih =>
    rw [exec_loads_cons]
    exact (ih _).trans (sameSpecial_set _ _ _)

theorem loads_get_of_notMem (l : List (Reg × ℕ)) (m : Machine) {r : Reg} (h : r ∉ l.map Prod.fst) :
    (exec (loads b l) m).cpu.get r = m.cpu.get r := by
  induction l generalizing m with
  | nil => rfl
  | cons x l ih =>
    rw [List.map_cons, List.mem_cons, not_or] at h
    rw [exec_loads_cons, ih _ h.2]
    exact Cpu.get_set_of_ne _ h.1 _

theorem loads_get_of_mem (l : List (Reg × ℕ)) (m : Machine) (hn : (l.map Prod.fst).Nodup)
    (hb : b ∉ l.map Prod.fst) (h0 : (0 : Reg) ∉ l.map Prod.fst) {x : Reg × ℕ} (hx : x ∈ l) :
    (exec (loads b l) m).cpu.get x.1 = m.mem (slot (m.cpu.get b) x.2) := by
  induction l generalizing m with
  | nil => cases hx
  | cons y l ih =>
    rw [List.map_cons, List.nodup_cons] at hn
    rw [List.map_cons, List.mem_cons, not_or] at hb h0
    rw [exec_loads_cons]
    rcases List.mem_cons.mp hx with rfl | hx
    · rw [loads_get_of_notMem l _ hn.1]
      exact Cpu.get_set_self _ (Ne.symm h0.1) _
    · rw [ih _ hn.2 hb.2 h0.2 hx]
      rw [Cpu.get_set_of_ne _ hb.1]

end Loads

/-! ### Calls

The o32 convention, as relations between the machine when a function is entered
and when it calls or returns. -/

/-- The registers a function gives back as it found them. -/
def calleeSaved : List Reg := [16, 17, 18, 19, 20, 21, 22, 23, 28, 30]

/-- The stack of a function called with stack pointer `sp`: `frame` bytes
below it, and the four words its caller leaves for the arguments. -/
def InFrame (frame : ℕ) (sp a : Word) : Prop := sp.toNat ≤ a.toNat + frame ∧ a.toNat < sp.toNat + 16

/-- A function entered in `m` returns in `m''`; between `m'` and `m''` it
wrote its own frame only. -/
structure Returned (frame : ℕ) (m m' m'' : Machine) : Prop where
  saved : ∀ r ∈ calleeSaved, m''.cpu.get r = m.cpu.get r
  sp : m''.cpu.get 29 = m.cpu.get 29
  pc : m''.cpu.pc = m.cpu.get 31
  sr : m''.cpu.sr = m'.cpu.sr
  mem : ∀ a, ¬ InFrame frame (m.cpu.get 29) a → m''.mem a = m'.mem a

/-- A function entered in `m` has called another in `m'`, with arguments `x`
and to return at `ret`. -/
structure Called (frame : ℕ) (ret : Word) (x : Word × Word) (m m' : Machine) : Prop where
  arg0 : m'.cpu.get 4 = x.1
  arg1 : m'.cpu.get 5 = x.2
  ra : m'.cpu.get 31 = ret
  sp : m'.cpu.get 29 = m.cpu.get 29 - BitVec.ofNat 32 frame
  sr : m'.cpu.sr = m.cpu.sr
  mem : ∀ a, ¬ InFrame frame (m.cpu.get 29) a → m'.mem a = m.mem a

/-- What a function finds when a call returns to it: its stack pointer, its
registers and its frame as it left them. -/
structure Resumable (frame : ℕ) (ret : Word) (m m₁ m' : Machine) : Prop where
  saved : ∀ r ∈ calleeSaved, m'.cpu.get r = m₁.cpu.get r
  sp : m'.cpu.get 29 = m₁.cpu.get 29
  pc : m'.cpu.pc = ret
  mem : ∀ a, InFrame frame (m.cpu.get 29) a → m'.mem a = m₁.mem a

end Mips
end Smc
