/-
# The array of an IntTab

`IntTab` (`TP2/TP2_etudiant/int_tab.h`) is an array of ten cells and a level.
The values are the cells before the first -1; the level is where it is, and
what comes after it was never written. `init` looks for the -1 as it copies and
throws if there is none. The vector constructor first copies the vector to an
array of ten on the stack, whatever its length. The appending constructor writes
behind the level and does not look at what it appends, nor at the level.

A run makes objects one after the other, assigns them and reads their cells.
The array is well-formed in every state, every access is inside of it and every
step does what it is for, exactly if each step meets a condition
(`sound_iff_meets`): a vector has ten values at most, what is appended is not
the -1 and there is room for it, and the cell of the -1 is not read. As long as
they do, an object is an `IntTab` of the mapping table (`Cells.tab`), and the
steps are those of `IntTab`s (`stepTab`).

Key definitions: `Cells`, `init`, `step`, `Cells.Inv`, `Sound`, `Meets`.
Key theorems: `init_spec`, `sound_iff_of_inv`, `sound_iff_meets`, `stepTab`.
-/
import Smc.Tp2.Segment

namespace Smc
namespace Tp2
namespace IntTabCells

/-! ### The class -/

/-- The array, of `s_max_level` cells, and the level. -/
structure Cells where
  mValues : ℕ → BitVec 32
  mLevel : ℕ

/-- `ValueError`, or an access outside of an array. -/
inductive Failure where
  | valueError
  | outside
deriving DecidableEq, Repr

namespace Cells

def store (c : Cells) (i : ℕ) (v : BitVec 32) : Cells := { c with mValues := Function.update c.mValues i v }

/-- `m_values[i] = v`. -/
def set (c : Cells) (i : ℕ) (v : BitVec 32) : Except Failure Cells :=
  if i < 10 then .ok (c.store i v) else .error .outside

/-- `operator[]`. -/
def get (c : Cells) (level : ℕ) : Except Failure (BitVec 32) :=
  if level > c.mLevel then .error .valueError
  else if level < 10 then .ok (c.mValues level) else .error .outside

end Cells

/-- The loop of `init` with `n` passes to go from `i` on: whether it returns or
throws `Too much levels`, and the object then. -/
def initFrom (vals : ℕ → BitVec 32) : ℕ → ℕ → Cells → Bool × Cells
  | 0, _, c => (false, c)
  | n + 1, i, c =>
    if vals i = -1 then (true, { c.store i (vals i) with mLevel := i })
    else initFrom vals n (i + 1) (c.store i (vals i))

def init (vals : ℕ → BitVec 32) (c : Cells) : Bool × Cells := initFrom vals 10 0 c

/-- A constructor that only calls `init`, on the memory of the new object. -/
def construct (vals : ℕ → BitVec 32) (raw : Cells) : Except Failure Cells :=
  if (init vals raw).1 then .ok (init vals raw).2 else .error .valueError

/-- The constructor from ten scalars. -/
def ofScalars (vals : Fin 10 → BitVec 32) (raw : Cells) : Except Failure Cells :=
  construct (fun i => vals (Fin.ofNat 10 i)) raw

/-- `while (i < v.size()) vals[i] = v[i]`, with the rest of the vector. -/
def copyIn (vals : ℕ → BitVec 32) (i : ℕ) : List (BitVec 32) → Except Failure (ℕ → BitVec 32)
  | [] => .ok vals
  | x :: v => if i < 10 then copyIn (Function.update vals i x) (i + 1) v else .error .outside

/-- `while (i < s_max_level) vals[i] = -1`, with `n` passes to go. -/
def pad (vals : ℕ → BitVec 32) : ℕ → ℕ → ℕ → BitVec 32
  | 0, _ => vals
  | n + 1, i => pad (Function.update vals i (-1)) n (i + 1)

/-- The constructor from a vector, with what is on the stack at first. -/
def ofVector (stack : ℕ → BitVec 32) (v : List (BitVec 32)) (raw : Cells) : Except Failure Cells := do
  let vals ← copyIn stack 0 v
  construct (pad vals (10 - v.length) v.length) raw

/-- The appending constructor. -/
def append (ref : Cells) (nindex : BitVec 32) (raw : Cells) : Except Failure Cells := do
  let c ← construct ref.mValues raw
  let c ← c.set c.mLevel nindex
  { c with mLevel := c.mLevel + 1 }.set (c.mLevel + 1) (-1)

/-! ### Runs -/

/-- The objects of a program, by their names. -/
abbrev Pool := ℕ → Cells

/-- A construction, an assignment or a read. A new object is made in some
memory. -/
inductive Op where
  | scalars (dst : ℕ) (raw : Cells) (vals : Fin 10 → BitVec 32)
  | vector (dst : ℕ) (raw : Cells) (stack : ℕ → BitVec 32) (v : List (BitVec 32))
  | copy (dst : ℕ) (raw : Cells) (src : ℕ)
  | append (dst : ℕ) (raw : Cells) (src : ℕ) (nindex : BitVec 32)
  | assign (dst src : ℕ)
  | index (src level : ℕ)

/-- What comes of a step: an object, a value or a failure. -/
inductive Outcome where
  | made
  | value (v : BitVec 32)
  | failed (e : Failure)
deriving DecidableEq, Repr

def Outcome.ofRead : Except Failure (BitVec 32) → Outcome
  | .ok v => .value v
  | .error e => .failed e

/-- A construction that fails makes no object. -/
def make (p : Pool) (dst : ℕ) : Except Failure Cells → Outcome × Pool
  | .ok c => (.made, Function.update p dst c)
  | .error e => (.failed e, p)

/-- An `init` that throws leaves what it has copied. -/
def step (p : Pool) : Op → Outcome × Pool
  | .scalars dst raw vals => make p dst (ofScalars vals raw)
  | .vector dst raw stack v => make p dst (ofVector stack v raw)
  | .copy dst raw src => make p dst (construct (p src).mValues raw)
  | .append dst raw src nindex => make p dst (append (p src) nindex raw)
  | .assign dst src =>
    (if (init (p src).mValues (p dst)).1 then .made else .failed .valueError,
      Function.update p dst (init (p src).mValues (p dst)).2)
  | .index src level => (.ofRead ((p src).get level), p)

/-- Every object is made by `IntTab()` first, in some memory. -/
def start (raw : Pool) : Pool := fun x => (init (fun _ => -1) (raw x)).2

/-- At each step of the run from `p`, `P` holds of the state and the step. -/
def Along (P : Pool → Op → Prop) : Pool → List Op → Prop
  | _, [] => True
  | p, op :: ops => P p op ∧ Along P (step p op).2 ops

/-! ### What the class is to guarantee -/

/-- The array has its -1 at the level, and none before it. -/
structure Cells.Inv (c : Cells) : Prop where
  level_le : c.mLevel ≤ 9
  ended : c.mValues c.mLevel = -1
  ne_end : ∀ j < c.mLevel, c.mValues j ≠ -1

/-- What a step has to do. -/
structure Sound (p : Pool) (op : Op) : Prop where
  inside : (step p op).1 ≠ .failed .outside
  inv : ∀ x, ((step p op).2 x).Inv
  /-- an appended value is the last one -/
  append : ∀ dst raw src nindex, op = .append dst raw src nindex → (step p op).1 = .made →
    ((step p op).2 dst).mLevel = (p src).mLevel + 1 ∧ ((step p op).2 dst).mValues (p src).mLevel = nindex
  /-- a value is read, or the read throws -/
  index : ∀ src level, op = .index src level →
    (level < (p src).mLevel → (step p op).1 = .value ((p src).mValues level)) ∧
    ((p src).mLevel ≤ level → (step p op).1 = .failed .valueError)

/-- The condition on a step and the state before it. -/
def Meets (p : Pool) : Op → Prop
  | .vector _ _ _ v => v.length ≤ 10
  | .append _ _ src nindex => (p src).mLevel ≤ 8 ∧ nindex ≠ -1
  | .index src level => level ≠ (p src).mLevel
  | .scalars .. | .copy .. | .assign .. => True

/-! ### init -/

section Init

variable {vals : ℕ → BitVec 32} {c src : Cells} {nindex : BitVec 32}

/-- The object has the values up to the first -1, which is among the first ten. -/
structure Holds (vals : ℕ → BitVec 32) (c : Cells) : Prop where
  level_le : c.mLevel ≤ 9
  ended : vals c.mLevel = -1
  ne_end : ∀ j < c.mLevel, vals j ≠ -1
  values : ∀ j ≤ c.mLevel, c.mValues j = vals j

theorem Holds.inv (h : Holds vals c) : c.Inv := by
  refine ⟨h.level_le, ?_, fun j hj => ?_⟩
  · rw [h.values _ le_rfl]
    exact h.ended
  · rw [h.values j hj.le]
    exact h.ne_end j hj

/-- Two objects with the same values have the same level. -/
theorem Holds.level_eq (h : Holds src.mValues c) (hs : src.Inv) : c.mLevel = src.mLevel := by
  rcases lt_trichotomy c.mLevel src.mLevel with hlt | heq | hgt
  · exact absurd h.ended (hs.ne_end _ hlt)
  · exact heq
  · exact absurd hs.ended (h.ne_end _ hgt)

/-- The loop, with no -1 so far. -/
theorem initFrom_spec (n i : ℕ) (c : Cells) (hi : i + n = 10) (hseen : ∀ j < i, vals j ≠ -1)
    (hcopied : ∀ j < i, c.mValues j = vals j) :
    ((initFrom vals n i c).1 = true ∧ Holds vals (initFrom vals n i c).2) ∨
      ((initFrom vals n i c).1 = false ∧ ∀ j < 10, vals j ≠ -1) := by
  induction n generalizing i c with
  | zero => exact .inr ⟨rfl, fun j hj => hseen j (by omega)⟩
  | succ n ih =>
    have hstored : ∀ j ≤ i, (c.store i (vals i)).mValues j = vals j := by
      intro j hj
      rcases Nat.lt_or_eq_of_le hj with hlt | rfl
      · exact (Function.update_of_ne hlt.ne _ _).trans (hcopied j hlt)
      · exact Function.update_self _ _ _
    unfold initFrom
    by_cases hend : vals i = -1
    · rw [if_pos hend]
      exact .inl ⟨rfl, show i ≤ 9 by omega, hend, hseen, hstored⟩
    · rw [if_neg hend]
      apply ih (i + 1) _ (by omega)
      · intro j hj
        rcases Nat.lt_succ_iff_lt_or_eq.mp hj with hlt | rfl
        · exact hseen j hlt
        · exact hend
      · exact fun j hj => hstored j (Nat.le_of_lt_succ hj)

theorem init_spec (vals : ℕ → BitVec 32) (c : Cells) :
    ((init vals c).1 = true ∧ Holds vals (init vals c).2) ∨ ((init vals c).1 = false ∧ ∀ j < 10, vals j ≠ -1) :=
  initFrom_spec 10 0 c rfl (fun _ hj => absurd hj (Nat.not_lt_zero _)) (fun _ hj => absurd hj (Nat.not_lt_zero _))

/-- `init` from an object does not throw. -/
theorem init_of_inv (hs : src.Inv) (c : Cells) :
    (init src.mValues c).1 = true ∧ Holds src.mValues (init src.mValues c).2 := by
  rcases init_spec src.mValues c with h | ⟨-, hnone⟩
  · exact h
  · exact absurd hs.ended (hnone _ (Nat.lt_succ_of_le hs.level_le))

theorem construct_spec (vals : ℕ → BitVec 32) (raw : Cells) :
    (∃ c, construct vals raw = .ok c ∧ Holds vals c) ∨ construct vals raw = .error .valueError := by
  unfold construct
  rcases init_spec vals raw with ⟨hok, hholds⟩ | ⟨hthrow, -⟩
  · rw [if_pos hok]
    exact .inl ⟨_, rfl, hholds⟩
  · rw [if_neg (by rw [hthrow]; exact Bool.false_ne_true)]
    exact .inr rfl

theorem construct_of_inv (hs : src.Inv) (raw : Cells) :
    ∃ c, construct src.mValues raw = .ok c ∧ Holds src.mValues c := by
  obtain ⟨hok, hholds⟩ := init_of_inv hs raw
  exact ⟨_, if_pos hok, hholds⟩

/-! ### The other constructors -/

/-- A vector fits the array on the stack if it has ten values at most. -/
theorem copyIn_spec (v : List (BitVec 32)) (vals : ℕ → BitVec 32) (i : ℕ) (hi : i ≤ 10) :
    (i + v.length ≤ 10 ∧ ∃ vals', copyIn vals i v = .ok vals') ∨
      (10 < i + v.length ∧ copyIn vals i v = .error .outside) := by
  induction v generalizing vals i with
  | nil => exact .inl ⟨hi, vals, rfl⟩
  | cons x v ih =>
    rw [List.length_cons]
    unfold copyIn
    by_cases hlt : i < 10
    · rw [if_pos hlt]
      rcases ih (Function.update vals i x) (i + 1) hlt with ⟨hle, hok⟩ | ⟨hgt, hout⟩
      · exact .inl ⟨by omega, hok⟩
      · exact .inr ⟨by omega, hout⟩
    · rw [if_neg hlt]
      exact .inr ⟨by omega, rfl⟩

theorem ofVector_of_le {v : List (BitVec 32)} (h : v.length ≤ 10) (stack : ℕ → BitVec 32) (raw : Cells) :
    ∃ vals, ofVector stack v raw = construct vals raw := by
  rcases copyIn_spec v stack 0 (Nat.zero_le _) with ⟨-, vals, hvals⟩ | ⟨hgt, -⟩
  · refine ⟨pad vals (10 - v.length) v.length, ?_⟩
    rw [ofVector, hvals]
    rfl
  · omega

theorem ofVector_of_lt {v : List (BitVec 32)} (h : 10 < v.length) (stack : ℕ → BitVec 32) (raw : Cells) :
    ofVector stack v raw = .error .outside := by
  rcases copyIn_spec v stack 0 (Nat.zero_le _) with ⟨hle, -⟩ | ⟨-, hout⟩
  · omega
  · rw [ofVector, hout]
    rfl

/-- What the appending constructor makes. -/
structure Appended (src : Cells) (nindex : BitVec 32) (c : Cells) : Prop where
  level : c.mLevel = src.mLevel + 1
  last : c.mValues src.mLevel = nindex
  ended : c.mValues (src.mLevel + 1) = -1
  before : ∀ j < src.mLevel, c.mValues j = src.mValues j

/-- There is room for one more value up to level 8. -/
theorem append_of_le (hs : src.Inv) (hle : src.mLevel ≤ 8) (nindex : BitVec 32) (raw : Cells) :
    ∃ c, append src nindex raw = .ok c ∧ Appended src nindex c := by
  obtain ⟨c, hc, hholds⟩ := construct_of_inv hs raw
  have hlevel := hholds.level_eq hs
  have hin : c.mLevel < 10 := by omega
  have hin' : c.mLevel + 1 < 10 := by omega
  refine ⟨{ (c.store c.mLevel nindex).store (c.mLevel + 1) (-1) with mLevel := c.mLevel + 1 }, ?_, ?_, ?_, ?_, ?_⟩
  · rw [append, hc]
    show Except.bind (c.set c.mLevel nindex) _ = _
    rw [Cells.set, if_pos hin]
    show Cells.set _ (c.mLevel + 1) (-1) = _
    rw [Cells.set, if_pos hin']
    rfl
  · show c.mLevel + 1 = _
    rw [hlevel]
  · show Function.update (Function.update c.mValues c.mLevel nindex) (c.mLevel + 1) (-1) src.mLevel = _
    rw [hlevel, Function.update_of_ne (by omega), Function.update_self]
  · show Function.update (Function.update c.mValues c.mLevel nindex) (c.mLevel + 1) (-1) (src.mLevel + 1) = _
    rw [hlevel, Function.update_self]
  · intro j hj
    show Function.update (Function.update c.mValues c.mLevel nindex) (c.mLevel + 1) (-1) j = _
    rw [hlevel, Function.update_of_ne (by omega), Function.update_of_ne (by omega), hholds.values j (by omega)]

/-- At level 9 the -1 is written outside. -/
theorem append_of_eq (hs : src.Inv) (hnine : src.mLevel = 9) (nindex : BitVec 32) (raw : Cells) :
    append src nindex raw = .error .outside := by
  obtain ⟨c, hc, hholds⟩ := construct_of_inv hs raw
  have hlevel : c.mLevel = 9 := (hholds.level_eq hs).trans hnine
  rw [append, hc]
  show Except.bind (c.set c.mLevel nindex) _ = _
  rw [Cells.set, if_pos (by omega)]
  show Cells.set _ (c.mLevel + 1) (-1) = _
  rw [Cells.set, if_neg (by omega)]

/-- What is appended is a value, unless it is the -1. -/
theorem Appended.inv_iff (h : Appended src nindex c) (hs : src.Inv) (hle : src.mLevel ≤ 8) :
    c.Inv ↔ nindex ≠ -1 := by
  constructor
  · intro hc
    rw [← h.last]
    exact hc.ne_end _ (by rw [h.level]; exact Nat.lt_succ_self _)
  · intro hne
    refine ⟨by rw [h.level]; omega, by rw [h.level]; exact h.ended, fun j hj => ?_⟩
    rw [h.level] at hj
    rcases Nat.lt_succ_iff_lt_or_eq.mp hj with hlt | rfl
    · rw [h.before j hlt]
      exact hs.ne_end j hlt
    · rw [h.last]
      exact hne

/-- A value is read below the level, the -1 at it, and the read throws above. -/
theorem get_spec (hc : c.Inv) (level : ℕ) :
    c.get level = if c.mLevel < level then .error .valueError else .ok (c.mValues level) := by
  have hle := hc.level_le
  unfold Cells.get
  by_cases h : c.mLevel < level
  · rw [if_pos h, if_pos h]
  · rw [if_neg h, if_neg h, if_pos (by omega)]

end Init

/-! ### One step -/

section Step

variable {p : Pool} {dst src : ℕ}

theorem update_inv (h : ∀ x, (p x).Inv) {c : Cells} (hc : c.Inv) (x : ℕ) : (Function.update p dst c x).Inv := by
  rcases eq_or_ne x dst with rfl | hne
  · rw [Function.update_self]
    exact hc
  · rw [Function.update_of_ne hne]
    exact h x

/-- A constructor that only calls `init` makes a good object or throws. -/
theorem make_construct (h : ∀ x, (p x).Inv) (dst : ℕ) (vals : ℕ → BitVec 32) (raw : Cells) :
    (make p dst (construct vals raw)).1 ≠ .failed .outside ∧ ∀ x, ((make p dst (construct vals raw)).2 x).Inv := by
  rcases construct_spec vals raw with ⟨c, hc, hholds⟩ | hthrow
  · rw [hc]
    exact ⟨nofun, fun x => update_inv h hholds.inv x⟩
  · rw [hthrow]
    exact ⟨show Outcome.failed .valueError ≠ _ by decide, h⟩

theorem sound_scalars (h : ∀ x, (p x).Inv) (dst : ℕ) (raw : Cells) (vals : Fin 10 → BitVec 32) :
    Sound p (.scalars dst raw vals) := by
  obtain ⟨hin, hinv⟩ := make_construct h dst (fun i => vals (Fin.ofNat 10 i)) raw
  exact ⟨hin, hinv, nofun, nofun⟩

theorem sound_copy (h : ∀ x, (p x).Inv) (dst : ℕ) (raw : Cells) (src : ℕ) : Sound p (.copy dst raw src) := by
  obtain ⟨hin, hinv⟩ := make_construct h dst (p src).mValues raw
  exact ⟨hin, hinv, nofun, nofun⟩

theorem sound_assign (h : ∀ x, (p x).Inv) (dst src : ℕ) : Sound p (.assign dst src) := by
  obtain ⟨hok, hholds⟩ := init_of_inv (h src) (p dst)
  refine ⟨?_, fun x => update_inv h hholds.inv x, nofun, nofun⟩
  show (if (init (p src).mValues (p dst)).1 = true then Outcome.made else _) ≠ _
  rw [if_pos hok]
  exact nofun

theorem sound_vector_iff (h : ∀ x, (p x).Inv) (dst : ℕ) (raw : Cells) (stack : ℕ → BitVec 32) (v : List (BitVec 32)) :
    Sound p (.vector dst raw stack v) ↔ v.length ≤ 10 := by
  constructor
  · intro hs
    by_contra hlen
    apply hs.inside
    show (make p dst (ofVector stack v raw)).1 = _
    rw [ofVector_of_lt (not_le.mp hlen)]
    rfl
  · intro hlen
    obtain ⟨vals, hvals⟩ := ofVector_of_le hlen stack raw
    obtain ⟨hin, hinv⟩ := make_construct h dst vals raw
    rw [← hvals] at hin hinv
    exact ⟨hin, hinv, nofun, nofun⟩

theorem sound_append_iff (h : ∀ x, (p x).Inv) (dst : ℕ) (raw : Cells) (src : ℕ) (nindex : BitVec 32) :
    Sound p (.append dst raw src nindex) ↔ (p src).mLevel ≤ 8 ∧ nindex ≠ -1 := by
  have hnine := (h src).level_le
  rcases Nat.lt_or_ge 8 (p src).mLevel with hfull | hroom
  · refine iff_of_false (fun hs => hs.inside ?_) (fun hm => absurd hm.1 (not_le.mpr hfull))
    show (make p dst (append (p src) nindex raw)).1 = _
    rw [append_of_eq (h src) (by omega)]
    rfl
  · obtain ⟨c, hc, happ⟩ := append_of_le (h src) hroom nindex raw
    have hstep : step p (.append dst raw src nindex) = (.made, Function.update p dst c) := by
      show make p dst (append (p src) nindex raw) = _
      rw [hc]
      rfl
    have hdst : (step p (.append dst raw src nindex)).2 dst = c := by
      rw [hstep]
      exact Function.update_self _ _ _
    rw [and_iff_right hroom, ← happ.inv_iff (h src) hroom]
    constructor
    · intro hs
      have hinv := hs.inv dst
      rwa [hdst] at hinv
    · intro hinv
      refine ⟨by rw [hstep]; exact nofun, fun x => ?_, ?_, nofun⟩
      · rw [hstep]
        exact update_inv h hinv x
      · intro dst' raw' src' nindex' hop _
        cases hop
        rw [hdst]
        exact ⟨happ.level, happ.last⟩

theorem step_index (h : ∀ x, (p x).Inv) (src level : ℕ) : step p (.index src level) =
    (if (p src).mLevel < level then .failed .valueError else .value ((p src).mValues level), p) := by
  have hget := get_spec (h src) level
  show (Outcome.ofRead ((p src).get level), p) = _
  rw [hget]
  by_cases habove : (p src).mLevel < level
  · rw [if_pos habove, if_pos habove]
    rfl
  · rw [if_neg habove, if_neg habove]
    rfl

theorem sound_index_iff (h : ∀ x, (p x).Inv) (src level : ℕ) :
    Sound p (.index src level) ↔ level ≠ (p src).mLevel := by
  have hstep := step_index h src level
  constructor
  · intro hs heq
    have hthrow := (hs.index src level rfl).2 heq.ge
    rw [hstep, if_neg heq.not_gt] at hthrow
    cases hthrow
  · intro hne
    refine ⟨?_, fun x => by rw [hstep]; exact h x, nofun, ?_⟩
    · rw [hstep]
      show (if (p src).mLevel < level then Outcome.failed .valueError else .value ((p src).mValues level)) ≠ _
      split_ifs
      · decide
      · exact nofun
    · intro src' level' hop
      cases hop
      rw [hstep]
      constructor
      · intro hlt
        exact if_neg (by omega)
      · intro hle
        exact if_pos (by omega)

/-- What a step does right, and what it needs for it. -/
theorem sound_iff_of_inv (h : ∀ x, (p x).Inv) (op : Op) : Sound p op ↔ Meets p op := by
  cases op with
  | scalars dst raw vals => exact iff_of_true (sound_scalars h dst raw vals) trivial
  | vector dst raw stack v => exact sound_vector_iff h dst raw stack v
  | copy dst raw src => exact iff_of_true (sound_copy h dst raw src) trivial
  | append dst raw src nindex => exact sound_append_iff h dst raw src nindex
  | assign dst src => exact iff_of_true (sound_assign h dst src) trivial
  | index src level => exact sound_index_iff h src level

end Step

/-! ### Runs -/

theorem start_inv (raw : Pool) (x : ℕ) : (start raw x).Inv := by
  rcases init_spec (fun _ => -1) (raw x) with ⟨-, hholds⟩ | ⟨-, hnone⟩
  · exact hholds.inv
  · exact absurd rfl (hnone 0 (by decide))

theorem along_iff {p : Pool} (h : ∀ x, (p x).Inv) (ops : List Op) : Along Sound p ops ↔ Along Meets p ops := by
  induction ops generalizing p with
  | nil => exact Iff.rfl
  | cons op ops ih =>
    unfold Along
    rw [← sound_iff_of_inv h op]
    exact and_congr_right fun hs => ih hs.inv

/-- **When the array stays well-formed.** For every finite sequence of
constructions, assignments and reads, in any memory: each step keeps or makes
well-formed objects or throws `ValueError`, stays inside of the arrays, appends
and reads as it should, exactly if each step meets its condition. -/
theorem sound_iff_meets (raw : Pool) (ops : List Op) :
    Along Sound (start raw) ops ↔ Along Meets (start raw) ops :=
  along_iff (start_inv raw) ops

/-- Memory that holds zeros. -/
def zeros : Cells := ⟨fun _ => 0, 0⟩

/-- Four runs that go wrong at their last step: a vector of eleven values; a -1
is appended; a tenth value is appended; the cell of the -1 is read. -/
theorem array_misused :
    ¬ Along Sound (start fun _ => zeros) [.vector 0 zeros (fun _ => 0) (List.replicate 11 0)] ∧
    ¬ Along Sound (start fun _ => zeros) [.append 0 zeros 1 (-1)] ∧
    ¬ Along Sound (start fun _ => zeros) [.vector 1 zeros (fun _ => 0) (List.replicate 9 0), .append 0 zeros 1 7] ∧
    ¬ Along Sound (start fun _ => zeros) [.index 0 0] := by
  have hstart := start_inv fun _ => zeros
  rw [along_iff hstart, along_iff hstart, along_iff hstart, along_iff hstart]
  refine ⟨fun h => ?_, fun h => ?_, fun h => ?_, fun h => ?_⟩
  · exact absurd h.1 (show ¬ 11 ≤ 10 by decide)
  · exact absurd rfl h.1.2
  · exact absurd h.2.1.1 (by decide)
  · exact absurd rfl h.1

/-! ### The values -/

section Tab

variable {c src : Cells}

/-- A well-formed object is an `IntTab`. -/
def Cells.tab (c : Cells) (h : c.Inv) : IntTab where
  mValues := (List.range c.mLevel).map c.mValues
  length_le := by
    rw [List.length_map, List.length_range]
    exact h.level_le
  ne_end v hv := by
    obtain ⟨j, hj, rfl⟩ := List.mem_map.mp hv
    exact h.ne_end j (List.mem_range.mp hj)

/-- The two ways to read a value are the same. -/
theorem tab_get (h : c.Inv) (level : ℕ) : (c.tab h).get level = (c.get level).toOption := by
  have hlevel : (c.tab h).level = c.mLevel := by
    show ((List.range c.mLevel).map c.mValues).length = _
    rw [List.length_map, List.length_range]
  rw [get_spec h, IntTab.get, hlevel]
  rcases lt_trichotomy level c.mLevel with hlt | heq | hgt
  · rw [if_neg (by omega), if_neg (by omega)]
    show some (((List.range c.mLevel).map c.mValues).getD level (-1)) = some _
    simp [List.getD_eq_getElem?_getD, hlt]
  · rw [if_neg (by omega), if_neg (by omega)]
    show some (((List.range c.mLevel).map c.mValues).getD level (-1)) = some _
    rw [heq, h.ended]
    simp [List.getD_eq_getElem?_getD]
  · rw [if_pos hgt, if_pos hgt]
    rfl

/-- A copy has the same values. -/
theorem Holds.tab_eq (h : Holds src.mValues c) (hs : src.Inv) : c.tab h.inv = src.tab hs := by
  have hvalues : (List.range c.mLevel).map c.mValues = (List.range src.mLevel).map src.mValues := by
    rw [h.level_eq hs]
    apply List.map_congr_left
    intro j hj
    have hlt := List.mem_range.mp hj
    exact h.values j (by rw [h.level_eq hs]; exact hlt.le)
  unfold Cells.tab
  congr 1

/-- The appending constructor appends. -/
theorem Appended.tab_eq {nindex : BitVec 32} (h : Appended src nindex c) (hs : src.Inv) (hc : c.Inv) :
    (c.tab hc).mValues = (src.tab hs).mValues ++ [nindex] := by
  show (List.range c.mLevel).map c.mValues = (List.range src.mLevel).map src.mValues ++ [nindex]
  rw [h.level, List.range_succ, List.map_append, List.map_singleton, h.last]
  congr 1
  exact List.map_congr_left fun j hj => h.before j (List.mem_range.mp hj)

end Tab

/-- What a step is for the `IntTab`s. -/
structure StepTab (p : Pool) (h : ∀ x, (p x).Inv) (op : Op) (h' : ∀ x, ((step p op).2 x).Inv) : Prop where
  copy : ∀ dst raw src, op = .copy dst raw src → ((step p op).2 dst).tab (h' dst) = (p src).tab (h src)
  assign : ∀ dst src, op = .assign dst src → ((step p op).2 dst).tab (h' dst) = (p src).tab (h src)
  append : ∀ dst raw src nindex, op = .append dst raw src nindex →
    (((step p op).2 dst).tab (h' dst)).mValues = ((p src).tab (h src)).mValues ++ [nindex]
  index : ∀ src level, op = .index src level → level < (p src).mLevel →
    ∃ v, ((p src).tab (h src)).get level = some v ∧ (step p op).1 = .value v

theorem tab_congr {c c' : Cells} (he : c = c') (h : c.Inv) (h' : c'.Inv) : c.tab h = c'.tab h' := by
  subst he
  rfl

/-- The steps of the arrays are steps of `IntTab`s: a copy and an assignment
keep the values, the appending constructor adds one and a read takes one. -/
theorem stepTab {p : Pool} (h : ∀ x, (p x).Inv) {op : Op} (hs : Sound p op) : StepTab p h op hs.inv := by
  refine ⟨?_, ?_, ?_, ?_⟩
  · rintro dst raw src rfl
    obtain ⟨c, hc, hholds⟩ := construct_of_inv (h src) raw
    have hdst : (step p (.copy dst raw src)).2 dst = c := by
      show (make p dst (construct (p src).mValues raw)).2 dst = c
      rw [hc]
      exact Function.update_self _ _ _
    rw [tab_congr hdst _ hholds.inv, hholds.tab_eq (h src)]
  · rintro dst src rfl
    obtain ⟨-, hholds⟩ := init_of_inv (h src) (p dst)
    have hdst : (step p (.assign dst src)).2 dst = (init (p src).mValues (p dst)).2 := Function.update_self _ _ _
    rw [tab_congr hdst _ hholds.inv, hholds.tab_eq (h src)]
  · rintro dst raw src nindex rfl
    have hmeets := (sound_append_iff h dst raw src nindex).mp hs
    obtain ⟨c, hc, happ⟩ := append_of_le (h src) hmeets.1 nindex raw
    have hdst : (step p (.append dst raw src nindex)).2 dst = c := by
      show (make p dst (append (p src) nindex raw)).2 dst = c
      rw [hc]
      exact Function.update_self _ _ _
    have hinv : c.Inv := (happ.inv_iff (h src) hmeets.1).mpr hmeets.2
    rw [tab_congr hdst _ hinv, happ.tab_eq (h src) hinv]
  · rintro src level rfl hlt
    refine ⟨(p src).mValues level, ?_, (hs.index src level rfl).1 hlt⟩
    rw [tab_get (h src), get_spec (h src), if_neg (not_lt.mpr hlt.le)]
    rfl

end IntTabCells
end Tp2
end Smc
