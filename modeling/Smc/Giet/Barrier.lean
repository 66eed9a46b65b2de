/-
# The barriers of the GIET

`_barrier_init` and `_barrier_wait` (`giet_2011/sys/common.c`). A barrier is
two words: the number of tasks to wait for, and the count of those still to
arrive. `_barrier_wait` decrements the count with `ll` and `sc`; the task that
finds one writes the number of tasks back, the others read the count until it
is that number. `_barrier_init` is called by every task: the one whose `sc`
turns the number from zero writes the count, with a plain store that follows.

A step is one memory access of one task (`access`). At a store-conditional the
machine may make it fail. `addi` traps on the most negative word, and the task
does not come back.

Key definitions: `access`, `next`, `Move`.
Key theorem: `move_next`, what a step can do.
-/
import Smc.Lib.Clocked
import Smc.Lib.LlSc

namespace Smc
namespace Giet
namespace Barrier

abbrev Word := BitVec 32

/-- `MAX_BARRIER_COUNT`. -/
def maxBarrierCount : ℕ := 8

/-- The words of `_barrier_initial_value` and `_barrier_count`. -/
inductive Cell where
  | initialValue (index : ℕ)
  | count (index : ℕ)
deriving DecidableEq, Repr

/-- Where a task is: the next access it makes. -/
inductive Pc where
  /-- before its call of `_barrier_init` -/
  | start
  | initLl
  | initSc
  | initStore
  /-- between two calls of `_barrier_wait` -/
  | outside
  | readMax
  | ll (maxcount : Word)
  | sc (maxcount count : Word)
  | reset (maxcount : Word)
  | spin (maxcount : Word)
  | trapped
deriving DecidableEq, Repr

/-- Numerals name two tasks. -/
instance neZero_two : NeZero 2 := ⟨by decide⟩

/-- A task, with the number of times it has called `_barrier_wait` and
returned from it, and what the last call of either function returned. -/
structure Task where
  pc : Pc
  calls : ℕ
  rets : ℕ
  result : Word
deriving DecidableEq, Repr

/-- What the tasks pass: `index` to both functions, `value` to `_barrier_init`. -/
structure Args where
  index : ℕ
  value : Word
deriving DecidableEq, Repr

namespace Args

variable (k : Args)

def pinit : Cell := .initialValue k.index

def pcount : Cell := .count k.index

theorem pinit_ne_pcount : k.pinit ≠ k.pcount := nofun

end Args

/-- `_barrier_wait` returns to its caller. -/
def Task.ret (me : Task) (result : Word) : Task :=
  { me with pc := .outside, rets := me.rets + 1, result := result }

/-- The next access of task `t`. -/
def access {T : Type} [DecidableEq T] (k : Args) (t : T) (scOk : Bool) (m : Mem Cell T Word) (me : Task) :
    Task × Mem Cell T Word :=
  match me.pc with
  | .start =>
    if k.index ≥ maxBarrierCount then ({ me with pc := .outside, result := 1 }, m)
    else ({ me with pc := .initLl }, m)
  | .initLl =>
    if m.val k.pinit ≠ 0 then ({ me with pc := .outside, result := 0 }, m.ll t k.pinit)
    else ({ me with pc := .initSc }, m.ll t k.pinit)
  | .initSc =>
    if m.scSucceeds t k.pinit scOk then ({ me with pc := .initStore }, m.sc t k.pinit k.value scOk)
    else ({ me with pc := .initLl }, m.sc t k.pinit k.value scOk)
  | .initStore => ({ me with pc := .outside, result := 0 }, m.store k.pcount k.value)
  | .outside =>
    let me := { me with calls := me.calls + 1 }
    if k.index ≥ maxBarrierCount then (me.ret 1, m) else ({ me with pc := .readMax }, m)
  | .readMax => ({ me with pc := .ll (m.val k.pinit) }, m)
  | .ll maxcount =>
    let count := m.val k.pcount
    if count = BitVec.intMin 32 then ({ me with pc := .trapped }, m.ll t k.pcount)
    else ({ me with pc := .sc maxcount count }, m.ll t k.pcount)
  | .sc maxcount count =>
    if m.scSucceeds t k.pcount scOk then
      ({ me with pc := if count = 1 then .reset maxcount else .spin maxcount },
        m.sc t k.pcount (count - 1) scOk)
    else ({ me with pc := .ll maxcount }, m.sc t k.pcount (count - 1) scOk)
  | .reset maxcount => (me.ret 0, m.store k.pcount maxcount)
  | .spin maxcount => if m.val k.pcount ≠ maxcount then (me, m) else (me.ret 0, m)
  | .trapped => (me, m)

/-- The memory and the tasks. -/
structure State (n : ℕ) where
  mem : Mem Cell (Fin n) Word
  task : Fin n → Task

variable {n : ℕ} (k : Args)

/-- Task `c.1` makes its next access; `c.2` lets a store-conditional succeed. -/
def next (s : State n) (c : Fin n × Bool) : State n where
  mem := (access k c.1 c.2 s.mem (s.task c.1)).2
  task := Function.update s.task c.1 (access k c.1 c.2 s.mem (s.task c.1)).1

theorem next_task_self (s : State n) (c : Fin n × Bool) :
    (next k s c).task c.1 = (access k c.1 c.2 s.mem (s.task c.1)).1 := by
  simp [next]

theorem next_task_of_ne {s : State n} {c : Fin n × Bool} {u : Fin n} (h : u ≠ c.1) :
    (next k s c).task u = s.task u := by
  simp [next, h]

/-! ### Arrivals -/

/-- The task has decremented the count and not returned yet. -/
def Pc.arrived : Pc → Bool
  | .reset _ | .spin _ => true
  | _ => false

/-- The task is in a call of `_barrier_wait`. -/
def Pc.inside : Pc → Bool
  | .readMax | .ll _ | .sc _ _ | .reset _ | .spin _ | .trapped => true
  | .start | .initLl | .initSc | .initStore | .outside => false

/-- How often the task has decremented the count. -/
def Task.arrivals (me : Task) : ℕ := me.rets + me.pc.arrived.toNat

/-! ### What a step can do -/

/-- The steps of task `t`, by what they do to the barrier. -/
inductive Move (t : Fin n) (scOk : Bool) (s s' : State n) : Prop where
  /-- the task goes on, the barrier does not change -/
  | goesOn (pc : (s'.task t).pc = (s.task t).pc ∨
        ((s.task t).pc.arrived = false ∧ (s'.task t).pc.arrived = false ∧
          (s.task t).pc ≠ .initStore ∧ (s'.task t).pc ≠ .initStore))
      (rets : (s'.task t).rets = (s.task t).rets) (val : s'.mem.val = s.mem.val)
  /-- the task arrives: its decrement succeeds -/
  | arrives (maxcount count : Word) (pc : (s.task t).pc = .sc maxcount count)
      (ok : s.mem.scSucceeds t k.pcount scOk = true)
      (pc' : (s'.task t).pc = if count = 1 then .reset maxcount else .spin maxcount)
      (rets : (s'.task t).rets = (s.task t).rets) (mem : s'.mem = s.mem.store k.pcount (count - 1))
  /-- the last task writes the count back and returns -/
  | releases (maxcount : Word) (pc : (s.task t).pc = .reset maxcount) (pc' : (s'.task t).pc = .outside)
      (rets : (s'.task t).rets = (s.task t).rets + 1) (mem : s'.mem = s.mem.store k.pcount maxcount)
  /-- a waiting task sees the count written back and returns -/
  | leaves (maxcount : Word) (pc : (s.task t).pc = .spin maxcount) (pc' : (s'.task t).pc = .outside)
      (rets : (s'.task t).rets = (s.task t).rets + 1) (val : s.mem.val k.pcount = maxcount) (mem : s'.mem = s.mem)
  /-- the task is the one that initialises -/
  | claims (pc : (s.task t).pc = .initSc) (ok : s.mem.scSucceeds t k.pinit scOk = true)
      (pc' : (s'.task t).pc = .initStore) (rets : (s'.task t).rets = (s.task t).rets)
      (mem : s'.mem = s.mem.store k.pinit k.value)
  /-- the task that initialises writes the count -/
  | fills (pc : (s.task t).pc = .initStore) (pc' : (s'.task t).pc = .outside)
      (rets : (s'.task t).rets = (s.task t).rets) (mem : s'.mem = s.mem.store k.pcount k.value)

variable {k}

/-- **What a step can do.** -/
theorem move_next (hk : k.index < maxBarrierCount) (s : State n) (c : Fin n × Bool) :
    Move k c.1 c.2 s (next k s c) := by
  obtain ⟨t, scOk⟩ := c
  have hk' : ¬ k.index ≥ maxBarrierCount := by omega
  have ht : (next k s (t, scOk)).task t = (access k t scOk s.mem (s.task t)).1 := next_task_self k s (t, scOk)
  have hm : (next k s (t, scOk)).mem = (access k t scOk s.mem (s.task t)).2 := rfl
  unfold access at ht hm
  cases hp : (s.task t).pc <;> simp only [hp, hk', ↓reduceIte] at ht hm
  case start => exact .goesOn (.inr (by rw [ht, hp]; simp [Pc.arrived])) (by rw [ht]) (by rw [hm])
  case initLl =>
    refine .goesOn (.inr ?_) ?_ ?_
    · rw [ht, hp]; split_ifs <;> simp [Pc.arrived]
    · rw [ht]; split_ifs <;> rfl
    · rw [hm]; split_ifs <;> rfl
  case initSc =>
    cases hs : s.mem.scSucceeds t k.pinit scOk with
    | true =>
      simp only [hs, ↓reduceIte] at ht hm
      exact .claims hp hs (by rw [ht]) (by rw [ht]) (by rw [hm, Mem.sc_of_succeeds _ hs])
    | false =>
      simp only [hs, Bool.false_eq_true, ↓reduceIte] at ht hm
      exact .goesOn (.inr (by rw [ht, hp]; simp [Pc.arrived])) (by rw [ht]) (by rw [hm, Mem.sc_val_of_fails _ hs])
  case initStore => exact .fills hp (by rw [ht]) (by rw [ht]) hm
  case outside => exact .goesOn (.inr (by rw [ht, hp]; simp [Pc.arrived])) (by rw [ht]) (by rw [hm])
  case readMax => exact .goesOn (.inr (by rw [ht, hp]; simp [Pc.arrived])) (by rw [ht]) (by rw [hm])
  case ll maxcount =>
    refine .goesOn (.inr ?_) ?_ ?_
    · rw [ht, hp]; split_ifs <;> simp [Pc.arrived]
    · rw [ht]; split_ifs <;> rfl
    · rw [hm]; split_ifs <;> rfl
  case sc maxcount count =>
    cases hs : s.mem.scSucceeds t k.pcount scOk with
    | true =>
      simp only [hs, ↓reduceIte] at ht hm
      exact .arrives maxcount count hp hs (by rw [ht]) (by rw [ht]) (by rw [hm, Mem.sc_of_succeeds _ hs])
    | false =>
      simp only [hs, Bool.false_eq_true, ↓reduceIte] at ht hm
      exact .goesOn (.inr (by rw [ht, hp]; simp [Pc.arrived])) (by rw [ht]) (by rw [hm, Mem.sc_val_of_fails _ hs])
  case reset maxcount => exact .releases maxcount hp (by rw [ht]; rfl) (by rw [ht]; rfl) hm
  case spin maxcount =>
    by_cases hv : s.mem.val k.pcount = maxcount
    · simp only [hv, ne_eq, not_true_eq_false, ↓reduceIte] at ht hm
      exact .leaves maxcount hp (by rw [ht]; rfl) (by rw [ht]; rfl) hv hm
    · simp only [hv, ne_eq, not_false_eq_true, ↓reduceIte] at ht hm
      exact .goesOn (.inl (by rw [ht])) (by rw [ht]) (by rw [hm])
  case trapped => exact .goesOn (.inl (by rw [ht])) (by rw [ht]) (by rw [hm])

end Barrier
end Giet
end Smc
