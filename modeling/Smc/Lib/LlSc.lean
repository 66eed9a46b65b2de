/-
# A shared memory with load-linked and store-conditional

Tasks share a memory of words. `ll` reads a word and links the task to it;
every write to the word, by a plain store or by a store-conditional that
succeeds, cuts the links to it; `sc` succeeds only if the task is still
linked, and may fail even then (`scOk` is what the machine decides). So while
a task is linked to a word, the word is what its `ll` has read
(`Linked.of_ll`, `Linked.of_store`, `Linked.of_sc`).

Key definitions: `Mem.ll`, `Mem.store`, `Mem.sc`, `Mem.Linked`.
-/
import Mathlib.Tactic

namespace Smc

/-- The words, and the word each task is linked to. -/
structure Mem (A T V : Type*) where
  val : A → V
  link : T → Option A

namespace Mem

variable {A T V : Type*} (m : Mem A T V)

section Accesses

variable [DecidableEq A] [DecidableEq T]

/-- The memory after task `t` has read `a` with `ll`. -/
def ll (t : T) (a : A) : Mem A T V := { m with link := Function.update m.link t (some a) }

/-- The memory after a plain store. -/
def store (a : A) (v : V) : Mem A T V where
  val := Function.update m.val a v
  link u := if m.link u = some a then none else m.link u

/-- The store-conditional of task `t` to `a` succeeds. -/
def scSucceeds (t : T) (a : A) (scOk : Bool) : Bool := scOk && decide (m.link t = some a)

/-- The memory after a store-conditional. -/
def sc (t : T) (a : A) (v : V) (scOk : Bool) : Mem A T V :=
  if m.scSucceeds t a scOk then m.store a v else { m with link := Function.update m.link t none }

end Accesses

/-- Task `t`, if it is still linked to `a`, knows its word to be `v`. -/
def Linked (t : T) (a : A) (v : V) : Prop := m.link t = some a → m.val a = v

section Words

variable {m} [DecidableEq A]

@[simp] theorem store_val_self (a : A) (v : V) : (m.store a v).val a = v := by simp [store]

theorem store_val_of_ne {a b : A} (v : V) (h : b ≠ a) : (m.store a v).val b = m.val b := by simp [store, h]

/-- A store-conditional that succeeds finds the word its task has read. -/
theorem Linked.val_of_succeeds {t : T} {a : A} {v : V} {scOk : Bool} (h : m.Linked t a v)
    (hs : m.scSucceeds t a scOk = true) : m.val a = v := by
  apply h
  simp only [scSucceeds, Bool.and_eq_true, decide_eq_true_eq] at hs
  exact hs.2

theorem Linked.of_store {t : T} {a b : A} {v w : V} (h : m.Linked t a v) : (m.store b w).Linked t a v := by
  intro hl
  simp only [store] at hl
  split_ifs at hl with hb
  have hab : a ≠ b := fun e => hb (e ▸ hl)
  rw [store_val_of_ne w hab]
  exact h hl

variable [DecidableEq T]

theorem sc_of_succeeds {t : T} {a : A} {scOk : Bool} (v : V) (h : m.scSucceeds t a scOk = true) :
    m.sc t a v scOk = m.store a v := by
  rw [sc, if_pos h]

theorem sc_val_of_fails {t : T} {a : A} {scOk : Bool} (v : V) (h : m.scSucceeds t a scOk = false) :
    (m.sc t a v scOk).val = m.val := by
  rw [sc, h]
  rfl

theorem Linked.of_sc {t u : T} {a b : A} {v w : V} {scOk : Bool} (h : m.Linked t a v) :
    (m.sc u b w scOk).Linked t a v := by
  cases hs : m.scSucceeds u b scOk with
  | true =>
    rw [sc_of_succeeds w hs]
    exact h.of_store
  | false =>
    intro hl
    rw [sc_val_of_fails w hs]
    apply h
    rw [sc, hs] at hl
    by_cases hu : t = u
    · simp [hu] at hl
    · simpa [Function.update_of_ne hu] using hl

end Words

theorem Linked.of_ll [DecidableEq T] {m : Mem A T V} {t u : T} {a b : A} {v : V} (h : m.Linked t a v) (hu : t ≠ u) :
    (m.ll u b).Linked t a v := by
  intro hl
  apply h
  simpa [ll, Function.update_of_ne hu] using hl

end Mem
end Smc
