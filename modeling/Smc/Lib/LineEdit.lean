/-
# Editing a line

A line is edited by one character after the other: some append themselves,
some erase the last one, which has no effect on an empty line, and the others
are ignored. `edited` is the line after a sequence of them.

An editor echoes to a screen line, with a cursor that a backspace moves to the
left. `Shows` says what a line shows from some column on: a text up to the
cursor, and blanks from there. Printing a character appends it to the text
(`Shows.print`), and backspace, blank, backspace erases the last character
(`Shows.erase`).

Key definitions: `edit`, `edited`, `Screen`, `Shows`.
-/
import Mathlib.Tactic

namespace Smc
namespace LineEdit

variable {α : Type*}

/-! ### The line -/

section Edit

variable (erases keeps : α → Bool)

/-- One character of the input. -/
def edit (line : List α) (c : α) : List α :=
  if erases c then line.dropLast else if keeps c then line ++ [c] else line

/-- The line after a sequence of characters. -/
def edited (input : List α) : List α := input.foldl (edit erases keeps) []

theorem edited_concat (input : List α) (c : α) :
    edited erases keeps (input ++ [c]) = edit erases keeps (edited erases keeps input) c := by
  simp [edited]

/-- The characters of a line are those that are kept. -/
theorem keeps_of_mem_edited {input : List α} {c : α} (h : c ∈ edited erases keeps input) : keeps c = true := by
  induction input using List.reverseRecOn with
  | nil => cases h
  | append_singleton input x ih =>
    rw [edited_concat] at h
    unfold edit at h
    split_ifs at h with he hk
    · exact ih (List.mem_of_mem_dropLast h)
    · rcases List.mem_append.mp h with h | h
      · exact ih h
      · rw [List.mem_singleton.mp h]
        exact hk
    · exact ih h

end Edit

/-! ### The first bytes of a buffer -/

section Buffer

/-- The line held in the first `n` places of a buffer. -/
def held (buf : ℕ → α) (n : ℕ) : List α := (List.range n).map buf

@[simp] theorem length_held (buf : ℕ → α) (n : ℕ) : (held buf n).length = n := by
  simp [held]

theorem held_update_of_le (buf : ℕ → α) {n k : ℕ} (c : α) (h : n ≤ k) :
    held (Function.update buf k c) n = held buf n := by
  apply List.map_congr_left
  intro j hj
  have := List.mem_range.mp hj
  exact Function.update_of_ne (by omega) _ _

/-- A character stored behind the line is appended to it. -/
theorem held_store (buf : ℕ → α) (n : ℕ) (c : α) : held (Function.update buf n c) (n + 1) = held buf n ++ [c] := by
  have hn := held_update_of_le buf c (le_refl n)
  unfold held at hn ⊢
  rw [List.range_succ, List.map_append, hn, List.map_singleton, Function.update_self]

/-- A line and its last character. -/
theorem held_eq_concat (buf : ℕ → α) {n : ℕ} (h : 0 < n) : held buf n = held buf (n - 1) ++ [buf (n - 1)] := by
  obtain ⟨m, rfl⟩ : ∃ m, n = m + 1 := ⟨n - 1, by omega⟩
  unfold held
  rw [List.range_succ, List.map_append, List.map_singleton, Nat.add_sub_cancel]

theorem held_pred (buf : ℕ → α) {n : ℕ} (h : 0 < n) : held buf (n - 1) = (held buf n).dropLast := by
  rw [held_eq_concat buf h, List.dropLast_concat]

end Buffer

/-! ### The screen -/

/-- A line of a screen, and the column of its cursor. -/
structure Screen (α : Type*) where
  cells : ℕ → α
  cursor : ℕ

section Screen

variable (isBack : α → Bool)

/-- A character is sent to the screen. -/
def display (s : Screen α) (c : α) : Screen α :=
  if isBack c then { s with cursor := s.cursor - 1 }
  else ⟨Function.update s.cells s.cursor c, s.cursor + 1⟩

/-- From column `p` on the line shows a text, with the cursor behind it and
nothing from there. -/
structure Shows (blank : α) (p : ℕ) (text : List α) (s : Screen α) : Prop where
  cursor : s.cursor = p + text.length
  text : ∀ j < text.length, text[j]? = some (s.cells (p + j))
  blank : ∀ j, s.cursor ≤ j → s.cells j = blank

variable {isBack} {blank : α} {p : ℕ} {text : List α} {s : Screen α}

theorem Shows.print (h : Shows blank p text s) {c : α} (hc : isBack c = false) :
    Shows blank p (text ++ [c]) (display isBack s c) := by
  have hd : display isBack s c = ⟨Function.update s.cells s.cursor c, s.cursor + 1⟩ := by
    rw [display, hc]
    rfl
  rw [hd]
  refine ⟨?_, fun j hj => ?_, fun j hj => ?_⟩
  · simp [h.cursor, Nat.add_assoc]
  · show (text ++ [c])[j]? = some (Function.update s.cells s.cursor c (p + j))
    rw [List.length_append, List.length_singleton] at hj
    by_cases hlast : j = text.length
    · rw [hlast, ← h.cursor, Function.update_self, List.getElem?_concat_length]
    · have hlt : j < text.length := by omega
      have hne : p + j ≠ s.cursor := by
        rw [h.cursor]
        omega
      rw [Function.update_of_ne hne, List.getElem?_append_left hlt]
      exact h.text j hlt
  · show Function.update s.cells s.cursor c j = blank
    have hj' : s.cursor + 1 ≤ j := hj
    rw [Function.update_of_ne (by omega)]
    exact h.blank j (by omega)

/-- Backspace, blank, backspace. -/
theorem Shows.erase {c back : α} (h : Shows blank p (text ++ [c]) s) (hback : isBack back = true)
    (hblank : isBack blank = false) : Shows blank p text ([back, blank, back].foldl (display isBack) s) := by
  have hcur : s.cursor = p + text.length + 1 := by
    rw [h.cursor, List.length_append, List.length_singleton, Nat.add_assoc]
  have hd : [back, blank, back].foldl (display isBack) s =
      ⟨Function.update s.cells (p + text.length) blank, p + text.length⟩ := by
    simp [display, hback, hblank, hcur]
  rw [hd]
  refine ⟨rfl, fun j hj => ?_, fun j hj => ?_⟩
  · show text[j]? = some (Function.update s.cells (p + text.length) blank (p + j))
    have hlt : j < (text ++ [c]).length := by
      rw [List.length_append]
      omega
    have htext := h.text j hlt
    rw [List.getElem?_append_left hj] at htext
    rw [Function.update_of_ne (by omega), htext]
  · show Function.update s.cells (p + text.length) blank j = blank
    have hj' : p + text.length ≤ j := hj
    by_cases he : j = p + text.length
    · rw [he, Function.update_self]
    · rw [Function.update_of_ne he]
      exact h.blank j (by omega)

/-- Erasing as often as there are characters leaves nothing. -/
theorem Shows.eraseAll {back : α} (hback : isBack back = true) (hblank : isBack blank = false) :
    ∀ {text : List α} {s : Screen α}, Shows blank p text s →
      Shows blank p [] ((List.replicate text.length [back, blank, back]).flatten.foldl (display isBack) s) := by
  intro text
  induction text using List.reverseRecOn with
  | nil => exact fun h => h
  | append_singleton text c ih =>
    intro s h
    rw [List.length_append, List.length_singleton, List.replicate_succ, List.flatten_cons, List.foldl_append]
    exact ih (h.erase hback hblank)

end Screen

end LineEdit
end Smc
