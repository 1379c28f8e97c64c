import Mathlib

/-!
# The complete lines of a stream

* `lines` — the pieces of a stream that end with the separator, without it.
* `lines_frames` — pieces that do not contain the separator can be read off again.
* `lines_mono` — a reader who has seen less has the first of the lines.
-/

set_option autoImplicit false

namespace Lines

variable {α β : Type} [DecidableEq α] {sep : α}

def lines (sep : α) : List α → List (List α)
  | [] => []
  | x :: xs => if x = sep then [] :: lines sep xs else (lines sep xs).modifyHead (x :: ·)

@[simp] theorem lines_nil : lines sep [] = [] := rfl

theorem lines_frame {a : List α} (h : sep ∉ a) (rest : List α) :
    lines sep (a ++ sep :: rest) = a :: lines sep rest := by
  induction a with
  | nil => exact if_pos rfl
  | cons x a ih =>
    obtain ⟨hx, ha⟩ := List.ne_and_not_mem_of_not_mem_cons h
    rw [List.cons_append, lines, if_neg (Ne.symm hx), ih ha]
    rfl

/-- **What is put in frames is read off again.** -/
theorem lines_frames {text : β → List α} (h : ∀ b, sep ∉ text b) (bs : List β) :
    lines sep (bs.flatMap fun b => text b ++ [sep]) = bs.map text := by
  induction bs with
  | nil => rfl
  | cons b bs ih =>
    rw [List.flatMap_cons, List.append_assoc, List.singleton_append, lines_frame (h b), ih]
    rfl

theorem lines_append (xs ys : List α) : lines sep xs <+: lines sep (xs ++ ys) := by
  induction xs with
  | nil => exact List.nil_prefix
  | cons x xs ih =>
    obtain ⟨rest, hrest⟩ := ih
    rw [List.cons_append, lines, lines, ← hrest]
    split
    · exact ⟨rest, rfl⟩
    · cases lines sep xs with
      | nil => exact List.nil_prefix
      | cons line ls => exact ⟨rest, rfl⟩

theorem lines_mono {xs ys : List α} (h : xs <+: ys) : lines sep xs <+: lines sep ys := by
  obtain ⟨zs, rfl⟩ := h
  exact lines_append xs zs

end Lines
