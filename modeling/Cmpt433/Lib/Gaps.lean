import Mathlib

/-!
# The gaps between the elements of a list

* `gapsFrom` — from each element to the next, the first from a given one.
* `gaps` — the first element has the gap 0.
* `gaps_append` — where a list is cut, the gaps are those of the two parts, the second one counted
  from the end of the first.
* `sum_gapsFrom`, `sum_gaps` — the gaps add up to the whole way.
* `gapsFrom_pos` — in a strictly sorted list every gap is positive.
-/

set_option autoImplicit false

namespace Gaps

section

variable {α : Type} [AddCommGroup α]

def gapsFrom (prev : α) : List α → List α
  | [] => []
  | t :: ts => (t - prev) :: gapsFrom t ts

def gaps (ts : List α) : List α := gapsFrom (ts.headD 0) ts

theorem gaps_cons (t : α) (ts : List α) : gaps (t :: ts) = 0 :: gapsFrom t ts := by
  rw [gaps, gapsFrom, List.headD_cons, sub_self]

theorem length_gapsFrom (prev : α) (ts : List α) : (gapsFrom prev ts).length = ts.length := by
  induction ts generalizing prev with
  | nil => rfl
  | cons t ts ih => rw [gapsFrom, List.length_cons, List.length_cons, ih]

theorem gapsFrom_append (prev : α) (xs ys : List α) :
    gapsFrom prev (xs ++ ys) = gapsFrom prev xs ++ gapsFrom (xs.getLastD prev) ys := by
  induction xs generalizing prev with
  | nil => rfl
  | cons x xs ih =>
    rw [List.cons_append, gapsFrom, gapsFrom, List.cons_append, ih, List.getLastD_cons]

theorem sum_gapsFrom (prev : α) (ts : List α) :
    (gapsFrom prev ts).sum = ts.getLastD prev - prev := by
  induction ts generalizing prev with
  | nil => exact (sub_self prev).symm
  | cons t ts ih =>
    rw [gapsFrom, List.sum_cons, ih, List.getLastD_cons]
    abel

/-- **A list cut in two.** -/
theorem gaps_append {xs : List α} (hne : xs ≠ []) (ys : List α) :
    gaps (xs ++ ys) = gaps xs ++ gapsFrom (xs.getLastD 0) ys := by
  cases xs with
  | nil => exact absurd rfl hne
  | cons x xs =>
    rw [gaps, gaps, List.cons_append, List.headD_cons, List.headD_cons, ← List.cons_append,
      gapsFrom_append, List.getLastD_cons, List.getLastD_cons]

/-- **The gaps add up to the time from the first element to the last.** -/
theorem sum_gaps (ts : List α) : (gaps ts).sum = ts.getLastD 0 - ts.headD 0 := by
  cases ts with
  | nil => exact (sub_self 0).symm
  | cons t ts =>
    rw [gaps, sum_gapsFrom, List.headD_cons, List.getLastD_cons, List.getLastD_cons]

end

section

variable {α : Type} [AddCommGroup α] [LinearOrder α] [IsOrderedAddMonoid α]

theorem gapsFrom_pos {prev : α} {ts : List α} (h : (prev :: ts).Pairwise (· < ·)) :
    ∀ g ∈ gapsFrom prev ts, 0 < g := by
  induction ts generalizing prev with
  | nil =>
    intro g hg
    cases hg
  | cons t ts ih =>
    obtain ⟨hprev, hts⟩ := List.pairwise_cons.mp h
    intro g hg
    rcases List.mem_cons.mp hg with rfl | hg
    · exact sub_pos.mpr (hprev t List.mem_cons_self)
    · exact ih hts g hg

end

end Gaps
