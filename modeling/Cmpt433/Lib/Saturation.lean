import Mathlib

/-!
# Saturating sums

A sum taken one addition at a time, each result brought back into a range: above the range it
becomes the level `hi`, below it the level `lo`.  The levels lie in the range; they need not be its
ends.

* `satSum_eq_sum` — while no partial sum leaves the range, nothing is lost.
* `satSum_perm` — where the positive terms alone and the negative terms alone stay in the range, no
  order of the terms leaves it, and the order does not matter.
-/

set_option autoImplicit false

namespace Saturation

/-- A range `[bot, top]` around 0 and the levels of what would leave it. -/
structure Levels (α : Type*) [Zero α] [LinearOrder α] where
  bot : α
  lo : α
  hi : α
  top : α
  bot_le : bot ≤ lo
  lo_neg : lo < 0
  hi_pos : 0 < hi
  le_top : hi ≤ top

namespace Levels

variable {α : Type*} [AddCommGroup α] [LinearOrder α] (L : Levels α)

def saturate (x : α) : α := if x > L.top then L.hi else if x < L.bot then L.lo else x

/-- `acc + x₁ + x₂ + …`, saturated after each addition. -/
def satSumFrom (acc : α) (xs : List α) : α := xs.foldl (fun acc x => L.saturate (acc + x)) acc

def satSum (xs : List α) : α := L.satSumFrom 0 xs

variable {L}

theorem saturate_eq_self {x : α} (h : L.bot ≤ x ∧ x ≤ L.top) : L.saturate x = x := by
  rw [saturate, if_neg h.2.not_gt, if_neg h.1.not_gt]

theorem satSumFrom_eq_sum {acc : α} {xs : List α}
    (h : ∀ pre, pre <+: xs → L.bot ≤ acc + pre.sum ∧ acc + pre.sum ≤ L.top) :
    L.satSumFrom acc xs = acc + xs.sum := by
  induction xs generalizing acc with
  | nil => simp [satSumFrom]
  | cons x xs ih =>
    have hx : L.saturate (acc + x) = acc + x := saturate_eq_self (by simpa using h [x] ⟨xs, rfl⟩)
    change L.satSumFrom (L.saturate (acc + x)) xs = _
    rw [hx, ih fun pre hpre => ?_, List.sum_cons, add_assoc]
    simpa [add_assoc] using h (x :: pre) (List.cons_prefix_cons.mpr ⟨rfl, hpre⟩)

/-- While no partial sum leaves the range, the sum is exact. -/
theorem satSum_eq_sum {xs : List α}
    (h : ∀ pre, pre <+: xs → L.bot ≤ pre.sum ∧ pre.sum ≤ L.top) : L.satSum xs = xs.sum := by
  rw [satSum, satSumFrom_eq_sum (by simpa using h), zero_add]

end Levels

/-! ## The order of the terms -/

section

variable {α : Type*} [AddCommGroup α] [LinearOrder α]

/-- The sum of the positive terms. -/
def posSum (xs : List α) : α := (xs.map fun x => max x 0).sum

/-- The sum of the negative terms. -/
def negSum (xs : List α) : α := (xs.map fun x => min x 0).sum

@[simp] theorem posSum_append (xs ys : List α) : posSum (xs ++ ys) = posSum xs + posSum ys := by
  simp [posSum]

@[simp] theorem negSum_append (xs ys : List α) : negSum (xs ++ ys) = negSum xs + negSum ys := by
  simp [negSum]

variable [IsOrderedAddMonoid α]

theorem sum_le_posSum {pre xs : List α} (h : pre <+: xs) : pre.sum ≤ posSum xs := by
  obtain ⟨post, rfl⟩ := h
  have hpre : (pre.map id).sum ≤ posSum pre := List.sum_le_sum fun x _ => le_max_left x 0
  have hpost : 0 ≤ posSum post := List.sum_nonneg (by simp)
  rw [List.map_id] at hpre
  rw [posSum_append]
  exact hpre.trans (le_add_of_nonneg_right hpost)

theorem negSum_le_sum {pre xs : List α} (h : pre <+: xs) : negSum xs ≤ pre.sum := by
  obtain ⟨post, rfl⟩ := h
  have hpre : negSum pre ≤ (pre.map id).sum := List.sum_le_sum fun x _ => min_le_left x 0
  have hpost : negSum post ≤ (post.map fun _ => (0 : α)).sum :=
    List.sum_le_sum fun x _ => min_le_right x 0
  rw [List.map_id] at hpre
  rw [List.sum_map_zero] at hpost
  rw [negSum_append]
  exact (add_le_of_nonpos_right hpost).trans hpre

/-- **Order independence**: where neither sign alone leaves the range, no order of the terms does,
and the sum is exact in every order. -/
theorem Levels.satSum_perm {L : Levels α} {xs ys : List α} (h : ys.Perm xs)
    (hneg : L.bot ≤ negSum xs) (hpos : posSum xs ≤ L.top) : L.satSum ys = xs.sum := by
  have hneg' : negSum ys = negSum xs := (h.map _).sum_eq
  have hpos' : posSum ys = posSum xs := (h.map _).sum_eq
  rw [← h.sum_eq]
  refine Levels.satSum_eq_sum fun pre hpre => ⟨?_, ?_⟩
  · exact hneg.trans (hneg'.symm.trans_le (negSum_le_sum hpre))
  · exact (sum_le_posSum hpre).trans (hpos'.trans_le hpos)

end

end Saturation
