import Cmpt433.Lib.CheckedArray

/-!
# Ring buffers

A ring buffer is an array `xs` and the index `r` of the next write, which wraps around.  Its
elements from `r` on, all the way around, are `xs.rotate r`: the oldest one first.

* `rotate_set` — a write drops the oldest element and appends the new one.
* `read_around` — an offset from the write index, taken modulo the length.
* `assign_around` — a loop over offsets collects a window of the ring, unrolled twice.
* `tail_append_eq_iff`, `dropLast_eq_tail_iff` — when a list moved up by one looks the same.
-/

set_option autoImplicit false

namespace Ring

open CheckedArray

variable {V : Type} {xs : List V} {r : Nat}

theorem rotate_set (hr : r < xs.length) (v : V) :
    (xs.set r v).rotate (r + 1) = (xs.rotate r).tail ++ [v] := by
  have hdrop : xs.drop r = xs[r] :: xs.drop (r + 1) := List.drop_eq_getElem_cons hr
  rw [List.rotate_eq_drop_append_take (by simpa using hr),
    List.rotate_eq_drop_append_take hr.le, List.drop_set_of_lt (Nat.lt_succ_self r), hdrop,
    List.cons_append, List.tail_cons, List.append_assoc]
  congr 1
  rw [List.take_add_one, List.take_set_of_le le_rfl, List.getElem?_set_self hr]
  rfl

/-- Reading at an offset below twice the length. -/
theorem read_around {j : Int} (h0 : 0 ≤ j) (hj : j < 2 * xs.length) :
    read xs ((r + j).tmod xs.length) = (xs.rotate r ++ xs.rotate r)[j.toNat]? := by
  obtain ⟨n, rfl⟩ := Int.eq_ofNat_of_zero_le h0
  have hmod : ((r : Int) + n).tmod xs.length = ((r + n) % xs.length : Nat) := by
    rw [Int.tmod_eq_emod_of_nonneg (by omega)]
    norm_cast
  rw [hmod, CheckedArray.read, if_pos (by omega), Int.toNat_natCast, Int.toNat_natCast]
  by_cases hn : n < xs.length
  · rw [List.getElem?_append_left (by simpa using hn), List.getElem?_rotate hn, Nat.add_comm n]
  · have hlast : n - xs.length < xs.length := by omega
    rw [List.getElem?_append_right (by simp; omega), List.length_rotate,
      List.getElem?_rotate hlast, ← Nat.add_mod_right (n - xs.length + r)]
    congr 2
    omega

/-- `n` elements from the offset `j` on. -/
theorem assign_around {j : Int} {n : Nat} {dst : List V} (hdst : dst.length = n) (h0 : 0 ≤ j)
    (hj : j + n ≤ 2 * xs.length) :
    assign (fun i => read xs ((r + j + i).tmod xs.length)) n 0 dst =
      some (((xs.rotate r ++ xs.rotate r).drop j.toNat).take n) := by
  set twice := xs.rotate r ++ xs.rotate r with htwice
  have hlen : twice.length = 2 * xs.length := by simp [htwice]; omega
  have hwin : ((twice.drop j.toNat).take n).length = n := by simp [hlen]; omega
  have hassign := @assign_list V (fun i => read xs ((r + j + i).tmod xs.length))
    ((twice.drop j.toNat).take n) 0 dst fun t ht => by
      rw [hwin] at ht
      simp only [Int.add_assoc]
      rw [read_around (by omega) (by omega), ← htwice, List.getElem?_take_of_lt ht,
        List.getElem?_drop]
      congr 1
      omega
  rw [hwin] at hassign
  refine (hassign (by omega)).trans ?_
  simp [hdst]

/-- A window that starts in the first copy. -/
theorem window {k n : Nat} (hk : k ≤ xs.length) :
    ((xs ++ xs).drop k).take n = (xs.drop k).take n ++ xs.take (n - (xs.length - k)) := by
  rw [List.drop_append_of_le_length hk, List.take_append, List.length_drop]

/-- Moving up by one changes nothing only where every element is the one that comes in. -/
theorem tail_append_eq_iff {x : V} : (xs ++ [x]).tail = xs ↔ ∀ v ∈ xs, v = x := by
  induction xs with
  | nil => simp
  | cons y ys ih =>
    rw [List.cons_append, List.tail_cons, List.forall_mem_cons, ← ih]
    constructor
    · intro h
      -- the elements after `y` move up as well, and the first of them is `y`
      have htail : (ys ++ [x]).tail = ys := by rw [h, List.tail_cons]
      refine ⟨?_, htail⟩
      cases ys with
      | nil => exact (List.cons_eq_cons.mp h).1.symm
      | cons z zs =>
        obtain ⟨rfl, -⟩ := List.cons_eq_cons.mp (show z :: (zs ++ [x]) = y :: z :: zs from h)
        exact ih.mp htail z List.mem_cons_self
    · rintro ⟨rfl, htail⟩
      cases ys with
      | nil => rfl
      | cons z zs =>
        obtain rfl := ih.mp htail z List.mem_cons_self
        exact congrArg (z :: ·) htail

/-- What a rotation leaves unchanged does not depend on where the ring starts. -/
theorem rotate_rotate_eq_iff {s : Nat} :
    (xs.rotate r).rotate s = xs.rotate r ↔ xs.rotate s = xs := by
  rw [List.rotate_rotate, Nat.add_comm, ← List.rotate_rotate]
  exact (List.rotate_injective r).eq_iff

/-- Two arrangements of the same elements that agree but for the last one are the same. -/
theorem dropLast_eq_tail_iff {ys : List V} (h : xs.Perm ys) :
    xs.dropLast = ys.tail ↔ xs = ys.rotate 1 := by
  cases ys with
  | nil => simp [h.eq_nil]
  | cons y ys =>
    have hne : xs ≠ [] := by
      rintro rfl
      exact absurd h.length_eq (by simp)
    rw [List.tail_cons, List.rotate_cons_succ, List.rotate_zero]
    constructor
    · intro heq
      obtain ⟨z, hz⟩ : ∃ z, xs = ys ++ [z] :=
        ⟨xs.getLast hne, by rw [← heq, List.dropLast_append_getLast hne]⟩
      -- `xs` has the same elements as `y :: ys`, so the one left over is `y`
      have hrest : ([z] ++ ys).Perm ([y] ++ ys) :=
        (List.perm_append_singleton z ys).symm.trans (hz ▸ h)
      rw [hz, List.singleton_perm_singleton.mp ((List.perm_append_right_iff ys).mp hrest)]
    · rintro rfl
      exact List.dropLast_concat

end Ring
