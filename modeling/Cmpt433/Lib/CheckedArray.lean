import Mathlib

/-!
# Arrays with checked access

An array is the list of its elements; an index is an integer.  `read` and `write` are `none`
outside the array, so a program that only yields `some` has stayed inside all its arrays.

`assign n i val dst` is the loop `for (; i < i + n; i++) dst[i] = val(i)`.  It yields an array
exactly when each `val i` is defined and each `i` is inside `dst` (`assign_isSome_iff`).
-/

set_option autoImplicit false

namespace CheckedArray

variable {V : Type}

/-- `xs[i]` -/
def read (xs : List V) (i : Int) : Option V := if 0 ≤ i then xs[i.toNat]? else none

/-- `xs[i] = v` -/
def write (xs : List V) (i : Int) (v : V) : Option (List V) :=
  if 0 ≤ i ∧ i < xs.length then some (xs.set i.toNat v) else none

@[simp] theorem read_natCast (xs : List V) (n : Nat) : read xs n = xs[n]? := by simp [read]

theorem read_isSome_iff {xs : List V} {i : Int} :
    (read xs i).isSome = true ↔ 0 ≤ i ∧ i < xs.length := by
  unfold read
  split
  · rw [isSome_getElem?]
    omega
  · simp; omega

theorem read_inside {xs : List V} {i : Int} (h0 : 0 ≤ i) (hi : i < xs.length) :
    ∃ v, read xs i = some v := Option.isSome_iff_exists.mp (read_isSome_iff.mpr ⟨h0, hi⟩)

theorem write_inside {xs : List V} {i : Int} (v : V) (h0 : 0 ≤ i) (hi : i < xs.length) :
    write xs i v = some (xs.set i.toNat v) := if_pos ⟨h0, hi⟩

theorem write_outside {xs : List V} {i : Int} (v : V) (h : ¬ (0 ≤ i ∧ i < xs.length)) :
    write xs i v = none := if_neg h

theorem read_set {xs : List V} {i j : Int} {v : V} (h0 : 0 ≤ i) (hi : i < xs.length) :
    read (xs.set i.toNat v) j = if j = i then some v else read xs j := by
  by_cases hj : j = i
  · subst hj
    rw [if_pos rfl, read, if_pos h0, List.getElem?_set_self (by omega)]
  · rw [if_neg hj, read, read]
    split
    · rw [List.getElem?_set_ne (by omega)]
    · rfl

/-- An array is what can be read from it. -/
theorem read_ext {xs ys : List V} (h : ∀ i, read xs i = read ys i) : xs = ys := by
  refine List.ext_getElem? fun n => ?_
  have hn := h n
  simpa [read] using hn

/-- `n` rounds of `dst[i] = val(i); i++`. -/
def assign (val : Int → Option V) : Nat → Int → List V → Option (List V)
  | 0, _, dst => some dst
  | n + 1, i, dst => do
    let v ← val i
    let dst ← write dst i v
    assign val n (i + 1) dst

theorem assign_length {val : Int → Option V} {n : Nat} {i : Int} {dst r : List V}
    (h : assign val n i dst = some r) : r.length = dst.length := by
  induction n generalizing i dst with
  | zero => cases h; rfl
  | succ n ih =>
    obtain ⟨v, -, h1⟩ := Option.bind_eq_some_iff.mp h
    obtain ⟨dst', hw, h2⟩ := Option.bind_eq_some_iff.mp h1
    rw [ih h2]
    by_cases hin : 0 ≤ i ∧ i < dst.length
    · rw [write_inside v hin.1 hin.2] at hw
      cases hw
      exact List.length_set
    · rw [write_outside v hin] at hw
      cases hw

/-- **When the loop stays inside**: each value is defined and each index is in the array. -/
theorem assign_isSome_iff {val : Int → Option V} {n : Nat} {i : Int} {dst : List V} :
    (assign val n i dst).isSome = true ↔
      ∀ j, i ≤ j → j < i + n → (val j).isSome = true ∧ 0 ≤ j ∧ j < dst.length := by
  induction n generalizing i dst with
  | zero => simp [assign]; omega
  | succ n ih =>
    unfold assign
    constructor
    · intro h j hij hj
      obtain ⟨r, hr⟩ := Option.isSome_iff_exists.mp h
      obtain ⟨v, hv, h1⟩ := Option.bind_eq_some_iff.mp hr
      obtain ⟨dst', hw, h2⟩ := Option.bind_eq_some_iff.mp h1
      by_cases hin : 0 ≤ i ∧ i < dst.length
      · rw [write_inside v hin.1 hin.2] at hw
        cases hw
        rcases eq_or_lt_of_le hij with rfl | hlt
        · exact ⟨by rw [hv]; rfl, hin⟩
        · have := ih.mp (by rw [h2]; rfl) j (by omega) (by push_cast at hj; omega)
          rwa [List.length_set] at this
      · rw [write_outside v hin] at hw
        cases hw
    · intro h
      obtain ⟨hv, h0, hi⟩ := h i le_rfl (by omega)
      obtain ⟨v, hv⟩ := Option.isSome_iff_exists.mp hv
      rw [hv, Option.bind_eq_bind, Option.bind_some, write_inside v h0 hi, Option.bind_eq_bind,
        Option.bind_some]
      refine ih.mpr fun j hij hj => ?_
      rw [List.length_set]
      exact h j (by omega) (by push_cast; omega)

/-- What the loop leaves in the array. -/
theorem assign_read {val : Int → Option V} {n : Nat} {i : Int} {dst r : List V}
    (h : assign val n i dst = some r) (j : Int) :
    read r j = if i ≤ j ∧ j < i + n then val j else read dst j := by
  induction n generalizing i dst with
  | zero =>
    cases h
    rw [if_neg (by omega)]
  | succ n ih =>
    obtain ⟨v, hv, h1⟩ := Option.bind_eq_some_iff.mp h
    obtain ⟨dst', hw, h2⟩ := Option.bind_eq_some_iff.mp h1
    rw [ih h2]
    by_cases hin : 0 ≤ i ∧ i < dst.length
    · rw [write_inside v hin.1 hin.2] at hw
      cases hw
      rw [read_set hin.1 hin.2]
      push_cast
      by_cases hj : j = i
      · rw [if_neg (by omega), if_pos hj, if_pos (by omega), hj, hv]
      · rw [if_neg hj]
        congr 1
        exact propext (by omega)
    · rw [write_outside v hin] at hw
      cases hw

theorem assign_inside {val : Int → Option V} {n : Nat} {i : Int} {dst : List V}
    (h : ∀ j, i ≤ j → j < i + n → (val j).isSome = true ∧ 0 ≤ j ∧ j < dst.length) :
    ∃ r, assign val n i dst = some r ∧ r.length = dst.length := by
  obtain ⟨r, hr⟩ := Option.isSome_iff_exists.mp (assign_isSome_iff.mpr h)
  exact ⟨r, hr, assign_length hr⟩

/-- The loop over the indices of `ys` puts `ys` in the place of that many elements. -/
theorem assign_list {val : Int → Option V} {ys : List V} {i : Nat} {dst : List V}
    (hval : ∀ t : Nat, t < ys.length → val ((i : Int) + t) = ys[t]?)
    (hi : i + ys.length ≤ dst.length) :
    assign val ys.length i dst = some (dst.take i ++ ys ++ dst.drop (i + ys.length)) := by
  induction ys generalizing i dst with
  | nil => simp [assign]
  | cons y ys ih =>
    have hhere : i < dst.length := by simp at hi; omega
    have hfirst := hval 0 (by simp)
    simp only [Int.natCast_zero, Int.add_zero, List.getElem?_cons_zero] at hfirst
    have hrest := @ih (i + 1) (dst.set i y) (fun t ht => by
      have := hval (t + 1) (by simp [ht])
      rw [List.getElem?_cons_succ] at this
      rw [← this]
      congr 1
      push_cast
      omega) (by simp at hi ⊢; omega)
    rw [List.length_cons, assign, hfirst, Option.bind_eq_bind, Option.bind_some,
      write_inside y (by omega) (by omega), Option.bind_eq_bind, Option.bind_some,
      Int.toNat_natCast]
    push_cast at hrest
    rw [hrest, List.take_add_one, List.take_set_of_le le_rfl, List.getElem?_set_self hhere,
      List.drop_set_of_lt (by omega)]
    simp [Nat.add_assoc, Nat.add_comm 1]

/-! ## Stretches of values -/

/-- `val a`, `val (a + 1)`, … up to `b`. -/
def between (val : Int → V) (a b : Int) : List V :=
  (List.range (b - a).toNat).map fun t : Nat => val (a + t)

theorem between_nil {val : Int → V} {a b : Int} (h : b ≤ a) : between val a b = [] := by
  rw [between, Int.toNat_of_nonpos (by omega)]
  rfl

theorem between_cons {val : Int → V} {a b : Int} (h : a < b) :
    between val a b = val a :: between val (a + 1) b := by
  obtain ⟨n, hn⟩ : ∃ n, (b - a).toNat = n + 1 := ⟨(b - a).toNat - 1, by omega⟩
  have hn' : (b - (a + 1)).toNat = n := by omega
  rw [between, between, hn, hn', List.range_succ_eq_map, List.map_cons, List.map_map]
  simp [Function.comp_def, Int.add_assoc, Int.add_comm 1]

theorem between_take (val : Int → V) (a b : Int) (m : Nat) :
    (between val a b).take m = between val a (min b (a + m)) := by
  rw [between, between, ← List.map_take, List.take_range]
  congr 2
  omega

theorem between_drop (val : Int → V) (a b : Int) (m : Nat) :
    (between val a b).drop m = between val (a + m) b := by
  induction m generalizing a with
  | zero => simp
  | succ m ih =>
    by_cases hab : a < b
    · rw [between_cons hab, List.drop_succ_cons, ih]
      congr 1
      push_cast
      omega
    · rw [between_nil (by omega), between_nil (by push_cast; omega), List.drop_nil]

theorem read_between {val : Int → V} {n i : Int} :
    read (between val 0 n) i = if 0 ≤ i ∧ i < n then some (val i) else none := by
  unfold read between
  by_cases h0 : 0 ≤ i
  · rw [if_pos h0, List.getElem?_map]
    by_cases hn : i < n
    · rw [List.getElem?_range (by omega), if_pos ⟨h0, hn⟩]
      simp [h0]
    · rw [List.getElem?_eq_none (by simp; omega), if_neg (by omega)]
      rfl
  · rw [if_neg h0, if_neg (by omega)]

/-- The loop over a whole array leaves its values. -/
theorem assign_whole {val : Int → Option V} {w : Int → V} {n : Nat} {dst : List V}
    (hlen : dst.length = n) (h : ∀ i : Int, 0 ≤ i → i < n → val i = some (w i)) :
    assign val n 0 dst = some (between w 0 n) := by
  obtain ⟨r, hr, hrlen⟩ := @assign_inside V val n 0 dst fun j h0 hj =>
    ⟨by rw [h j h0 (by omega)]; rfl, h0, by omega⟩
  rw [hr]
  congr 1
  refine read_ext fun i => ?_
  rw [assign_read hr, read_between]
  by_cases hi : 0 ≤ i ∧ i < n
  · rw [if_pos (by omega), if_pos hi, h i hi.1 hi.2]
  · rw [if_neg (by omega), if_neg hi, read]
    split
    · exact List.getElem?_eq_none (by omega)
    · rfl

/-- The first `n` elements. -/
theorem take_eq_between {xs : List V} {w : Int → V} {n : Nat} (hn : n ≤ xs.length)
    (h : ∀ i : Int, 0 ≤ i → i < n → read xs i = some (w i)) : xs.take n = between w 0 n := by
  refine read_ext fun i => ?_
  rw [read_between]
  by_cases hi : 0 ≤ i ∧ i < n
  · rw [if_pos hi, ← h i hi.1 hi.2, read, read, if_pos hi.1, if_pos hi.1,
      List.getElem?_take_of_lt (by omega)]
  · rw [if_neg hi, read]
    split
    · exact List.getElem?_eq_none (by rw [List.length_take]; omega)
    · rfl

/-! ## Indices that wrap around -/

/-- A remainder of a nonnegative number by a positive one is an index. -/
theorem tmod_inside {a n : Int} (ha : 0 ≤ a) (hn : 0 < n) : 0 ≤ a.tmod n ∧ a.tmod n < n :=
  ⟨Int.tmod_nonneg n ha, Int.tmod_lt_of_pos a hn⟩

theorem tmod_le {a n : Int} (ha : 0 ≤ a) (hn : 0 < n) : a.tmod n ≤ a := by
  have hdiv := Int.tdiv_nonneg ha hn.le
  have hmul := Int.mul_nonneg hn.le hdiv
  have := Int.mul_tdiv_add_tmod a n
  omega

end CheckedArray
