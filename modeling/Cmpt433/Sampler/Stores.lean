import Cmpt433.Lib.Ring
import Cmpt433.Sampler.History

/-!
# Samples stored into an empty history (`work/as2/sampler.c`)

`History.ring` is the array from the write index on, all the way around, so that the oldest element
comes first.  A store drops its first element and appends the sample (`store_ring`).

* `Filled` — everything that `k` stores into an empty array of `A` elements leave there.
* `numSamples_eq_fill_iff` — `historyCount` is the fill level up to the first store into the full
  array; from then on it goes down and up again with every store.
* `get_N_newest_iff` — `Sampler_get_N` reads one slot too far, and when this does not show.
-/

set_option autoImplicit false

namespace Sampler

open CheckedArray Ring

variable {V : Type}

def Sampler_getNumSamplesInHistory (h : History V) : Int := h.historyCount

def History.ring (h : History V) : List V := h.recent.rotate h.recentIndex.toNat

/-- The stores of `vs`, one after the other. -/
def stores : List V → History V → Option (History V)
  | [], h => some h
  | v :: vs, h => (store v h).bind (stores vs)

theorem stores_append (xs ys : List V) (h : History V) :
    stores (xs ++ ys) h = (stores xs h).bind (stores ys) := by
  induction xs generalizing h with
  | nil => rfl
  | cons x xs ih =>
    rw [List.cons_append, stores, stores, Option.bind_assoc]
    congr 1
    funext h'
    exact ih h'

theorem stores_concat {vs : List V} {v : V} {h h' : History V} (hs : stores vs h = some h') :
    stores (vs ++ [v]) h = store v h' := by
  rw [stores_append, hs, Option.bind_some, stores]
  cases store v h' <;> rfl

section

variable {h h' : History V}

theorem ring_length (wf : WellFormed h) : (h.ring.length : Int) = h.arraySize := by
  rw [History.ring, List.length_rotate]
  exact wf.length

/-- What a store does to the index, the count and the ring. -/
theorem store_spec (wf : WellFormed h) {v : V} (hs : store v h = some h') :
    WellFormed h' ∧ h'.arraySize = h.arraySize ∧
      h'.recentIndex = (h.recentIndex + 1).tmod h.arraySize ∧
      h'.historyCount =
        (if h.historyCount < h.arraySize then h.historyCount + 1 else h.arraySize - 1) ∧
      h'.ring = h.ring.tail ++ [v] := by
  obtain ⟨h'', hs', wf'⟩ := store_wellFormed wf v
  obtain rfl : h'' = h' := Option.some.inj (hs'.symm.trans hs)
  obtain ⟨hsize, h0, hlt, hrecent⟩ := store_recent hs
  obtain ⟨recent, hw, hret⟩ := Option.bind_eq_some_iff.mp hs
  cases hret
  refine ⟨wf', rfl, rfl, rfl, ?_⟩
  have hwrap : ((h.recentIndex + 1).tmod h.arraySize).toNat =
      (h.recentIndex.toNat + 1) % h.recent.length := by
    obtain ⟨r, hr⟩ := Int.eq_ofNat_of_zero_le h0
    rw [← wf.length, hr, Int.toNat_natCast]
    norm_cast
  unfold History.ring
  dsimp only at hrecent ⊢
  rw [hrecent, hwrap, ← @List.length_set V h.recent h.recentIndex.toNat v,
    List.rotate_mod, rotate_set (by omega)]

theorem stores_spec (wf : WellFormed h) (vs : List V) :
    ∃ h', stores vs h = some h' ∧ WellFormed h' ∧ h'.arraySize = h.arraySize ∧
      h'.ring = (h.ring ++ vs).drop vs.length := by
  induction vs generalizing h with
  | nil => exact ⟨h, rfl, wf, rfl, by simp⟩
  | cons v vs ih =>
    obtain ⟨h1, hs, -⟩ := store_wellFormed wf v
    obtain ⟨wf1, hsize1, -, -, hring1⟩ := store_spec wf hs
    obtain ⟨h2, hs2, wf2, hsize2, hring2⟩ := ih wf1
    refine ⟨h2, by rw [stores, hs]; exact hs2, wf2, hsize2.trans hsize1, ?_⟩
    have hne : h.ring ≠ [] := by
      intro hnil
      have hlen := ring_length wf
      have hpos := wf.size_pos
      rw [hnil] at hlen
      simp at hlen
      omega
    obtain ⟨x, xs, hx⟩ := List.exists_cons_of_ne_nil hne
    rw [hring2, hring1, hx]
    simp

end

/-! ## What `k` stores leave -/

/-- `historyCount` after `k` stores into an empty array of `A` elements. -/
def countAfter (A k : Nat) : Nat := if k ≤ A then k else if (k - A) % 2 = 1 then A - 1 else A

theorem countAfter_succ {A : Nat} (hA : 1 ≤ A) (k : Nat) :
    countAfter A (k + 1) = if countAfter A k < A then countAfter A k + 1 else A - 1 := by
  simp only [countAfter]
  split_ifs <;> omega

/-- The array after the stores of `vs`, the oldest element first. -/
def ringAfter [Zero V] (A : Nat) (vs : List V) : List V :=
  (List.replicate A 0 ++ vs).drop vs.length

structure Filled [Zero V] (A : Nat) (vs : List V) (h : History V) : Prop where
  wellFormed : WellFormed h
  size : h.arraySize = A
  index : h.recentIndex = (vs.length % A : Nat)
  count : h.historyCount = countAfter A vs.length
  ring : h.ring = ringAfter A vs

section

variable [Zero V] {A : Nat} (hA : 1 ≤ A)
include hA

theorem filled_init : Filled A [] (init A : History V) := by
  have hzero : ¬ A = 0 := by omega
  refine ⟨init_wellFormed A, ?_, ?_, ?_, ?_⟩
  · simp [init, hzero]
  · simp [init]
  · simp [init, countAfter]
  · simp [init, hzero, History.ring, ringAfter]

theorem Filled.store {vs : List V} {v : V} {h h' : History V} (hf : Filled A vs h)
    (hs : store v h = some h') : Filled A (vs ++ [v]) h' := by
  obtain ⟨wf, hsize, hindex, hcount, hring⟩ := store_spec hf.wellFormed hs
  rw [hf.size, hf.index] at hindex
  rw [hf.size, hf.count] at hcount
  have hlen : (vs ++ [v]).length = vs.length + 1 := by simp
  refine ⟨wf, hsize.trans hf.size, ?_, ?_, ?_⟩
  · rw [hindex, hlen, ← Nat.mod_add_mod]
    norm_cast
  · rw [hcount, hlen, countAfter_succ hA]
    split_ifs <;> omega
  · rw [hring, hf.ring, ringAfter, ringAfter, hlen, List.tail_drop, ← List.append_assoc,
      @List.drop_append_of_le_length _ (List.replicate A 0 ++ vs) _ _ (by simp; omega)]

/-- Every sequence of stores stays inside the array. -/
theorem stores_filled (vs : List V) :
    ∃ h, stores vs (init A) = some h ∧ Filled A vs h := by
  induction vs using List.reverseRecOn with
  | nil => exact ⟨init A, rfl, filled_init hA⟩
  | append_singleton vs v ih =>
    obtain ⟨h, hs, hf⟩ := ih
    obtain ⟨h', hs', -⟩ := store_wellFormed hf.wellFormed v
    exact ⟨h', (stores_concat hs).trans hs', hf.store hA hs'⟩

theorem filled_of_stores {vs : List V} {h : History V} (hs : stores vs (init A) = some h) :
    Filled A vs h := by
  obtain ⟨h', hs', hf⟩ := stores_filled hA vs
  obtain rfl : h' = h := Option.some.inj (hs'.symm.trans hs)
  exact hf

end

/-! ## The number of valid samples -/

/-- The count is the fill level after the stores of `vs`, and no store on the way lowers it. -/
def CountIsFill [Zero V] (A : Nat) (vs : List V) : Prop :=
  (∃ h, stores vs (init A) = some h ∧
    Sampler_getNumSamplesInHistory h = (min vs.length A : Nat)) ∧
  ∀ pre v post h h', vs = pre ++ v :: post → stores pre (init A) = some h → store v h = some h' →
    Sampler_getNumSamplesInHistory h ≤ Sampler_getNumSamplesInHistory h'

theorem countAfter_le {A k : Nat} (hk : k ≤ A) : countAfter A k = k := if_pos hk

/-- **The count is the fill level exactly as long as no sample is stored into a full array.** -/
theorem numSamples_eq_fill_iff [Zero V] {A : Nat} (hA : 1 ≤ A) (vs : List V) :
    CountIsFill A vs ↔ vs.length ≤ A := by
  constructor
  · rintro ⟨-, hmono⟩
    by_contra hlong
    -- the first store into the full array lowers the count by one
    obtain ⟨v, post, hsplit⟩ := List.exists_cons_of_ne_nil (l := vs.drop A) (by simp; omega)
    have hvs : vs = vs.take A ++ v :: post := by rw [← hsplit, List.take_append_drop]
    have hlen : (vs.take A).length = A := by simp; omega
    obtain ⟨h, hs, hf⟩ := stores_filled hA (vs.take A)
    obtain ⟨h', hs', -⟩ := store_wellFormed hf.wellFormed v
    have hf' := hf.store hA hs'
    have hle := hmono _ v post h h' hvs hs hs'
    rw [Sampler_getNumSamplesInHistory, Sampler_getNumSamplesInHistory, hf.count, hf'.count,
      List.length_append, hlen, List.length_singleton, countAfter_succ hA,
      countAfter_le le_rfl, if_neg (lt_irrefl A)] at hle
    omega
  · intro hk
    constructor
    · obtain ⟨h, hs, hf⟩ := stores_filled hA vs
      refine ⟨h, hs, ?_⟩
      rw [Sampler_getNumSamplesInHistory, hf.count, countAfter_le hk, Nat.min_eq_left hk]
    · intro pre v post h h' hvs hs hs'
      have hf := filled_of_stores hA hs
      have hf' := hf.store hA hs'
      have hlen : pre.length + 1 ≤ A := by
        rw [hvs] at hk
        simp at hk
        omega
      rw [Sampler_getNumSamplesInHistory, Sampler_getNumSamplesInHistory, hf.count, hf'.count,
        List.length_append, List.length_singleton, countAfter_le hlen, countAfter_le (by omega)]
      omega

theorem numSamples_eq_fill_three : CountIsFill 3 [1, 2, (3 : Int)] :=
  (numSamples_eq_fill_iff (by decide) [1, 2, 3]).mpr (by decide)

/-- Two samples stored into one element: the count is back at 0. -/
theorem count_below_fill : ¬ CountIsFill 1 [1, (2 : Int)] := by
  rintro ⟨⟨h, hs, hcount⟩, -⟩
  obtain rfl : ⟨[2], 1, 0, 0⟩ = h := Option.some.inj hs
  exact absurd hcount (by decide)

/-! ## The newest samples -/

theorem rtake_length (vs : List V) (n : Nat) : (vs.rtake n).length = min vs.length n := by
  rw [List.rtake, List.length_drop]
  omega

theorem rtake_all {vs : List V} {n : Nat} (hn : vs.length ≤ n) : vs.rtake n = vs := by
  rw [List.rtake, Nat.sub_eq_zero_of_le hn, List.drop_zero]

section

variable [Zero V]

/-- What the next store overwrites: nothing yet, or the oldest sample. -/
def nextOverwritten (A : Nat) (vs : List V) : V :=
  if vs.length < A then 0 else vs.getD (vs.length - A) 0

theorem ringAfter_cons {A : Nat} (hA : 1 ≤ A) (vs : List V) :
    ∃ xs, ringAfter A vs = nextOverwritten A vs :: xs ∧ xs.length + 1 = A := by
  have hlen : (ringAfter A vs).length = A := by simp [ringAfter]
  obtain ⟨x, xs, hx⟩ := List.exists_cons_of_ne_nil (l := ringAfter A vs) (by
    intro hnil
    rw [hnil] at hlen
    simp at hlen
    omega)
  refine ⟨xs, ?_, by rw [← hlen, hx, List.length_cons]⟩
  have hhead : (ringAfter A vs).head? = some (nextOverwritten A vs) := by
    rw [ringAfter, List.head?_drop, nextOverwritten]
    split
    · rw [List.getElem?_append_left (by simpa), List.getElem?_replicate_of_lt (by assumption)]
    · rw [List.getElem?_append_right (by simp; omega), List.length_replicate, List.getD_eq_getElem?_getD,
        List.getElem?_eq_getElem (by omega)]
      rfl
  rw [hx, List.head?_cons] at hhead
  rw [hx, Option.some.inj hhead]

/-- The newest elements of the array are the newest samples. -/
theorem rtake_ringAfter {A n : Nat} {vs : List V} (hn : n ≤ min vs.length A) :
    (ringAfter A vs).rtake n = vs.rtake n := by
  have hle : A ≤ vs.length + (A - n) := by omega
  rw [List.rtake, List.rtake, ringAfter, List.drop_drop, List.length_drop, List.length_append,
    List.length_replicate, Nat.add_sub_cancel_right, List.drop_append,
    List.drop_of_length_le (by simp; omega), List.nil_append, List.length_replicate]
  congr 1
  omega

/-- An array that is not full: unwritten slots, then everything stored. -/
theorem ringAfter_short {A : Nat} {vs : List V} (hk : vs.length ≤ A) :
    ringAfter A vs = List.replicate (A - vs.length) 0 ++ vs := by
  rw [ringAfter, List.drop_append_of_le_length (by simpa), List.drop_replicate]

/-- A full array. -/
theorem ringAfter_long {A : Nat} {vs : List V} (hk : A ≤ vs.length) :
    ringAfter A vs = vs.rtake A := by
  rw [ringAfter, List.drop_append, List.drop_of_length_le (by simpa), List.length_replicate]
  rfl

/-- Turned by the number of stores, the array is its samples in order. -/
theorem Filled.recent_rotate {A : Nat} {vs : List V} {h : History V} (hf : Filled A vs h) :
    h.recent.length = A ∧ h.recent.rotate vs.length = ringAfter A vs := by
  have hlen : h.recent.length = A := by
    have := hf.wellFormed.length
    rw [hf.size] at this
    omega
  refine ⟨hlen, ?_⟩
  rw [← hf.ring, History.ring, hf.index, Int.toNat_natCast, ← List.rotate_mod, hlen]

/-- `Sampler_get_N` starts one slot after the `n` newest elements and ends on the slot that is
overwritten next. -/
theorem get_N_ring {h : History V} (wf : WellFormed h) {x : V} {xs : List V}
    (hring : h.ring = x :: xs) {n : Nat} (hn : 1 ≤ n) (hcount : (n : Int) ≤ h.historyCount) :
    Sampler_get_N n h = some (some ((h.ring.rtake n).tail ++ [x])) := by
  have hle := wf.count_le
  have hlen := wf.length
  obtain ⟨r, hr⟩ := Int.eq_ofNat_of_zero_le wf.index_nonneg
  have hlen' : h.ring.length = h.recent.length := List.length_rotate ..
  have hloop : (fun i => read h.recent
      ((h.arraySize + (h.recentIndex - n + 1) + i).tmod h.arraySize)) =
      fun i => read h.recent (((r : Int) + (h.arraySize - n + 1) + i).tmod h.recent.length) := by
    funext i
    rw [hlen, hr]
    congr 2
    omega
  rw [Sampler_get_N, if_neg (by omega), if_neg (by omega)]
  simp only [Int.toNat_natCast]
  rw [hloop, assign_around (by simp) (by omega) (by omega), window (by simp; omega),
    List.take_of_length_le (by simp; omega)]
  have hring' : h.recent.rotate r = h.ring := by rw [History.ring, hr, Int.toNat_natCast]
  have hoffset : (h.arraySize - n + 1).toNat = h.ring.length - n + 1 := by omega
  have hone : n - (h.ring.length - (h.ring.length - n + 1)) = 1 := by omega
  rw [hring', List.rtake, List.tail_drop, hoffset, hone, hring]
  rfl

end

/-- **`Sampler_get_N` returns the newest samples exactly where being one slot off does not show**:
each of them is what the next store overwrites. -/
theorem get_N_newest_iff [Zero V] {A : Nat} (hA : 1 ≤ A) {vs : List V} {h : History V}
    (hs : stores vs (init A) = some h) {n : Nat} (hn : n ≤ min vs.length A)
    (hcount : (n : Int) ≤ h.historyCount) :
    Sampler_get_N n h = some (some (vs.rtake n)) ↔
      ∀ v ∈ vs.rtake n, v = nextOverwritten A vs := by
  have hf := filled_of_stores hA hs
  obtain ⟨xs, hring, hlen⟩ := ringAfter_cons hA vs
  rcases Nat.eq_zero_or_pos n with rfl | hpos
  · have hempty : Sampler_get_N ((0 : Nat) : Int) h = some (some []) := by
      rw [Sampler_get_N, if_neg (by omega), if_neg (by omega)]
      rfl
    rw [hempty]
    simp
  · have hne : vs.rtake n ≠ [] := by
      rw [List.rtake]
      simp
      omega
    rw [get_N_ring hf.wellFormed (hf.ring.trans hring) hpos hcount, hf.ring, rtake_ringAfter hn,
      Option.some.injEq, Option.some.injEq, ← List.tail_append_of_ne_nil hne, tail_append_eq_iff]

theorem get_N_newest_one : Sampler_get_N 1 ⟨[(5 : Int)], 1, 0, 1⟩ = some (some [5]) :=
  (@get_N_newest_iff Int _ 1 (by decide) [5] _ rfl 1 (by decide) (by decide)).mpr
    (by decide)

/-- The newest of one sample in an array of two is read from the slot that was never written. -/
theorem get_N_off_by_one : ∃ h : History Int, stores [7] (init 2) = some h ∧
    1 ≤ min [(7 : Int)].length 2 ∧ 1 ≤ h.historyCount ∧
    Sampler_get_N 1 h = some (some [0]) ∧
    Sampler_get_N 1 h ≠ some (some (([7] : List Int).rtake 1)) :=
  ⟨⟨[7, 0], 2, 1, 1⟩, by decide, by decide, by decide, by decide, by decide⟩

end Sampler
