import Cmpt433.Lib.CheckedArray
import Cmpt433.Lib.Runs

/-!
# The sample history (`work/as2/sampler.c`)

The history is the array `recent` with `arraySize`, the index `recentIndex` of the next write and
`historyCount`.  Voltages are a parameter: the code only compares them with 0.  A function is
`none` when it would access an element outside its array.

* `store` — one sample, lines 248–259.
* `Sampler_setHistorySize` — `fresh` is what `malloc` leaves in the new array.
* `Sampler_get_N`, `listing` — the two readers, the second one lines 301–322.
* `init` — the start of `samplerThread`, `reading` being the potentiometer's value.

Sizes are those of arrays that fit in memory, so `int` does not overflow.  `malloc` succeeds.
-/

set_option autoImplicit false

namespace Sampler

open CheckedArray

structure History (V : Type) where
  recent : List V
  arraySize : Int
  recentIndex : Int
  historyCount : Int
  deriving DecidableEq

variable {V : Type} [Zero V] [DecidableEq V]

/-- `malloc(newSize * sizeof(double))` -/
def malloc (fresh : Nat → V) (newSize : Int) : List V := (List.range newSize.toNat).map fresh

def init (reading : Nat) : History V :=
  let arraySize := if reading = 0 then 1 else reading
  { recent := List.replicate arraySize 0, arraySize, recentIndex := 0, historyCount := 0 }

def store (voltage : V) (h : History V) : Option (History V) := do
  let recent ← write h.recent h.recentIndex voltage
  return { h with
    recent
    recentIndex := (h.recentIndex + 1).tmod h.arraySize
    historyCount :=
      if h.historyCount < h.arraySize then h.historyCount + 1 else h.arraySize - 1 }

/-- `recent[(recentIndex + 1) % arraySize]`; 0 is taken to mean that the array is not full. -/
def nextSlot (h : History V) : Option V := read h.recent ((h.recentIndex + 1).tmod h.arraySize)

def Sampler_setHistorySize (newSize : Int) (fresh : Nat → V) (h : History V) :
    Option (History V) :=
  if newSize < h.arraySize then do
    let newSize := if newSize = 0 then 1 else newSize
    let temp := malloc fresh newSize
    if (← nextSlot h) = 0 then
      let temp ← assign (fun i => read h.recent i)
        ((h.recentIndex + 1).tmod h.arraySize).toNat 0 temp
      return { h with recent := temp, arraySize := newSize }
    else
      let j := h.arraySize + (h.recentIndex - newSize + 2)
      let temp ← assign (fun i => read h.recent ((j + i).tmod h.arraySize)) newSize.toNat 0 temp
      return { h with recent := temp, arraySize := newSize, recentIndex := newSize - 1 }
  else if newSize > h.arraySize then do
    let temp := malloc fresh newSize
    let temp ← assign (fun i => read h.recent i) h.arraySize.toNat 0 temp
    let temp ← assign (fun _ => some 0) (newSize - h.arraySize).toNat h.arraySize temp
    return { h with recent := temp, arraySize := newSize }
  else return h

/-- `some none` is the null pointer.  A negative `n` asks for an array of no possible size. -/
def Sampler_get_N (n : Int) (h : History V) : Option (Option (List V)) :=
  if n > h.historyCount then return none
  else if n < 0 then none
  else do
    let N_list := List.replicate n.toNat 0
    let j := h.arraySize + (h.recentIndex - n + 1)
    let N_list ← assign (fun i => read h.recent ((j + i).tmod h.arraySize)) n.toNat 0 N_list
    return some N_list

/-- `for (; index < bound; index += 200) print(at(index))`: what it prints and the last index. -/
def every200 (at_ : Int → Option V) (bound index : Int) : Option (List V × Int) :=
  if index < bound then do
    let v ← at_ index
    let (vs, last) ← every200 at_ bound (index + 200)
    return (v :: vs, last)
  else return ([], index)
termination_by (bound - index).toNat

def listing (h : History V) : Option (List V) := do
  if (← nextSlot h) = 0 then
    let (vs, _) ← every200 (fun i => read h.recent i) (h.recentIndex + 1) 0
    return vs
  else
    let (vs, index) ← every200 (fun index => read h.recent (index.tmod h.arraySize)) h.arraySize
      (h.recentIndex + 2)
    let index := (h.arraySize + index).tmod h.arraySize
    let (ws, _) ← every200 (fun index => read h.recent index) (h.recentIndex + 1) index
    return vs ++ ws

/-! ## The representation invariant -/

structure WellFormed (h : History V) : Prop where
  length : (h.recent.length : Int) = h.arraySize
  size_pos : 1 ≤ h.arraySize
  index_nonneg : 0 ≤ h.recentIndex
  index_lt : h.recentIndex < h.arraySize
  count_nonneg : 0 ≤ h.historyCount
  count_le : h.historyCount ≤ h.arraySize

/-- The size a request for `newSize` elements sets. -/
def clampSize (newSize : Nat) : Int := max newSize 1

theorem clamp_eq (newSize : Nat) :
    (if (newSize : Int) = 0 then 1 else (newSize : Int)) = clampSize newSize := by
  unfold clampSize
  split <;> omega

/-- A resize keeps the invariant: it does not shrink, or the valid samples fit and the write index
is moved or fits as well. -/
def ResizeFits (newSize : Nat) (h : History V) : Prop :=
  h.arraySize ≤ newSize ∨
    h.historyCount ≤ clampSize newSize ∧
      (nextSlot h ≠ some 0 ∨ h.recentIndex < clampSize newSize)

omit [DecidableEq V] in
theorem init_wellFormed (reading : Nat) : WellFormed (init reading : History V) := by
  unfold init
  split <;> constructor <;> simp <;> omega

section

omit [Zero V] [DecidableEq V]

theorem malloc_length (fresh : Nat → V) {newSize : Int} (h : 0 ≤ newSize) :
    ((malloc fresh newSize).length : Int) = newSize := by
  rw [malloc, List.length_map, List.length_range]
  omega

/-- A store changes one slot. -/
theorem store_recent {v : V} {h h' : History V} (hs : store v h = some h') :
    h'.arraySize = h.arraySize ∧ 0 ≤ h.recentIndex ∧ h.recentIndex < h.recent.length ∧
      h'.recent = h.recent.set h.recentIndex.toNat v := by
  obtain ⟨recent, hw, hret⟩ := Option.bind_eq_some_iff.mp hs
  cases hret
  by_cases hin : 0 ≤ h.recentIndex ∧ h.recentIndex < h.recent.length
  · rw [write_inside v hin.1 hin.2] at hw
    cases hw
    exact ⟨rfl, hin.1, hin.2, rfl⟩
  · rw [write_outside v hin] at hw
    cases hw

variable {h : History V} (wf : WellFormed h)
include wf

theorem wrap_inside {i : Int} (hi : 0 ≤ i) :
    0 ≤ i.tmod h.arraySize ∧ i.tmod h.arraySize < h.recent.length := by
  rw [wf.length]
  exact tmod_inside hi wf.size_pos

theorem nextSlot_inside : ∃ v, nextSlot h = some v := by
  have := wf.index_nonneg
  obtain ⟨h0, h1⟩ := wrap_inside wf (i := h.recentIndex + 1) (by omega)
  exact read_inside h0 h1

/-- Every store stays inside the array and keeps the invariant. -/
theorem store_wellFormed (v : V) : ∃ h', store v h = some h' ∧ WellFormed h' := by
  have hsize := wf.size_pos
  have hcount := wf.count_nonneg
  have hindex := wf.index_nonneg
  obtain ⟨h0, h1⟩ := tmod_inside (a := h.recentIndex + 1) (by omega) (show 0 < h.arraySize from wf.size_pos)
  rw [store, write_inside v wf.index_nonneg (by rw [wf.length]; exact wf.index_lt)]
  refine ⟨_, rfl, ?_, wf.size_pos, h0, h1, ?_, ?_⟩
  · rw [List.length_set]; exact wf.length
  · dsimp only; split <;> omega
  · dsimp only; split <;> omega

end

section

omit [Zero V] [DecidableEq V]

/-- The 200-step loop stays inside when every index it may visit is inside. -/
theorem every200_inside {at_ : Int → Option V} {bound index : Int}
    (hat : ∀ i, index ≤ i → i < bound → (at_ i).isSome = true) :
    ∃ vs last, every200 at_ bound index = some (vs, last) ∧ index ≤ last := by
  induction index using every200.induct bound with
  | case1 index hlt ih =>
    obtain ⟨v, hv⟩ := Option.isSome_iff_exists.mp (hat index le_rfl hlt)
    obtain ⟨vs, last, hrest, hle⟩ := ih fun i h1 h2 => hat i (by omega) h2
    refine ⟨v :: vs, last, ?_, by omega⟩
    rw [every200, if_pos hlt, hv, hrest]
    rfl
  | case2 index hge => exact ⟨[], index, by rw [every200, if_neg hge]; rfl, le_rfl⟩

end

variable {h : History V}

omit [DecidableEq V] in
/-- What `Sampler_get_N` collects: `n` elements up to the write index, wrapping around. -/
theorem get_N_eq (wf : WellFormed h) {n : Nat} (hn : (n : Int) ≤ h.historyCount) {w : Int → V}
    (hw : ∀ i : Int, 0 ≤ i → i < n →
      read h.recent ((h.arraySize + (h.recentIndex - n + 1) + i).tmod h.arraySize) = some (w i)) :
    Sampler_get_N n h = some (some (between w 0 n)) := by
  have hindex := wf.index_nonneg
  have hcount := wf.count_le
  rw [Sampler_get_N, if_neg (by omega), if_neg (by omega)]
  simp only [Int.toNat_natCast]
  rw [assign_whole List.length_replicate hw]
  rfl

omit [Zero V] [DecidableEq V] in
theorem get_N_read (wf : WellFormed h) {n : Nat} (hn : (n : Int) ≤ h.historyCount) {i : Int}
    (h0 : 0 ≤ i) :
    ∃ v, read h.recent ((h.arraySize + (h.recentIndex - n + 1) + i).tmod h.arraySize) = some v := by
  have hindex := wf.index_nonneg
  have hcount := wf.count_le
  obtain ⟨h1, h2⟩ := wrap_inside wf
    (i := h.arraySize + (h.recentIndex - n + 1) + i) (by omega)
  exact read_inside h1 h2

omit [DecidableEq V] in
theorem get_N_inside (wf : WellFormed h) {n : Nat} (hn : (n : Int) ≤ h.historyCount) :
    ∃ ns, Sampler_get_N n h = some (some ns) := by
  refine ⟨_, get_N_eq wf hn (w := fun i => (read h.recent
    ((h.arraySize + (h.recentIndex - n + 1) + i).tmod h.arraySize)).getD 0) fun i h0 _ => ?_⟩
  obtain ⟨v, hv⟩ := get_N_read wf hn h0
  simp only [hv, Option.getD_some]

theorem listing_inside (wf : WellFormed h) : ∃ vs, listing h = some vs := by
  have hsize := wf.size_pos
  have hindex := wf.index_nonneg
  have hlt := wf.index_lt
  have hlen := wf.length
  obtain ⟨v, hv⟩ := nextSlot_inside wf
  rw [listing, hv, Option.bind_eq_bind, Option.bind_some]
  split
  · obtain ⟨vs, last, hvs, -⟩ := @every200_inside V (fun i => read h.recent i)
      (h.recentIndex + 1) 0 fun i h0 hi => read_isSome_iff.mpr ⟨h0, by omega⟩
    exact ⟨vs, by rw [hvs]; rfl⟩
  · obtain ⟨vs, index, hvs, hge⟩ := @every200_inside V
      (fun index => read h.recent (index.tmod h.arraySize)) h.arraySize (h.recentIndex + 2)
      fun i h0 hi => read_isSome_iff.mpr (wrap_inside wf (by omega))
    obtain ⟨ws, last, hws, -⟩ := @every200_inside V (fun i => read h.recent i)
      (h.recentIndex + 1) ((h.arraySize + index).tmod h.arraySize) fun i h0 hi =>
        read_isSome_iff.mpr ⟨(tmod_inside (by omega) (by omega)).1.trans h0, by omega⟩
    exact ⟨vs ++ ws, by rw [hvs, Option.bind_eq_bind, Option.bind_some]; simp only [hws]; rfl⟩

/-! ### What a resize does -/

section

variable (wf : WellFormed h) {newSize : Nat} (fresh : Nat → V)
include wf

/-- Growing: the old array, then zeros. -/
theorem grow_eq (hgrow : h.arraySize < newSize) :
    Sampler_setHistorySize newSize fresh h =
      some { h with
        recent := h.recent ++ List.replicate (newSize - h.arraySize).toNat 0
        arraySize := newSize } := by
  have hlen := wf.length
  have hmalloc := malloc_length fresh (show 0 ≤ (newSize : Int) by omega)
  have hold := @assign_list V (fun i => read h.recent i) h.recent 0 (malloc fresh newSize)
    (fun t _ => by simp) (by omega)
  have hzeros := @assign_list V (fun _ => some 0)
    (List.replicate (newSize - h.arraySize).toNat 0) h.recent.length
    (h.recent ++ (malloc fresh newSize).drop h.recent.length)
    (fun t ht => by rw [List.getElem?_replicate, if_pos (by simpa using ht)])
    (by simp; omega)
  have hn : h.arraySize.toNat = h.recent.length := by omega
  rw [List.length_replicate, hlen] at hzeros
  simp only [List.take_zero, List.nil_append, Nat.zero_add, Int.natCast_zero] at hold
  rw [Sampler_setHistorySize, if_neg (by omega), if_pos hgrow]
  simp only [hn, hold, hzeros, Option.bind_eq_bind, Option.bind_some]
  rw [List.take_left' rfl, List.drop_of_length_le (by simp; omega), List.append_nil]
  rfl

/-- Shrinking an array taken for not full: the copy ends at the write index, which is kept. -/
theorem shrink_kept (hshrink : (newSize : Int) < h.arraySize) (h0 : nextSlot h = some 0) :
    Sampler_setHistorySize newSize fresh h =
      if (h.recentIndex + 1).tmod h.arraySize ≤ clampSize newSize then
        some { h with
          recent := h.recent.take ((h.recentIndex + 1).tmod h.arraySize).toNat ++
            (malloc fresh (clampSize newSize)).drop ((h.recentIndex + 1).tmod h.arraySize).toNat
          arraySize := clampSize newSize }
      else none := by
  have hlen := wf.length
  have hindex := wf.index_nonneg
  have hpos : 1 ≤ clampSize newSize := le_max_right _ _
  have hmalloc := malloc_length fresh (show 0 ≤ clampSize newSize by omega)
  obtain ⟨hn0, hn⟩ := wrap_inside wf (i := h.recentIndex + 1) (by omega)
  rw [Sampler_setHistorySize, if_pos hshrink]
  simp only [clamp_eq, h0, Option.bind_eq_bind, Option.bind_some, if_true]
  generalize (h.recentIndex + 1).tmod h.arraySize = n at *
  by_cases hfits : n ≤ clampSize newSize
  · have htake : (h.recent.take n.toNat).length = n.toNat := by simp; omega
    have hcopy := @assign_list V (fun i => read h.recent i) (h.recent.take n.toNat) 0
      (malloc fresh (clampSize newSize)) (fun t ht => by
        rw [htake] at ht
        simp [List.getElem?_take_of_lt ht]) (by omega)
    simp only [htake, List.take_zero, List.nil_append, Nat.zero_add, Int.natCast_zero] at hcopy
    rw [if_pos hfits, hcopy]
    rfl
  · have hnone : assign (fun i => read h.recent i) n.toNat 0 (malloc fresh (clampSize newSize)) =
        none := by
      by_contra hsome
      obtain ⟨-, -, hlt⟩ := assign_isSome_iff.mp (Option.isSome_iff_ne_none.mpr hsome)
        (clampSize newSize) (by omega) (by omega)
      omega
    rw [if_neg hfits, hnone]
    rfl

/-- Shrinking an array taken for full: a window moves to the front, the write index to the end. -/
theorem shrink_moved (hshrink : (newSize : Int) < h.arraySize) {v : V} (hv : nextSlot h = some v)
    (hne : v ≠ 0) :
    ∃ temp, assign (fun i => read h.recent
        ((h.arraySize + (h.recentIndex - clampSize newSize + 2) + i).tmod h.arraySize))
        (clampSize newSize).toNat 0 (malloc fresh (clampSize newSize)) = some temp ∧
      (temp.length : Int) = clampSize newSize ∧
      Sampler_setHistorySize newSize fresh h =
        some { h with
          recent := temp, arraySize := clampSize newSize, recentIndex := clampSize newSize - 1 } := by
  have hindex := wf.index_nonneg
  have hpos : 1 ≤ clampSize newSize := le_max_right _ _
  have hle : clampSize newSize ≤ h.arraySize := max_le (by omega) wf.size_pos
  have hmalloc := malloc_length fresh (show 0 ≤ clampSize newSize by omega)
  obtain ⟨temp, htemp, htlen⟩ := @assign_inside V
    (fun i => read h.recent
      ((h.arraySize + (h.recentIndex - clampSize newSize + 2) + i).tmod h.arraySize))
    (clampSize newSize).toNat 0 (malloc fresh (clampSize newSize)) fun i h0 hi =>
      ⟨read_isSome_iff.mpr (wrap_inside wf (by omega)), h0, by omega⟩
  refine ⟨temp, htemp, by omega, ?_⟩
  rw [Sampler_setHistorySize, if_pos hshrink]
  simp only [clamp_eq, hv, Option.bind_eq_bind, Option.bind_some, if_neg hne, htemp]
  rfl

end

/-- **A resize keeps the invariant, and stays inside both arrays, exactly when it fits.** -/
theorem resize_wellFormed_iff (wf : WellFormed h) (newSize : Nat) (fresh : Nat → V) :
    (∃ h', Sampler_setHistorySize newSize fresh h = some h' ∧ WellFormed h') ↔
      ResizeFits newSize h := by
  have hsize := wf.size_pos
  have hindex := wf.index_nonneg
  have hlt := wf.index_lt
  have hlen := wf.length
  unfold ResizeFits
  rcases lt_trichotomy (newSize : Int) h.arraySize with hshrink | heq | hgrow
  · have hpos : 1 ≤ clampSize newSize := le_max_right _ _
    have hmalloc := malloc_length fresh (show 0 ≤ clampSize newSize by omega)
    obtain ⟨v, hv⟩ := nextSlot_inside wf
    rw [hv]
    by_cases h0 : v = 0
    · -- the write index is kept, so it has to fit
      subst h0
      rw [shrink_kept wf fresh hshrink hv]
      obtain ⟨hn0, hn⟩ := wrap_inside wf (i := h.recentIndex + 1) (by omega)
      have hnle : (h.recentIndex + 1).tmod h.arraySize ≤ h.recentIndex + 1 :=
        tmod_le (by omega) (by omega)
      constructor
      · rintro ⟨h', hrun, wf'⟩
        split at hrun
        · cases hrun
          exact .inr ⟨wf'.count_le, .inr wf'.index_lt⟩
        · cases hrun
      · intro hfits
        obtain ⟨hcount, hroom⟩ := hfits.resolve_left (by omega)
        have hroom : h.recentIndex < clampSize newSize := hroom.resolve_left (by simp)
        rw [if_pos (by omega)]
        refine ⟨_, rfl, ?_, hpos, hindex, hroom, wf.count_nonneg, hcount⟩
        simp only [List.length_append, List.length_take, List.length_drop]
        omega
    · obtain ⟨temp, -, htlen, hrun⟩ := shrink_moved wf fresh hshrink hv h0
      rw [hrun]
      constructor
      · rintro ⟨h', hret, wf'⟩
        cases hret
        exact .inr ⟨wf'.count_le, .inl (by simpa using h0)⟩
      · intro hfits
        obtain ⟨hcount, -⟩ := hfits.resolve_left (by omega)
        refine ⟨_, rfl, htlen, hpos, ?_, ?_, wf.count_nonneg, hcount⟩
        · dsimp only; omega
        · dsimp only; omega
  · refine ⟨fun _ => .inl heq.ge, fun _ => ⟨h, ?_, wf⟩⟩
    rw [Sampler_setHistorySize, if_neg (by omega), if_neg (by omega)]
    rfl
  · refine ⟨fun _ => .inl hgrow.le, fun _ => ⟨_, grow_eq wf fresh hgrow, ?_, ?_, hindex, ?_,
      wf.count_nonneg, ?_⟩⟩
    · simp only [List.length_append, List.length_replicate]; omega
    · dsimp only; omega
    · dsimp only; omega
    · have hcount := wf.count_le
      dsimp only; omega

end Sampler
