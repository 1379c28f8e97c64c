import Cmpt433.Lib.Saturation
import Cmpt433.Mixer.AudioMixer

/-!
# Mixing is a saturating sum

`fillPlaybackBuffer` clips after each addition, so a sound mixed later comes on top of a value that
has already been clipped: the buffer is a saturating sum in slot order, not the exact sum clamped
once (`order_matters`).

* `clipNum_toInt` — `clipNum` as a saturation.
* `mixedSlots`, `samplesAt` — what a fill mixes at one position of the buffer.
* `fillLoop_buff` — the buffer a fill leaves.
* `filling_buff` — the same, from the events of the fill.
-/

set_option autoImplicit false

namespace Mixer

open Saturation

variable {ι : Type}

def clipLevels : Levels ℤ where
  bot := SHRT_MIN
  lo := SHRT_MIN + 1
  hi := SHRT_MAX - 1
  top := SHRT_MAX
  bot_le := by decide
  lo_neg := by decide
  hi_pos := by decide
  le_top := by decide

theorem clipNum_toInt (num : Int) : (clipNum num).toInt = clipLevels.saturate num := by
  unfold clipNum Levels.saturate clipLevels
  split_ifs with h1 h2
  · rfl
  · rfl
  · refine Int16.toInt_ofInt_of_le ?_ ?_ <;> simp only [SHRT_MAX, SHRT_MIN] at h1 h2 <;> omega

section

variable (sound : ι → wavedata_t)

/-- How many slots the loop reaches that have something to mix: each adds `SAMPLE_SIZE` to
`curr_size`. -/
def reach (size curr_size : Nat) : Nat := (size - curr_size + 1) / 2

/-- The slots a fill mixes. -/
def mixedSlots (size curr_size : Nat) (bites : List (playbackSound_t ι)) :
    List (playbackSound_t ι) :=
  (bites.filter fun b => (slotData sound b).isSome).take (reach size curr_size)

/-- The sample `pData[location + k]` of a slot. -/
def sampleAt (k : Nat) (b : playbackSound_t ι) : Option Int := do
  let ⟨numSamples, pData⟩ ← slotData sound b
  if h : b.location + k < numSamples then some (pData ⟨b.location + k, h⟩).toInt else none

/-- The samples a fill mixes into `buff[k]`, in slot order. -/
def samplesAt (size curr_size k : Nat) (bites : List (playbackSound_t ι)) : List Int :=
  (mixedSlots sound size curr_size bites).filterMap (sampleAt sound k)

variable {sound}

theorem mixLoop_buff {N : Nat} (pData : Fin N → Int16) (j k offset : Nat) (buff : List Int16)
    (x : Nat) :
    (mixLoop pData j k offset buff).1[x]? = buff[x]?.map fun v =>
      if h : j + x < N then clipNum (v.toInt + (pData ⟨j + x, h⟩).toInt) else v := by
  fun_induction mixLoop pData j k offset buff generalizing x with
  | case1 => rfl
  | case2 j k offset b buff h shrt_data buff' offset' passes heq ih =>
    rw [heq] at ih
    cases x with
    | zero => simp [h, shrt_data]
    | succ x =>
      have hx : j + 1 + x = j + (x + 1) := by omega
      simp only [List.getElem?_cons_succ, ih, hx]
  | case3 j k offset b buff h =>
    have : ¬ j + x < N := by omega
    simp [this]

theorem samplesAt_unreached {size curr_size : Nat} (h : curr_size ≥ size) (k : Nat)
    (bites : List (playbackSound_t ι)) : samplesAt sound size curr_size k bites = [] := by
  have hreach : reach size curr_size = 0 := by unfold reach; omega
  simp [samplesAt, mixedSlots, hreach]

theorem samplesAt_cons_none {b : playbackSound_t ι} (hdata : slotData sound b = none)
    (size curr_size k : Nat) (bites : List (playbackSound_t ι)) :
    samplesAt sound size curr_size k (b :: bites) = samplesAt sound size curr_size k bites := by
  simp [samplesAt, mixedSlots, hdata]

theorem samplesAt_cons_some {b : playbackSound_t ι}
    {d : Σ numSamples : Nat, Fin numSamples → Int16} (hdata : slotData sound b = some d)
    {size curr_size : Nat} (hcurr : curr_size < size) (k : Nat)
    (bites : List (playbackSound_t ι)) :
    samplesAt sound size curr_size k (b :: bites) =
      (sampleAt sound k b).toList ++ samplesAt sound size (curr_size + SAMPLE_SIZE) k bites := by
  have hreach : reach size curr_size = reach size (curr_size + SAMPLE_SIZE) + 1 := by
    unfold reach SAMPLE_SIZE; omega
  have hfilter : (b :: bites).filter (fun b => (slotData sound b).isSome) =
      b :: bites.filter (fun b => (slotData sound b).isSome) :=
    List.filter_cons_of_pos (by simp [hdata])
  rw [samplesAt, mixedSlots, hreach, hfilter, List.take_succ_cons, List.filterMap_cons]
  cases sampleAt sound k b <;> rfl

/-- The buffer a fill leaves: at each position, the samples mixed there, clipped one by one. -/
theorem fillLoop_buff (size : Nat) (bites : List (playbackSound_t ι)) :
    ∀ (i curr_size : Nat) (n : Int) (buff : List Int16) (k : Nat),
      (fillLoop sound size i curr_size n buff bites).buff[k]?.map Int16.toInt =
        buff[k]?.map fun v =>
          clipLevels.satSumFrom v.toInt (samplesAt sound size curr_size k bites) := by
  induction bites with
  | nil => intros; simp [fillLoop, samplesAt, mixedSlots, Levels.satSumFrom]
  | cons b bites ih =>
    intro i curr_size n buff k
    rcases fillLoop_cons sound size i curr_size n buff b bites with
      ⟨hcurr, hr⟩ | ⟨-, hdata, hr⟩ | ⟨N, pData, hcurr, hdata, hr⟩
    · simp [hr, samplesAt_unreached hcurr, Levels.satSumFrom]
    · rw [hr, samplesAt_cons_none hdata]
      exact ih _ _ _ _ k
    · rw [hr, samplesAt_cons_some hdata hcurr]
      refine (ih _ _ _ _ k).trans ?_
      rw [mixLoop_buff, Option.map_map]
      congr 1
      funext v
      simp only [Function.comp_apply, sampleAt, hdata]
      split
      · rename_i h
        simp [h, Levels.satSumFrom, clipNum_toInt]
      · rename_i h
        simp [h, Levels.satSumFrom]

theorem fill_buff (m : Table ι) {size k : Nat} (hk : k < size) :
    ∃ v : Int16, (fillPlaybackBuffer sound size m).2[k]? = some v ∧
      v.toInt = clipLevels.satSum (samplesAt sound size 0 k m.soundBites) := by
  have h := @fillLoop_buff _ sound size m.soundBites 0 0 m.numSoundBites
    (List.replicate size 0) k
  rw [List.getElem?_replicate, if_pos hk] at h
  obtain ⟨v, hv, hsum⟩ := Option.map_eq_some_iff.mp h
  exact ⟨v, hv, hsum⟩

/-! ## The samples behind the events -/

variable (sound) in
/-- What an event adds to `buff[k]`: `pData[j]` of the sound in its slot of `bites`. -/
def Event.added (bites : List (playbackSound_t ι)) (k : Nat) : Event ι → Option Int
  | .mixed i j k' =>
    if k' = k then do
      let ⟨numSamples, pData⟩ ← bites[i]?.bind (slotData sound)
      if h : j < numSamples then some (pData ⟨j, h⟩).toInt else none
    else none
  | _ => none

theorem filterMap_range_single {α : Type} (k : Nat) (f : Nat → Option α) (n : Nat) :
    (List.range n).filterMap (fun m => if m = k then f m else none) =
      if k < n then (f k).toList else [] := by
  induction n with
  | zero => rfl
  | succ n ih =>
    rw [List.range_succ, List.filterMap_append, ih]
    rcases Nat.lt_trichotomy k n with hlt | rfl | hgt
    · simp [hlt, hlt.ne', Nat.lt_succ_of_lt hlt]
    · cases hf : f k <;> simp [hf]
    · have : ¬ k < n + 1 := by omega
      simp [hgt.ne, this, hgt.not_gt]

/-- A turn adds the slot's sample at `k`, if it has one there, and no other. -/
theorem turn_added {N size i k : Nat} {pData : Fin N → Int16} {b : playbackSound_t ι}
    {all : List (playbackSound_t ι)} (hall : all[i]? = some b)
    (hdata : slotData sound b = some ⟨N, pData⟩) (hk : k < size) :
    (turn N size i b).filterMap (Event.added sound all k) = (sampleAt sound k b).toList := by
  rw [turn, List.filterMap_append, List.filterMap_map]
  have hreleased : (if b.location + share N b.location size ≥ N then [(.released i : Event ι)]
      else []).filterMap (Event.added sound all k) = [] := by
    split <;> rfl
  have hmixed : (fun m => Event.added sound all k (.mixed i (b.location + m) m)) =
      fun m => if m = k then
        (if h : b.location + m < N then some (pData ⟨b.location + m, h⟩).toInt else none)
        else none := by
    funext m
    simp [Event.added, hall, hdata]
  rw [hreleased, List.append_nil, Function.comp_def, hmixed, filterMap_range_single]
  have hshare : k < share N b.location size ↔ b.location + k < N := by
    unfold share
    omega
  simp only [sampleAt, hdata, Option.bind_eq_bind, Option.bind_some]
  by_cases h : b.location + k < N
  · rw [if_pos (hshare.mpr h)]
  · rw [if_neg (mt hshare.mp h), dif_neg h]
    rfl

/-- The events of a fill add exactly the samples that it mixes. -/
theorem fillLoop_added {size k : Nat} {all : List (playbackSound_t ι)}
    (bites : List (playbackSound_t ι)) :
    ∀ (i curr_size : Nat) (n : Int) (buff : List Int16), k < buff.length → all.drop i = bites →
      (fillLoop sound size i curr_size n buff bites).events.filterMap (Event.added sound all k) =
        samplesAt sound size curr_size k bites := by
  induction bites with
  | nil => intros; simp [fillLoop, samplesAt, mixedSlots]
  | cons b bites ih =>
    intro i curr_size n buff hk hdrop
    have hall : all[i]? = some b := by
      rw [← List.head?_drop, hdrop]
      rfl
    have hrest : all.drop (i + 1) = bites := by
      rw [← List.tail_drop, hdrop]
      rfl
    rcases fillLoop_cons sound size i curr_size n buff b bites with
      ⟨hcurr, hr⟩ | ⟨-, hdata, hr⟩ | ⟨N, pData, hcurr, hdata, hr⟩
    · simp [hr, samplesAt_unreached hcurr]
    · rw [hr, samplesAt_cons_none hdata]
      exact ih _ _ _ _ hk hrest
    · rw [hr, samplesAt_cons_some hdata hcurr, List.filterMap_append, turn_added hall hdata hk]
      congr 1
      apply ih _ _ _ _ _ hrest
      rwa [mixLoop_length]

/-- **The buffer is what the events say**: at each position the saturating sum of the samples that
the events of the fill add there, in order. -/
theorem filling_buff (m : Table ι) (size : Nat) :
    (fillPlaybackBuffer sound size m).2.map Int16.toInt =
      (List.range size).map fun k =>
        clipLevels.satSum ((filling sound size m).events.filterMap
          (Event.added sound m.soundBites k)) := by
  apply List.ext_getElem?
  intro k
  have hbuff := @fillLoop_buff _ sound size m.soundBites 0 0 m.numSoundBites
    (List.replicate size 0) k
  rw [List.getElem?_map, List.getElem?_map]
  refine hbuff.trans ?_
  by_cases hk : k < size
  · have hadded := @fillLoop_added _ sound size k m.soundBites m.soundBites 0 0 m.numSoundBites
      (List.replicate size 0) (by simpa using hk) rfl
    rw [List.getElem?_replicate, if_pos hk, List.getElem?_range hk, Option.map_some,
      Option.map_some, filling, hadded]
    rfl
  · rw [List.getElem?_replicate, if_neg hk, List.getElem?_eq_none (by simpa using hk)]
    rfl

end

/-- **Mixing saturates, addition by addition, in slot order**: `buff[k]` is the saturating sum of
the samples mixed there, between levels at most 1 inside the range of a `short`; it is exact while
no partial sum leaves the range of a `short`, and the order of the slots does not matter where the
samples of neither sign alone leave it. -/
theorem fill_saturates : ∃ L : Levels ℤ, L.bot = SHRT_MIN ∧ L.top = SHRT_MAX ∧
    L.lo ≤ SHRT_MIN + 1 ∧ SHRT_MAX - 1 ≤ L.hi ∧
    ∀ (sound : ι → wavedata_t) (m : Table ι) (size k : Nat), k < size →
      let samples := samplesAt sound size 0 k m.soundBites
      ∃ v : Int16, (fillPlaybackBuffer sound size m).2[k]? = some v ∧
        v.toInt = L.satSum samples ∧
        ((∀ pre, pre <+: samples → SHRT_MIN ≤ pre.sum ∧ pre.sum ≤ SHRT_MAX) →
          v.toInt = samples.sum) ∧
        ∀ m' : Table ι,
          (mixedSlots sound size 0 m'.soundBites).Perm (mixedSlots sound size 0 m.soundBites) →
          SHRT_MIN ≤ negSum samples → posSum samples ≤ SHRT_MAX →
          (fillPlaybackBuffer sound size m').2[k]? = some v := by
  refine ⟨clipLevels, rfl, rfl, by decide, by decide, fun sound m size k hk => ?_⟩
  obtain ⟨v, hv, hsum⟩ := @fill_buff _ sound m _ _ hk
  refine ⟨v, hv, hsum, fun hpre => ?_, fun m' hperm hneg hpos => ?_⟩
  · rw [hsum, Levels.satSum_eq_sum hpre]
  · obtain ⟨v', hv', hsum'⟩ := @fill_buff _ sound m' _ _ hk
    have hsamples : (samplesAt sound size 0 k m'.soundBites).Perm
        (samplesAt sound size 0 k m.soundBites) := hperm.filterMap _
    rw [hv', Option.some.injEq, ← Int16.toInt_inj, hsum', hsum,
      Levels.satSum_perm hsamples hneg hpos, Levels.satSum_perm (List.Perm.refl _) hneg hpos]

/-- Three sounds of one sample each, in the first three slots. -/
def threeSounds (x y z : Int16) : Fin 3 → wavedata_t
  | 0 => ⟨1, some fun _ => x⟩
  | 1 => ⟨1, some fun _ => y⟩
  | 2 => ⟨1, some fun _ => z⟩

def threeSlots : Table (Fin 3) where
  soundBites := [⟨some 0, 0⟩, ⟨some 1, 0⟩, ⟨some 2, 0⟩] ++ List.replicate 27 ⟨none, 0⟩
  length_eq := rfl
  numSoundBites := 3

theorem fill_saturates_quiet :
    ∃ v : Int16, (fillPlaybackBuffer (threeSounds 100 200 (-50)) 6 threeSlots).2[0]? = some v ∧
      v.toInt = 250 := by
  obtain ⟨L, -, -, -, -, h⟩ := @fill_saturates (Fin 3)
  obtain ⟨v, hv, -, hexact, -⟩ := h (threeSounds 100 200 (-50)) threeSlots 6 0 (by decide)
  have hsamples : samplesAt (threeSounds 100 200 (-50)) 6 0 0 threeSlots.soundBites =
      [100, 200, -50] := by decide
  rw [hsamples] at hexact
  have hpre : ∀ pre ∈ [100, 200, -50].inits, SHRT_MIN ≤ pre.sum ∧ pre.sum ≤ SHRT_MAX := by decide
  exact ⟨v, hv, hexact fun pre h => hpre pre ((List.mem_inits ..).mpr h)⟩

/-- 30000 + 30000 − 30000 is mixed to 2766: the first two are clipped before the third comes. -/
theorem order_matters :
    ¬ ∀ (sound : Fin 3 → wavedata_t) (m : Table (Fin 3)) (size k : Nat), k < size →
      ∃ v : Int16, (fillPlaybackBuffer sound size m).2[k]? = some v ∧
        v.toInt = max SHRT_MIN (min SHRT_MAX (samplesAt sound size 0 k m.soundBites).sum) := by
  intro hall
  obtain ⟨v, hv, hsum⟩ := hall (threeSounds 30000 30000 (-30000)) threeSlots 6 0 (by decide)
  have hbuff : (fillPlaybackBuffer (threeSounds 30000 30000 (-30000)) 6 threeSlots).2[0]? =
      some 2766 := by decide
  have hsamples : samplesAt (threeSounds 30000 30000 (-30000)) 6 0 0 threeSlots.soundBites =
      [30000, 30000, -30000] := by decide
  obtain rfl : 2766 = v := Option.some.inj (hbuff.symm.trans hv)
  rw [hsamples] at hsum
  exact absurd hsum (by decide)

end Mixer
