import Cmpt433.Sampler.Stores

/-!
# Changing the size of the history (`work/as2/sampler.c`)

`Sampler_setHistorySize` after `k` stores into an empty array of `A` elements.  The samples held
are the newest `min(k, A)` ones, `vs.rtake A`; a history holds a list when its ring ends with it.

* `grow_iff` — growing copies slot by slot and keeps the write index, so that once the array has
  wrapped the new zeros stand amid the samples.
* `shrink_iff` — shrinking never changes `historyCount`, takes a zero in the slot after the write
  index for an array that is not full, and otherwise copies a window that starts one slot late.
-/

set_option autoImplicit false

namespace Sampler

open CheckedArray Ring

variable {V : Type}

/-- The samples from the oldest held to the newest are those of `vs`. -/
def Holds (vs : List V) (h : History V) : Prop := vs <:+ h.ring

instance [DecidableEq V] (vs : List V) (h : History V) : Decidable (Holds vs h) :=
  inferInstanceAs (Decidable (vs <:+ h.ring))

/-- Later stores come after what is held, and replace the oldest ones once the array is full. -/
theorem Holds.stores {vs : List V} {h : History V} (hh : Holds vs h) (wf : WellFormed h)
    (new : List V) :
    ∃ h', stores new h = some h' ∧ Holds ((vs ++ new).rtake h.arraySize.toNat) h' := by
  obtain ⟨h', hs, wf', hsize, hring⟩ := stores_spec wf new
  refine ⟨h', hs, ?_⟩
  obtain ⟨older, holder⟩ := hh
  have hlen := ring_length wf
  rw [Holds, hring]
  refine @List.suffix_of_suffix_length_le _ _ (h.ring ++ new) _ ?_ (List.drop_suffix _ _) ?_
  · refine (List.drop_suffix _ _).trans ⟨older, ?_⟩
    rw [← List.append_assoc, holder]
  · simp only [List.rtake, List.length_drop, List.length_append]
    omega

theorem rtake_rtake {vs : List V} {m n : Nat} (h : m ≤ n) : (vs.rtake n).rtake m = vs.rtake m := by
  rw [List.rtake, List.rtake, List.rtake, List.drop_drop, List.length_drop]
  congr 1
  omega

variable [Zero V]

omit [Zero V] in
theorem ring_eq {h : History V} (wf : WellFormed h) :
    h.ring = h.recent.drop h.recentIndex.toNat ++ h.recent.take h.recentIndex.toNat := by
  have hlt := wf.index_lt
  have hlen := wf.length
  exact List.rotate_eq_drop_append_take (by omega)

/-! ## Growing -/

/-- A list that ends with itself after zeros were appended is all zeros. -/
theorem suffix_append_zeros_iff {vs : List V} {d : Nat} (hd : 0 < d) :
    vs <:+ vs ++ List.replicate d 0 ↔ ∀ v ∈ vs, v = 0 := by
  constructor
  · intro h
    induction vs using List.reverseRecOn with
    | nil => simp
    | append_singleton vs v ih =>
      obtain ⟨d, rfl⟩ : ∃ d', d = d' + 1 := ⟨d - 1, by omega⟩
      rw [List.replicate_succ', ← List.append_assoc, List.suffix_concat_iff] at h
      obtain ⟨ws, hws, hsuffix⟩ := h.resolve_left (by simp)
      obtain ⟨rfl, hv⟩ := List.append_inj' hws rfl
      obtain rfl : v = 0 := by simpa using hv
      rw [List.append_assoc, List.singleton_append, ← List.replicate_succ] at hsuffix
      intro w hw
      rcases List.mem_append.mp hw with hw | hw
      · exact ih hsuffix w hw
      · exact List.mem_singleton.mp hw
  · intro h
    rw [List.eq_replicate_of_mem h, List.replicate_append_replicate, Nat.add_comm,
      ← List.replicate_append_replicate]
    exact List.suffix_append _ _

section

variable [DecidableEq V] {h : History V}

/-- The zeros come to stand at the write index, amid the samples if the array has wrapped. -/
theorem grow_ring (wf : WellFormed h) {newSize : Nat} (hgrow : h.arraySize < newSize)
    (fresh : Nat → V) :
    ∃ h', Sampler_setHistorySize newSize fresh h = some h' ∧ WellFormed h' ∧
      h'.arraySize = newSize ∧
      h'.ring = h.ring.take (h.arraySize - h.recentIndex).toNat ++
        (List.replicate (newSize - h.arraySize).toNat 0 ++
          h.ring.drop (h.arraySize - h.recentIndex).toNat) := by
  obtain ⟨h', hrun, wf'⟩ := (resize_wellFormed_iff wf newSize fresh).mpr (.inl hgrow.le)
  have hlt := wf.index_lt
  have hindex := wf.index_nonneg
  have hlen := wf.length
  have hdrop : (h.recent.drop h.recentIndex.toNat).length =
      (h.arraySize - h.recentIndex).toNat := by
    rw [List.length_drop]
    omega
  refine ⟨h', hrun, wf', ?_⟩
  obtain rfl := Option.some.inj ((grow_eq wf fresh hgrow).symm.trans hrun)
  refine ⟨rfl, ?_⟩
  rw [ring_eq wf', ring_eq wf, List.take_left' hdrop, List.drop_left' hdrop]
  dsimp only
  rw [List.drop_append_of_le_length (by omega), List.take_append_of_le_length (by omega),
    List.append_assoc]

end

/-- The samples held stay as they are, and later ones come after them. -/
def GrowKeeps [DecidableEq V] (A newSize : Nat) (vs : List V) : Prop :=
  ∀ (fresh : Nat → V) (h : History V), stores vs (init A) = some h →
    ∃ h', Sampler_setHistorySize newSize fresh h = some h' ∧ Holds (vs.rtake A) h' ∧
      ∀ new : List V, (vs.rtake A).length + new.length ≤ newSize →
        ∃ h'', stores new h' = some h'' ∧ Holds (vs.rtake A ++ new) h''

/-- Whether the held samples are still there is all that can fail. -/
theorem growKeeps_iff_suffix [DecidableEq V] {A newSize : Nat} (hA : 1 ≤ A) (hgrow : A < newSize)
    (vs : List V) :
    GrowKeeps A newSize vs ↔
      vs.rtake A <:+ (ringAfter A vs).take (A - vs.length % A) ++
        (List.replicate (newSize - A) 0 ++ (ringAfter A vs).drop (A - vs.length % A)) := by
  obtain ⟨h, hs, hf⟩ := stores_filled hA vs
  have hmod : vs.length % A < A := Nat.mod_lt _ hA
  have hcut : (h.arraySize - h.recentIndex).toNat = A - vs.length % A := by
    rw [hf.size, hf.index]
    omega
  have hd : ((newSize : Int) - h.arraySize).toNat = newSize - A := by
    rw [hf.size]
    omega
  have hgrow' : h.arraySize < newSize := by
    rw [hf.size]
    omega
  constructor
  · intro hk
    obtain ⟨h', hrun, hholds, -⟩ := hk (fun _ => 0) h hs
    obtain ⟨h'', hrun', -, -, hring⟩ := grow_ring hf.wellFormed hgrow' fun _ => 0
    obtain rfl : h' = h'' := Option.some.inj (hrun.symm.trans hrun')
    rwa [Holds, hring, hf.ring, hcut, hd] at hholds
  · intro hsuffix fresh h1 hs1
    obtain rfl : h1 = h := Option.some.inj (hs1.symm.trans hs)
    obtain ⟨h', hrun, wf', hsize, hring⟩ := grow_ring hf.wellFormed hgrow' fresh
    have hholds : Holds (vs.rtake A) h' := by rwa [Holds, hring, hf.ring, hcut, hd]
    refine ⟨h', hrun, hholds, fun new hnew => ?_⟩
    obtain ⟨h'', hs'', hholds''⟩ := hholds.stores wf' new
    refine ⟨h'', hs'', ?_⟩
    have hzero : (vs.rtake A ++ new).length - h'.arraySize.toNat = 0 := by
      rw [hsize, List.length_append]
      omega
    rwa [List.rtake, hzero, List.drop_zero] at hholds''

/-- **Growing keeps the samples exactly where the array is not full or the part behind the write
index, its oldest samples, is all zeros.** -/
theorem grow_iff [DecidableEq V] {A newSize : Nat} (hA : 1 ≤ A) (hgrow : A < newSize)
    (vs : List V) :
    GrowKeeps A newSize vs ↔
      vs.length < A ∨ ∀ v ∈ (vs.rtake A).take (A - vs.length % A), v = 0 := by
  rw [growKeeps_iff_suffix hA hgrow]
  rcases Nat.lt_or_ge vs.length A with hk | hk
  · -- not full: the part that is cut off was never written
    refine ⟨fun _ => .inl hk, fun _ => ?_⟩
    have hzeros : (List.replicate (A - vs.length) (0 : V)).length = A - vs.length := by simp
    rw [ringAfter_short hk.le, Nat.mod_eq_of_lt hk, List.drop_left' hzeros, rtake_all hk.le]
    exact (List.suffix_append _ _).trans (List.suffix_append _ _)
  · rw [ringAfter_long hk, or_iff_right (by omega)]
    set held := vs.rtake A with hheld
    set oldest := held.take (A - vs.length % A) with holdest
    have hsplit : held = oldest ++ held.drop (A - vs.length % A) := (List.take_append_drop ..).symm
    rw [← suffix_append_zeros_iff (d := newSize - A) (by omega), ← List.append_assoc]
    nth_rewrite 1 [hsplit]
    exact List.suffix_append_self_iff

theorem grow_keeps_two : GrowKeeps 3 5 [1, (2 : Int)] :=
  (grow_iff (by decide) (by decide) [1, 2]).mpr (.inl (by decide))

/-- One sample in one element, grown to two: the zero after it is now the newest element. -/
theorem grow_loses_newest : ¬ GrowKeeps 1 2 [(5 : Int)] := by
  intro hk
  obtain ⟨h', hrun, hholds, -⟩ := hk (fun _ => 0) ⟨[5], 1, 0, 1⟩ (by decide)
  obtain rfl : ⟨[5, 0], 2, 0, 1⟩ = h' := Option.some.inj hrun
  exact absurd hholds (by decide)

/-! ## Shrinking -/

omit [Zero V] in
theorem recent_length {h : History V} {a b : V} {rest : List V} (hring : h.ring = a :: b :: rest) :
    h.recent.length = rest.length + 2 := by
  rw [← List.length_rotate h.recent h.recentIndex.toNat]
  exact congrArg List.length hring

/-- With two slots free the ring starts with two zeros. -/
theorem Filled.two_free {A : Nat} {vs : List V} {h : History V} (hf : Filled A vs h)
    (hfree : vs.length + 2 ≤ A) :
    ∃ d, A - vs.length = d + 2 ∧ h.ring = 0 :: 0 :: (List.replicate d 0 ++ vs) := by
  obtain ⟨d, hd⟩ : ∃ d, A - vs.length = d + 2 := ⟨A - vs.length - 2, by omega⟩
  refine ⟨d, hd, ?_⟩
  rw [hf.ring, ringAfter_short (by omega), hd]
  rfl

section

variable [DecidableEq V] {h : History V} (wf : WellFormed h) {a b : V} {rest : List V}
  (hring : h.ring = a :: b :: rest)
include wf hring

omit [Zero V] [DecidableEq V] in
theorem nextSlot_ring : nextSlot h = some b := by
  have hlen := wf.length
  have hcons := recent_length hring
  obtain ⟨r, hr⟩ := Int.eq_ofNat_of_zero_le wf.index_nonneg
  rw [nextSlot, ← hlen, hr, read_around (by omega) (by omega)]
  rw [History.ring, hr, Int.toNat_natCast] at hring
  rw [hring]
  rfl

variable {newSize : Nat} (hpos : 1 ≤ newSize) (fresh : Nat → V)
include hpos

/-- Shrinking by one an array taken for full: the second element is kept and the third one lost;
the element that should have gone comes last. -/
theorem shrink_moved_ring (hsize : (newSize : Int) + 1 = h.arraySize) (hb : b ≠ 0) :
    ∃ h', Sampler_setHistorySize newSize fresh h = some h' ∧ h'.arraySize = newSize ∧
      h'.historyCount = h.historyCount ∧ h'.ring = b :: (rest ++ [a]).tail := by
  have hlen := wf.length
  have hcons := recent_length hring
  have hclamp : clampSize newSize = newSize := by rw [clampSize]; omega
  obtain ⟨temp, htemp, htlen, hrun⟩ :=
    shrink_moved wf fresh (show (newSize : Int) < h.arraySize by omega) (nextSlot_ring wf hring) hb
  rw [hclamp] at htemp htlen hrun
  refine ⟨_, hrun, rfl, rfl, ?_⟩
  obtain ⟨r, hr⟩ := Int.eq_ofNat_of_zero_le wf.index_nonneg
  have hloop : (fun i => read h.recent
      ((h.arraySize + (h.recentIndex - newSize + 2) + i).tmod h.arraySize)) =
      fun i => read h.recent (((r : Int) + 3 + i).tmod h.recent.length) := by
    funext i
    rw [hlen, hr]
    congr 2
    omega
  have hring' : h.recent.rotate r = a :: b :: rest := by
    rw [← hring, History.ring, hr, Int.toNat_natCast]
  have hmalloc := malloc_length fresh (show 0 ≤ (newSize : Int) by omega)
  rw [hloop, assign_around (by omega) (by omega) (by omega), hring'] at htemp
  have hwindow : temp = (rest ++ [a]).tail ++ [b] := by
    have htwice : ((a :: b :: rest) ++ (a :: b :: rest)).drop 3 =
        (rest ++ [a]).tail ++ b :: rest := by
      rw [← List.drop_one, ← List.drop_append_of_le_length (by simp), List.append_assoc]
      rfl
    have hn : newSize = (rest ++ [a]).tail.length + 1 := by
      simp
      omega
    rw [← Option.some.inj htemp]
    exact (congrArg (List.take newSize) htwice).trans (by rw [hn, List.take_length_add_append]; rfl)
  have hlast : ((newSize : Int) - 1).toNat = (rest ++ [a]).tail.length := by
    simp
    omega
  unfold History.ring
  dsimp only
  rw [hwindow, hlast, List.rotate_append_length_eq]
  rfl

/-- Shrinking an array taken for not full: what stands behind the write index is left as `malloc`
gave it. -/
theorem shrink_kept_ring (hsize : (newSize : Int) < h.arraySize) (hb : b = 0)
    (hr : h.recentIndex < newSize) :
    ∃ h', Sampler_setHistorySize newSize fresh h = some h' ∧ h'.arraySize = newSize ∧
      h'.historyCount = h.historyCount ∧
      h'.ring = a :: ((malloc fresh newSize).drop (h.recentIndex.toNat + 1) ++
        h.ring.drop (h.arraySize - h.recentIndex).toNat) := by
  have hlen := wf.length
  have h0 := wf.index_nonneg
  have hclamp : clampSize newSize = newSize := by rw [clampSize]; omega
  have hwrap : (h.recentIndex + 1).tmod h.arraySize = h.recentIndex + 1 :=
    Int.tmod_eq_of_lt (by omega) (by omega)
  have hrun := shrink_kept wf fresh hsize ((nextSlot_ring wf hring).trans (by rw [hb]))
  rw [hclamp, hwrap, if_pos (by omega)] at hrun
  refine ⟨_, hrun, rfl, rfl, ?_⟩
  have hold := ring_eq wf
  obtain ⟨r, hr'⟩ := Int.eq_ofNat_of_zero_le h0
  have hmalloc := malloc_length fresh (show 0 ≤ (newSize : Int) by omega)
  have hlast : (h.arraySize - h.recentIndex).toNat = (h.recent.drop r).length := by
    rw [List.length_drop]
    omega
  have hcut : h.recent.drop r = a :: h.recent.drop (r + 1) := by
    rw [hring, hr', Int.toNat_natCast, List.drop_eq_getElem_cons (by omega), List.cons_append] at hold
    rw [List.drop_eq_getElem_cons (by omega), (List.cons_eq_cons.mp hold).1]
  have htake : h.recent.take (r + 1) = h.recent.take r ++ [a] := by
    rw [List.take_add, hcut]
    rfl
  have hnext : (h.recentIndex + 1).toNat = r + 1 := by omega
  have hfront : (h.recent.take r).length = r := by
    rw [List.length_take]
    omega
  rw [hold, hlast, History.ring]
  dsimp only
  rw [hnext, hr', Int.toNat_natCast, List.drop_left, htake, List.append_assoc]
  have hrotate := List.rotate_append_length_eq (h.recent.take r)
    ([a] ++ (malloc fresh newSize).drop (r + 1))
  rw [hfront] at hrotate
  rw [hrotate]
  rfl

end

/-- The newest samples held stay as they are and are all that is held, and later ones replace the
oldest ones once the new array is full. -/
def ShrinkKeeps [DecidableEq V] (A newSize : Nat) (vs : List V) : Prop :=
  ∀ (fresh : Nat → V) (h : History V), stores vs (init A) = some h →
    ∃ h', Sampler_setHistorySize newSize fresh h = some h' ∧
      Holds ((vs.rtake A).rtake newSize) h' ∧
      Sampler_getNumSamplesInHistory h' = (min (vs.rtake A).length newSize : Nat) ∧
      ∀ new : List V, ∃ h'', stores new h' = some h'' ∧
        Holds (((vs.rtake A).rtake newSize ++ new).rtake newSize) h''

/-- When a shrink by one does no harm, `a` and `b` being the elements in the slots of the next two
stores: the samples after them all equal `a`, or nothing is left to `malloc` that is read. -/
def ShrinkByOneFits (A : Nat) (vs : List V) : Prop :=
  ∃ a b rest, ringAfter A vs = a :: b :: rest ∧
    (b ≠ 0 ∧ (∀ v ∈ rest, v = a) ∨ b = 0 ∧ a = 0 ∧ vs.length % A + 2 = A)

section

variable [DecidableEq V] {A newSize : Nat} {vs : List V} {h : History V}

theorem wellFormed_of_resize (wf : WellFormed h) (hfits : ResizeFits newSize h) {fresh : Nat → V}
    {h' : History V} (hrun : Sampler_setHistorySize newSize fresh h = some h') : WellFormed h' := by
  obtain ⟨h1, hrun1, wf1⟩ := (resize_wellFormed_iff wf newSize fresh).mpr hfits
  obtain rfl : h1 = h' := Option.some.inj (hrun1.symm.trans hrun)
  exact wf1

/-- A history that keeps the invariant and ends with the samples goes on as it should. -/
theorem shrinkKeeps_of (hs : stores vs (init A) = some h)
    (hrun : ∀ fresh, ∃ h', Sampler_setHistorySize newSize fresh h = some h' ∧ WellFormed h' ∧
      h'.arraySize = newSize ∧ (vs.rtake A).rtake newSize <:+ h'.ring ∧
      h'.historyCount = (min (vs.rtake A).length newSize : Nat)) : ShrinkKeeps A newSize vs := by
  intro fresh h1 hs1
  obtain rfl : h1 = h := Option.some.inj (hs1.symm.trans hs)
  obtain ⟨h', hrun', wf', hsize, hholds, hcount⟩ := hrun fresh
  refine ⟨h', hrun', hholds, hcount, fun new => ?_⟩
  obtain ⟨h'', hs'', hholds''⟩ := Holds.stores hholds wf' new
  rw [hsize, Int.toNat_natCast] at hholds''
  exact ⟨h'', hs'', hholds''⟩

/-- After a shrink that leaves room for a store the write index is inside the new array. -/
theorem ShrinkKeeps.inside (hk : ShrinkKeeps A newSize vs) (hs : stores vs (init A) = some h)
    (fresh : Nat → V) :
    ∃ h', Sampler_setHistorySize newSize fresh h = some h' ∧
      (vs.rtake A).rtake newSize <:+ h'.ring ∧
      h'.historyCount = (min (vs.rtake A).length newSize : Nat) ∧
      h'.recentIndex < h'.recent.length := by
  obtain ⟨h', hrun, hholds, hcount, hnew⟩ := hk fresh h hs
  obtain ⟨h'', hs'', -⟩ := hnew [0]
  obtain ⟨h1, hstore, -⟩ := Option.bind_eq_some_iff.mp hs''
  exact ⟨h', hrun, hholds, hcount, (store_recent hstore).2.2.1⟩

/-- No shrink changes `historyCount`, and one that keeps the write index leaves an array of the new
size. -/
theorem shrink_fields (wf : WellFormed h) (hpos : 1 ≤ newSize)
    (hshrink : (newSize : Int) < h.arraySize) {fresh : Nat → V} {h' : History V}
    (hrun : Sampler_setHistorySize newSize fresh h = some h') :
    h'.historyCount = h.historyCount ∧ (h'.recent.length : Int) = newSize ∧
      (nextSlot h = some 0 → h'.recentIndex = h.recentIndex) := by
  have hclamp : clampSize newSize = newSize := by rw [clampSize]; omega
  have hmalloc := malloc_length fresh (show 0 ≤ (newSize : Int) by omega)
  have hindex := wf.index_nonneg
  obtain ⟨v, hv⟩ := nextSlot_inside wf
  by_cases h0 : v = 0
  · subst h0
    obtain ⟨hn0, hn⟩ := wrap_inside wf (i := h.recentIndex + 1) (by omega)
    rw [shrink_kept wf fresh hshrink hv, hclamp] at hrun
    split at hrun
    · cases hrun
      refine ⟨rfl, ?_, fun _ => rfl⟩
      simp only [List.length_append, List.length_take, List.length_drop]
      omega
    · cases hrun
  · obtain ⟨temp, -, htlen, hrun'⟩ := shrink_moved wf fresh hshrink hv h0
    obtain rfl := Option.some.inj (hrun'.symm.trans hrun)
    rw [hclamp] at htlen
    refine ⟨rfl, htlen, fun hzero => ?_⟩
    rw [hv] at hzero
    exact absurd (Option.some.inj hzero) h0

/-- Fewer samples than the new array has elements: two unwritten slots stand at the write index. -/
theorem shrinkKeeps_short (hpos : 1 ≤ newSize) (hshrink : newSize < A)
    (hk : vs.length < newSize) : ShrinkKeeps A newSize vs := by
  obtain ⟨h, hs, hf⟩ := stores_filled (show 1 ≤ A by omega) vs
  obtain ⟨d, hd, hring⟩ := hf.two_free (by omega)
  have hindex : h.recentIndex = vs.length := by
    rw [hf.index, Nat.mod_eq_of_lt (by omega)]
  have hcount : h.historyCount = vs.length := by rw [hf.count, countAfter_le (by omega)]
  have hsize : (newSize : Int) < h.arraySize := by
    rw [hf.size]
    omega
  have hall : (vs.rtake A).rtake newSize = vs := by
    rw [rtake_rtake hshrink.le, rtake_all hk.le]
  have hmin : min (vs.rtake A).length newSize = vs.length := by
    rw [rtake_length]
    omega
  refine shrinkKeeps_of hs fun fresh => ?_
  obtain ⟨h', hrun, hsize', hcount', hring'⟩ :=
    shrink_kept_ring hf.wellFormed hring hpos fresh hsize rfl (by omega)
  have hfits : ResizeFits newSize h := by
    refine .inr ⟨?_, .inr ?_⟩ <;> rw [clampSize] <;> omega
  refine ⟨h', hrun, wellFormed_of_resize hf.wellFormed hfits hrun, hsize', ?_,
    by rw [hcount', hcount, hmin]⟩
  have hcut : (h.arraySize - h.recentIndex).toNat = (List.replicate (d + 2) (0 : V)).length := by
    rw [hf.size, hindex, List.length_replicate]
    omega
  have hlast : h.ring.drop (h.arraySize - h.recentIndex).toNat = vs := by
    rw [hcut, hf.ring, ringAfter_short (by omega), hd, List.drop_left]
  rw [hall, hring', hlast]
  exact (List.suffix_append _ _).trans (List.suffix_cons _ _)

omit [DecidableEq V] in
/-- What an array that is shrunk by one should hold afterwards. -/
theorem newest_byOne (hshrink : newSize + 1 = A) (hk : newSize ≤ vs.length) {a b : V}
    {rest : List V} (hring : ringAfter A vs = a :: b :: rest) :
    (vs.rtake A).rtake newSize = b :: rest := by
  have hlen : (ringAfter A vs).length = A := by simp [ringAfter]
  have hcons : (ringAfter A vs).length - newSize = 1 := by omega
  rw [rtake_rtake (by omega), ← rtake_ringAfter (A := A) (by omega), List.rtake, hcons, hring]
  rfl

theorem shrinkKeeps_byOne (hpos : 1 ≤ newSize) (hshrink : newSize + 1 = A)
    (hk : newSize ≤ vs.length) (hcount : countAfter A vs.length = newSize)
    (hfits : ShrinkByOneFits A vs) : ShrinkKeeps A newSize vs := by
  obtain ⟨h, hs, hf⟩ := stores_filled (show 1 ≤ A by omega) vs
  obtain ⟨a, b, rest, hring, hcases⟩ := hfits
  have hring' := hf.ring.trans hring
  have hsize : (newSize : Int) + 1 = h.arraySize := by
    rw [hf.size]
    omega
  have hcount' : h.historyCount = newSize := by rw [hf.count, hcount]
  have hmin : min (vs.rtake A).length newSize = newSize := by
    rw [rtake_length]
    omega
  refine shrinkKeeps_of hs fun fresh => ?_
  rw [newest_byOne hshrink hk hring, hmin]
  rcases hcases with ⟨hb, hrest⟩ | ⟨hb, ha, hr⟩
  · obtain ⟨h', hrun, hsize', hsame, hnew⟩ :=
      shrink_moved_ring hf.wellFormed hring' hpos fresh hsize hb
    have hfits : ResizeFits newSize h := by
      refine .inr ⟨by rw [clampSize]; omega, .inl ?_⟩
      rw [nextSlot_ring hf.wellFormed hring']
      simpa using hb
    refine ⟨h', hrun, wellFormed_of_resize hf.wellFormed hfits hrun, hsize', ?_,
      by rw [hsame, hcount']⟩
    rw [hnew, tail_append_eq_iff.mpr hrest]
  · have hindex : h.recentIndex + 2 = h.arraySize := by
      rw [hf.index, hf.size]
      exact_mod_cast hr
    obtain ⟨h', hrun, hsize', hsame, hnew⟩ :=
      shrink_kept_ring hf.wellFormed hring' hpos fresh (by omega) hb (by omega)
    have hfits : ResizeFits newSize h := by
      refine .inr ⟨?_, .inr ?_⟩ <;> rw [clampSize] <;> omega
    refine ⟨h', hrun, wellFormed_of_resize hf.wellFormed hfits hrun, hsize', ?_,
      by rw [hsame, hcount']⟩
    have hmalloc := malloc_length fresh (show 0 ≤ (newSize : Int) by omega)
    have hcut : (h.arraySize - h.recentIndex).toNat = 2 := by omega
    rw [hnew, List.drop_of_length_le (by omega), hcut, hring', ha, hb]
    exact List.suffix_rfl

/-- The size and the count that a shrink of at least as many samples needs. -/
theorem ShrinkKeeps.byOne (hkeeps : ShrinkKeeps A newSize vs) (hpos : 1 ≤ newSize)
    (hshrink : newSize < A) (hk : newSize ≤ vs.length) :
    newSize + 1 = A ∧ countAfter A vs.length = newSize := by
  obtain ⟨h, hs, hf⟩ := stores_filled (show 1 ≤ A by omega) vs
  have hsize : (newSize : Int) < h.arraySize := by
    rw [hf.size]
    omega
  obtain ⟨h', hrun, -, hcount', hinside⟩ := hkeeps.inside hs fun _ => 0
  obtain ⟨hsame, hlen', hkept⟩ := shrink_fields hf.wellFormed hpos hsize hrun
  have hcount : countAfter A vs.length = newSize := by
    rw [hsame, hf.count, rtake_length] at hcount'
    omega
  refine ⟨?_, hcount⟩
  by_contra hne
  have hfull : vs.length = newSize := by
    unfold countAfter at hcount
    split_ifs at hcount <;> omega
  -- the slots from the write index on are unwritten, so the index is kept: one too far
  obtain ⟨d, -, hring⟩ := hf.two_free (by omega)
  have hindex := hkept (nextSlot_ring hf.wellFormed hring)
  rw [hf.index, Nat.mod_eq_of_lt (by omega)] at hindex
  omega

section

variable {a b : V} {rest : List V} (hkeeps : ShrinkKeeps A newSize vs) (hpos : 1 ≤ newSize)
  (hone : newSize + 1 = A) (hk : newSize ≤ vs.length) (hring : ringAfter A vs = a :: b :: rest)

include hkeeps hpos hone hk hring

/-- Where the window is moved by one, the elements that it misses must not differ. -/
theorem ShrinkKeeps.fits_moved (hb : b ≠ 0) : ∀ v ∈ rest, v = a := by
  obtain ⟨h, hs, hf⟩ := stores_filled (show 1 ≤ A by omega) vs
  have hsize : (newSize : Int) + 1 = h.arraySize := by
    rw [hf.size]
    omega
  obtain ⟨h', hrun, hholds, -, -⟩ := hkeeps.inside hs fun _ => 0
  obtain ⟨h2, hrun2, -, -, hnew⟩ :=
    shrink_moved_ring hf.wellFormed (hf.ring.trans hring) hpos (fun _ => 0) hsize hb
  obtain rfl : h' = h2 := Option.some.inj (hrun.symm.trans hrun2)
  rw [newest_byOne hone hk hring, hnew] at hholds
  exact tail_append_eq_iff.mp (List.cons_eq_cons.mp (hholds.eq_of_length (by simp))).2.symm

/-- Where nothing is moved, what `malloc` leaves must not be read as a sample. -/
theorem ShrinkKeeps.fits_kept [Nontrivial V] (hb : b = 0) : a = 0 ∧ vs.length % A + 2 = A := by
  obtain ⟨h, hs, hf⟩ := stores_filled (show 1 ≤ A by omega) vs
  have hrlen : rest.length + 2 = A := by
    have hlen : (ringAfter A vs).length = A := by simp [ringAfter]
    rwa [hring] at hlen
  have hring' := hf.ring.trans hring
  have hsize : (newSize : Int) + 1 = h.arraySize := by
    rw [hf.size]
    omega
  have hmod : h.recentIndex = (vs.length % A : Nat) := hf.index
  obtain ⟨h1, hrun1, -, -, hinside⟩ := hkeeps.inside hs fun _ => 0
  obtain ⟨-, hlen1, hkept⟩ := shrink_fields hf.wellFormed hpos (by omega) hrun1
  have hindex := hkept ((nextSlot_ring hf.wellFormed hring').trans (by rw [hb]))
  -- a value that the oldest sample kept is not
  obtain ⟨c, hc⟩ := exists_ne (rest.headD 0)
  obtain ⟨h', hrun, hholds, -, -⟩ := hkeeps.inside hs fun _ => c
  obtain ⟨h2, hrun2, -, -, hnew⟩ :=
    shrink_kept_ring hf.wellFormed hring' hpos (fun _ => c) (by omega) hb (by omega)
  obtain rfl : h' = h2 := Option.some.inj (hrun.symm.trans hrun2)
  have hmalloc : (malloc (fun _ => c) newSize).drop (h.recentIndex.toNat + 1) =
      List.replicate (newSize - (vs.length % A + 1)) c := by
    rw [malloc, List.map_const', List.drop_replicate, hmod, List.length_range,
      Int.toNat_natCast, Int.toNat_natCast]
  have hlast : (h.ring.drop (h.arraySize - h.recentIndex).toNat).length = vs.length % A := by
    rw [List.length_drop, hring']
    simp
    omega
  rw [newest_byOne hone hk hring, hnew, hmalloc] at hholds
  have heq := hholds.eq_of_length (by
    rw [List.length_cons, List.length_cons, List.length_append, hlast, List.length_replicate]
    omega)
  obtain ⟨hba, hrest⟩ := List.cons_eq_cons.mp heq
  refine ⟨hba ▸ hb, ?_⟩
  by_contra hne
  obtain ⟨d, hd⟩ : ∃ d, newSize - (vs.length % A + 1) = d + 1 :=
    ⟨newSize - (vs.length % A + 1) - 1, by omega⟩
  rw [hd, List.replicate_succ, List.cons_append] at hrest
  exact hc (by rw [hrest, List.headD_cons])

end

theorem ShrinkKeeps.fits [Nontrivial V] (hkeeps : ShrinkKeeps A newSize vs) (hpos : 1 ≤ newSize)
    (hone : newSize + 1 = A) (hk : newSize ≤ vs.length) : ShrinkByOneFits A vs := by
  have hlen : (ringAfter A vs).length = A := by simp [ringAfter]
  obtain ⟨a, l, hl⟩ := List.exists_cons_of_length_pos (show 0 < (ringAfter A vs).length by omega)
  have hlen' : l.length + 1 = A := by rw [← hlen, hl, List.length_cons]
  obtain ⟨b, rest, rfl⟩ := List.exists_cons_of_length_pos (show 0 < l.length by omega)
  refine ⟨a, b, rest, hl, ?_⟩
  by_cases hb : b = 0
  · exact .inr ⟨hb, hkeeps.fits_kept hpos hone hk hl hb⟩
  · exact .inl ⟨hb, hkeeps.fits_moved hpos hone hk hl hb⟩

end

/-- **Shrinking keeps the newest samples exactly where they are fewer than the new size, or the
array shrinks by one, the count is already the new size and no element is moved that matters.** -/
theorem shrink_iff [DecidableEq V] [Nontrivial V] {A newSize : Nat} (hpos : 1 ≤ newSize)
    (hshrink : newSize < A) (vs : List V) :
    ShrinkKeeps A newSize vs ↔
      vs.length < newSize ∨
        newSize + 1 = A ∧ countAfter A vs.length = newSize ∧ ShrinkByOneFits A vs := by
  constructor
  · intro hkeeps
    rcases Nat.lt_or_ge vs.length newSize with hk | hk
    · exact .inl hk
    obtain ⟨hone, hcount⟩ := hkeeps.byOne hpos hshrink hk
    exact .inr ⟨hone, hcount, hkeeps.fits hpos hone hk⟩
  · rintro (hk | ⟨hone, hcount, hfits⟩)
    · exact shrinkKeeps_short hpos hshrink hk
    · refine shrinkKeeps_byOne hpos hone ?_ hcount hfits
      unfold countAfter at hcount
      split_ifs at hcount <;> omega

theorem shrink_keeps_one : ShrinkKeeps 3 2 [(1 : Int)] :=
  (shrink_iff (by decide) (by decide) [1]).mpr (.inl (by decide))

/-- Three samples in three elements, shrunk to two: the oldest one is kept in place of the newest,
and three samples are still reported. -/
theorem shrink_keeps_oldest : ¬ ShrinkKeeps 3 2 [1, 2, (3 : Int)] := by
  intro hk
  obtain ⟨h', hrun, hholds, -, -⟩ := hk (fun _ => 0) ⟨[1, 2, 3], 3, 0, 3⟩ (by decide)
  obtain rfl : ⟨[1, 2], 2, 1, 3⟩ = h' := Option.some.inj hrun
  exact absurd hholds (by decide)

end Sampler
