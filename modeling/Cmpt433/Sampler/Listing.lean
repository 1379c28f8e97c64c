import Cmpt433.Sampler.Stores

/-!
# The listing of every 200th sample (`work/as2/sampler.c`)

Once a second the thread prints every 200th element of the history, lines 301–322: from slot 0 on
where the slot after the write index is 0, otherwise in two loops from two slots after it around to
it.

* `every200_eq` — the loop in closed form.
* `listedSlots` — the slots that are read.
* `listing_iff` — for which sizes and samples these are every 200th sample, oldest first.
* `testsNotFull_iff` — for which the slot after the write index tells whether the array is full.
-/

set_option autoImplicit false

namespace Sampler

open CheckedArray Ring

section

variable {V : Type}

/-- How many rounds the loop makes from `index` on. -/
def rounds (bound index : Int) : Nat := ((bound - index + 199) / 200).toNat

/-- The indices of the loop. -/
def walk (bound index : Int) : List Int :=
  (List.range (rounds bound index)).map fun t : Nat => index + 200 * t

theorem every200_eq {at_ : Int → Option V} {w : Int → V} {bound index : Int}
    (hat : ∀ i, index ≤ i → i < bound → at_ i = some (w i)) :
    every200 at_ bound index =
      some ((walk bound index).map w, index + 200 * rounds bound index) := by
  induction index using every200.induct bound with
  | case1 index hlt ih =>
    have hrounds : rounds bound index = rounds bound (index + 200) + 1 := by
      unfold rounds
      omega
    have hwalk : walk bound index = index :: walk bound (index + 200) := by
      rw [walk, hrounds, List.range_succ_eq_map, List.map_cons, List.map_map, walk]
      congr 1
      · simp
      · refine List.map_congr_left fun t _ => ?_
        simp only [Function.comp_apply, Nat.succ_eq_add_one]
        push_cast
        ring
    rw [every200, if_pos hlt, hat index le_rfl hlt, ih fun i h1 h2 => hat i (by omega) h2, hwalk,
      hrounds]
    simp only [Option.bind_eq_bind, Option.bind_some, List.map_cons]
    congr 2
    push_cast
    ring
  | case2 index hge =>
    have hrounds : rounds bound index = 0 := by
      unfold rounds
      omega
    rw [every200, if_neg hge, walk, hrounds]
    simp

/-- The indices themselves. -/
theorem every200_some (bound index : Int) :
    every200 some bound index = some (walk bound index, index + 200 * rounds bound index) := by
  have hwalk := @every200_eq Int some id bound index fun _ _ _ => rfl
  rwa [List.map_id] at hwalk

theorem walk_get (bound index : Int) (t : Nat) :
    (walk bound index)[t]? = if index + 200 * t < bound then some (index + 200 * t) else none := by
  rw [walk, List.getElem?_map, rounds]
  split
  · rw [List.getElem?_range (by omega)]
    rfl
  · rw [List.getElem?_eq_none (by simp; omega)]
    rfl

theorem mem_walk {bound index i : Int} :
    i ∈ walk bound index ↔ ∃ t : Nat, i = index + 200 * t ∧ i < bound := by
  rw [List.mem_iff_getElem?]
  refine exists_congr fun t => ?_
  rw [walk_get, Option.ite_none_right_eq_some, Option.some.injEq]
  constructor
  · rintro ⟨hlt, rfl⟩
    exact ⟨rfl, hlt⟩
  · rintro ⟨rfl, hlt⟩
    exact ⟨hlt, rfl⟩

variable [Zero V] [DecidableEq V]

/-- The slots that `listing` prints, in order. -/
def listedSlots (h : History V) : Option (List Int) := do
  if (← nextSlot h) = 0 then
    let (slots, _) ← every200 some (h.recentIndex + 1) 0
    return slots
  else
    let (slots, index) ← every200 (fun index => some (index.tmod h.arraySize)) h.arraySize
      (h.recentIndex + 2)
    let index := (h.arraySize + index).tmod h.arraySize
    let (rest, _) ← every200 some (h.recentIndex + 1) index
    return slots ++ rest

/-- The element in a slot. -/
def valueAt (h : History V) (i : Int) : V := (read h.recent i).getD 0

omit [DecidableEq V] in
theorem read_valueAt {h : History V} {i : Int} (h0 : 0 ≤ i) (hi : i < h.recent.length) :
    read h.recent i = some (valueAt h i) := by
  obtain ⟨v, hv⟩ := read_inside h0 hi
  rw [valueAt, hv]
  rfl

omit [DecidableEq V] in
theorem every200_values {h : History V} {bound index : Int} (h0 : 0 ≤ index)
    (hbound : bound ≤ h.recent.length) :
    every200 (fun i => read h.recent i) bound index =
      some ((walk bound index).map (valueAt h), index + 200 * rounds bound index) :=
  every200_eq fun i h1 h2 => read_valueAt (by omega) (by omega)

/-- Where the second loop starts. -/
def resumeAt (A r : Int) : Int := (A + (r + 2 + 200 * rounds A (r + 2))).tmod A

/-- The slots of the two loops. -/
def around (h : History V) : List Int :=
  walk h.arraySize (h.recentIndex + 2) ++
    walk (h.recentIndex + 1) (resumeAt h.arraySize h.recentIndex)

/-- The slots in closed form, and that their elements are printed. -/
theorem listing_slots {h : History V} (wf : WellFormed h) {v : V} (hv : nextSlot h = some v) :
    ∃ slots, listedSlots h = some slots ∧ listing h = some (slots.map (valueAt h)) ∧
      slots = if v = 0 then walk (h.recentIndex + 1) 0 else around h := by
  have hindex := wf.index_nonneg
  have hlt := wf.index_lt
  have hlen := wf.length
  have hpos := wf.size_pos
  have hresume := tmod_inside (a := h.arraySize + (h.recentIndex + 2 +
    200 * rounds h.arraySize (h.recentIndex + 2))) (n := h.arraySize) (by omega) (by omega)
  -- below the end of the array the first loop's `%` changes nothing
  have hmod : ∀ i : Int, h.recentIndex + 2 ≤ i → i < h.arraySize → i.tmod h.arraySize = i :=
    fun i h1 h2 => Int.tmod_eq_of_lt (by omega) h2
  refine ⟨_, ?_, ?_, rfl⟩
  · rw [listedSlots, hv, Option.bind_eq_bind, Option.bind_some]
    have hfirst := @every200_eq Int (fun index => some (index.tmod h.arraySize)) id h.arraySize
      (h.recentIndex + 2) fun i h1 h2 => congrArg some (hmod i h1 h2)
    rw [List.map_id] at hfirst
    split
    · rw [every200_some]
      rfl
    · rw [hfirst, Option.bind_eq_bind, Option.bind_some]
      simp only [every200_some]
      rfl
  · rw [listing, hv, Option.bind_eq_bind, Option.bind_some]
    have hfirst := @every200_eq V (fun index => read h.recent (index.tmod h.arraySize)) (valueAt h)
      h.arraySize (h.recentIndex + 2) fun i h1 h2 => by
        rw [hmod i h1 h2]
        exact read_valueAt (by omega) (by omega)
    split
    · rw [every200_values le_rfl (by omega)]
      rfl
    · rw [hfirst, Option.bind_eq_bind, Option.bind_some]
      dsimp only
      rw [every200_values hresume.1 (by omega), around, List.map_append]
      rfl

end

/-! ## The slots of the two loops -/

section

variable {A r t : Nat}

theorem tmod_once {i : Int} (h0 : 0 ≤ i) (hi : i < 2 * A) :
    i.tmod A = if i < A then i else i - A := by
  split
  · exact Int.tmod_eq_of_lt h0 (by assumption)
  · have hsplit : i = i - A + A * 1 := by omega
    rw [Int.tmod_eq_emod_of_nonneg h0]
    nth_rewrite 1 [hsplit]
    rw [Int.add_mul_emod_self_left, Int.emod_eq_of_lt (by omega) (by omega)]

/-- The second loop goes on where the first one stopped, if that is less than one turn further. -/
theorem resumeAt_once (hlow : A ≤ r + 2 + 200 * rounds A (r + 2))
    (hhigh : r + 2 + 200 * rounds A (r + 2) < 2 * A) :
    resumeAt A r = r + 2 + 200 * rounds A (r + 2) - A := by
  rw [resumeAt, Int.tmod_eq_emod_of_nonneg (by omega), Int.add_emod_left]
  have hmod := @tmod_once A (r + 2 + 200 * rounds A (r + 2)) (by omega) (by omega)
  rw [Int.tmod_eq_emod_of_nonneg (by omega), if_neg (by omega)] at hmod
  exact hmod

theorem walk_length (bound index : Int) : (walk bound index).length = rounds bound index := by
  rw [walk, List.length_map, List.length_range]

/-- With room for the stride, the two loops visit the positions 2, 202, … of the ring, up to its
length. -/
theorem loops_get (hA : 2 ≤ A) (hr : r < A) (hroom : 200 ≤ A ∨ A ≤ r + 2) :
    (walk A (r + 2) ++ walk (r + 1) (resumeAt A r))[t]? =
      if 200 * t + 2 ≤ A then some (((r : Int) + (200 * t + 2 : Nat)).tmod A) else none := by
  have hrounds : rounds A (r + 2) = ((A - (r + 2) + 199) / 200 : Int).toNat := rfl
  have hresume := @resumeAt_once A r (by omega) (by omega)
  have hwrap : 200 * t + 2 ≤ A → ((r : Int) + (200 * t + 2 : Nat)).tmod A =
      if r + 2 + 200 * t < A then ((r : Int) + (200 * t + 2 : Nat))
      else (r : Int) + (200 * t + 2 : Nat) - A := by
    intro ht
    rw [tmod_once (by omega) (by omega)]
    split_ifs <;> omega
  rcases Nat.lt_or_ge t (rounds A (r + 2)) with hfirst | hsecond
  · rw [List.getElem?_append_left (by rwa [walk_length]), walk_get, if_pos (by omega),
      if_pos (by omega), hwrap (by omega), if_pos (by omega)]
    congr 1
    omega
  · rw [List.getElem?_append_right (by rwa [walk_length]), walk_length, walk_get, hresume]
    split
    · rw [if_pos (by omega), hwrap (by omega), if_neg (by omega)]
      congr 1
      omega
    · rw [if_neg (by omega)]

/-- In a small array the first loop makes one round, and the stride may go around more than once. -/
theorem loops_small (hA : A < 200) (hr : r + 2 < A) :
    walk A (r + 2) ++ walk (r + 1) (resumeAt A r) =
      ((r + 2 : Nat) : Int) :: if r < (r + 202) % A then [] else [(((r + 202) % A : Nat) : Int)] := by
  have hone : rounds A (r + 2) = 1 := by
    unfold rounds
    omega
  have hresume : resumeAt A r = ((r + 202) % A : Nat) := by
    rw [resumeAt, hone, Int.tmod_eq_emod_of_nonneg (by omega), Int.add_emod_left]
    push_cast
    ring_nf
  have hlt : (r + 202) % A < A := Nat.mod_lt _ (by omega)
  rw [hresume]
  generalize (r + 202) % A = j at *
  refine List.ext_getElem? fun t => ?_
  rcases t with - | t
  · rw [List.getElem?_append_left (by rw [walk_length, hone]; decide), walk_get, if_pos (by omega)]
    simp
  · rw [List.getElem?_append_right (by rw [walk_length, hone]; omega), walk_length, hone, walk_get,
      List.getElem?_cons_succ]
    rcases t with - | t
    · split_ifs <;> simp <;> omega
    · split_ifs <;> simp <;> omega

end

/-! ## The elements in the slots -/

section

variable {V : Type} [Zero V] {A : Nat} {vs : List V} {h : History V}

/-- An element by its distance from the write index. -/
theorem valueAt_ring (hf : Filled A vs h) {j : Nat} (hj : j < 2 * A) :
    some (valueAt h (((vs.length % A : Nat) + (j : Int)).tmod A)) =
      (ringAfter A vs ++ ringAfter A vs)[j]? := by
  obtain ⟨hlen, hring⟩ := hf.recent_rotate
  have hread := @read_around V h.recent (vs.length % A) j (by omega) (by omega)
  have hrotate : h.recent.rotate (vs.length % A) = ringAfter A vs := by
    rw [← hring, ← List.rotate_mod h.recent vs.length, hlen]
  have hA : 0 < A := by omega
  have hinside := tmod_inside (a := (vs.length % A : Nat) + (j : Int)) (n := A) (by omega) (by omega)
  rw [hrotate, hlen, Int.toNat_natCast] at hread
  rw [← hread, read_valueAt hinside.1 (by omega)]

/-- The slot that decides the case holds the second element of the ring. -/
theorem nextSlot_second (hA : 1 ≤ A) (hf : Filled A vs h) :
    nextSlot h = some ((ringAfter A vs).getD (1 % A) 0) := by
  have hlen := hf.recent_rotate.1
  have hring : (ringAfter A vs).length = A := by simp [ringAfter]
  have hvalue := valueAt_ring hf (j := 1) (by omega)
  have hinside := tmod_inside (a := (vs.length % A : Nat) + (1 : Int)) (n := A) (by omega) (by omega)
  have hone : (ringAfter A vs ++ ringAfter A vs)[1]? = (ringAfter A vs)[1 % A]? := by
    rcases hA.eq_or_lt with rfl | hlt
    · rw [List.getElem?_append_right (by omega), hring]
    · rw [List.getElem?_append_left (by omega), Nat.mod_eq_of_lt hlt]
  rw [nextSlot, hf.index, hf.size, read_valueAt hinside.1 (by omega), List.getD_eq_getElem?_getD,
    ← hone, ← hvalue]
  rfl

/-- The slots up to the write index hold the newest samples and then what is overwritten next. -/
theorem recent_take (hA : 1 ≤ A) (hf : Filled A vs h) :
    h.recent.take (vs.length % A + 1) = vs.rtake (vs.length % A) ++ [nextOverwritten A vs] := by
  obtain ⟨hlen, hring⟩ := hf.recent_rotate
  have hr : vs.length % A < A := Nat.mod_lt _ (by omega)
  have hle : vs.length % A ≤ vs.length := Nat.mod_le _ _
  obtain ⟨xs, hcons, -⟩ := ringAfter_cons hA vs
  have hrotate : h.recent.drop (vs.length % A) ++ h.recent.take (vs.length % A) =
      ringAfter A vs := by
    rw [← hring, ← List.rotate_mod h.recent vs.length, hlen,
      List.rotate_eq_drop_append_take (by omega)]
  have hnewest : vs.rtake (vs.length % A) = h.recent.take (vs.length % A) := by
    rw [← rtake_ringAfter (A := A) (by omega), ← hrotate, List.rtake, List.length_append,
      List.length_take, hlen, Nat.min_eq_left (by omega), Nat.add_sub_cancel, List.drop_left]
  have hnext : h.recent[vs.length % A]? = some (nextOverwritten A vs) := by
    have hhead := congrArg List.head? hrotate
    rw [hcons, List.head?_append_of_ne_nil _ (by simp; omega), List.head?_drop] at hhead
    exact hhead
  rw [List.take_add_one, hnext, hnewest]
  rfl

/-- The elements printed from slot 0 on. -/
theorem printed_front (hA : 1 ≤ A) (hf : Filled A vs h) (t : Nat) :
    ((walk (h.recentIndex + 1) 0).map (valueAt h))[t]? =
      (vs.rtake (vs.length % A) ++ [nextOverwritten A vs])[200 * t]? := by
  have hlen := hf.recent_rotate.1
  have hr : vs.length % A < A := Nat.mod_lt _ (by omega)
  rw [← recent_take hA hf, List.getElem?_map, walk_get, hf.index]
  split
  · have hread := @read_valueAt V _ h (0 + 200 * (t : Int)) (by omega) (by omega)
    have hindex : 0 + 200 * (t : Int) = (200 * t : Nat) := by push_cast; ring
    rw [hindex, read_natCast] at hread
    rw [List.getElem?_take_of_lt (by omega), hread, hindex]
    rfl
  · rw [List.getElem?_eq_none (by simp; omega)]
    rfl

/-- The elements printed by the two loops, with room for the stride. -/
theorem printed_around (hA : 2 ≤ A) (hf : Filled A vs h)
    (hroom : 200 ≤ A ∨ A ≤ vs.length % A + 2) (t : Nat) :
    ((around h).map (valueAt h))[t]? =
      (ringAfter A vs ++ [nextOverwritten A vs])[200 * t + 2]? := by
  have hlen : (ringAfter A vs).length = A := by simp [ringAfter]
  have hr : vs.length % A < A := Nat.mod_lt _ (by omega)
  obtain ⟨xs, hcons, -⟩ := ringAfter_cons (show 1 ≤ A by omega) vs
  rw [List.getElem?_map, around, hf.size, hf.index, loops_get hA hr hroom]
  split
  · rename_i ht
    rw [Option.map_some, valueAt_ring hf (by omega)]
    rcases ht.lt_or_eq with hlt | heq
    · rw [List.getElem?_append_left (by omega), List.getElem?_append_left (by omega)]
    · -- the last position is the oldest element again
      rw [heq, List.getElem?_append_right (by omega), List.getElem?_append_right (by omega), hlen,
        Nat.sub_self, hcons]
      rfl
  · rw [List.getElem?_eq_none (by simp; omega)]
    rfl

variable [DecidableEq V]

/-- The values printed are every 200th of the valid samples, the oldest first, and no slot is
printed that was never written. -/
def ListsSamples (A : Nat) (vs : List V) (h : History V) : Prop :=
  ∃ slots values, listedSlots h = some slots ∧ listing h = some values ∧
    (∀ i ∈ slots, i < vs.length ∨ A ≤ vs.length) ∧ ∀ t, values[t]? = (vs.rtake A)[200 * t]?

/-- When the listing is right.

* The element after the oldest is 0, and the array is not full: 200 does not divide the number of
  samples.
* It is 0 in a full array: every 200th of the newest samples that lie before the write index, with
  the oldest one after them, is the sample of that number counted from the oldest.
* It is not 0, and one slot is free: every sample number 200 `t` is followed by its equal.
* It is not 0 in a full array: there is one element, or every element number 200 `t` is equal to the
  one two places further around the ring, and in an array of less than 200 elements the stride does
  not come around to a slot up to the write index. -/
def ListingFits (A : Nat) (vs : List V) : Prop :=
  let r := vs.length % A
  let oldest := nextOverwritten A vs
  if (ringAfter A vs).getD (1 % A) 0 = 0 then
    if vs.length < A then ¬ 200 ∣ vs.length
    else ∀ t, (vs.rtake r ++ [oldest])[200 * t]? = (vs.rtake A)[200 * t]?
  else if vs.length < A then ∀ t, vs[200 * t + 1]? = vs[200 * t]?
  else A = 1 ∨ (∀ t, (vs.rtake A ++ [oldest])[200 * t + 2]? = (vs.rtake A)[200 * t]?) ∧
    (A < 200 → r + 2 < A → r < (r + 202) % A)

theorem listsSamples_iff {slots : List Int}
    (hslots : listedSlots h = some slots) (hlisting : listing h = some (slots.map (valueAt h))) :
    ListsSamples A vs h ↔ (∀ i ∈ slots, i < vs.length ∨ A ≤ vs.length) ∧
      ∀ t, (slots.map (valueAt h))[t]? = (vs.rtake A)[200 * t]? := by
  constructor
  · rintro ⟨slots', values, h1, h2, hwritten, hvalues⟩
    obtain rfl := Option.some.inj (hslots.symm.trans h1)
    obtain rfl := Option.some.inj (hlisting.symm.trans h2)
    exact ⟨hwritten, hvalues⟩
  · rintro ⟨hwritten, hvalues⟩
    exact ⟨slots, _, hslots, hlisting, hwritten, hvalues⟩

omit [DecidableEq V] in
/-- From slot 0 on, in an array that is not full. -/
theorem front_short_iff (hA : 1 ≤ A) (hf : Filled A vs h) (hk : vs.length < A) :
    ((∀ i ∈ walk (h.recentIndex + 1) 0, i < vs.length ∨ A ≤ vs.length) ∧
      ∀ t, ((walk (h.recentIndex + 1) 0).map (valueAt h))[t]? = (vs.rtake A)[200 * t]?) ↔
      ¬ 200 ∣ vs.length := by
  have hindex : h.recentIndex = vs.length := by rw [hf.index, Nat.mod_eq_of_lt hk]
  constructor
  · -- a multiple of 200 is itself among the slots
    rintro ⟨hwritten, -⟩ ⟨t, ht⟩
    have := hwritten _ (mem_walk.mpr ⟨t, rfl, by omega⟩)
    omega
  · intro hno
    constructor
    · intro i hi
      obtain ⟨t, rfl, hlt⟩ := mem_walk.mp hi
      omega
    · intro t
      rw [printed_front hA hf, Nat.mod_eq_of_lt hk, rtake_all le_rfl, rtake_all hk.le]
      rcases Nat.lt_or_ge (200 * t) vs.length with hlt | hge
      · rw [List.getElem?_append_left hlt]
      · rw [List.getElem?_eq_none (by simp; omega), List.getElem?_eq_none hge]

omit [DecidableEq V] in
/-- A slot that is not 0 although the array is not full is the first one: one slot is free. -/
theorem one_free (hA : 1 ≤ A) (hk : vs.length < A) (hne : (ringAfter A vs).getD (1 % A) 0 ≠ 0) :
    2 ≤ A ∧ vs.length + 1 = A := by
  rw [ringAfter_short hk.le, List.getD_eq_getElem?_getD] at hne
  by_contra hno
  rcases Nat.lt_or_ge 1 A with htwo | hone
  · rw [Nat.mod_eq_of_lt htwo, List.getElem?_append_left (by simp; omega),
      List.getElem?_replicate_of_lt (by omega)] at hne
    exact hne rfl
  · obtain rfl : A = 1 := by omega
    rw [Nat.mod_self, List.getElem?_append_left (by rw [List.length_replicate]; omega),
      List.getElem?_replicate_of_lt (by omega)] at hne
    exact hne rfl

omit [DecidableEq V] in
/-- The slots of the two loops, with one slot free: they start at slot 1. -/
theorem mem_around_short (hA : 2 ≤ A) (hf : Filled A vs h) (hk : vs.length + 1 = A) {i : Int} :
    i ∈ around h ↔ ∃ t : Nat, i = (200 * t + 1 : Nat) ∧ i < A := by
  have hr : vs.length % A = vs.length := Nat.mod_eq_of_lt (by omega)
  rw [List.mem_iff_getElem?]
  refine exists_congr fun t => ?_
  have hget := @loops_get A vs.length t hA (by omega) (.inr (by omega))
  rw [around, hf.size, hf.index, hr, hget]
  split
  · rw [tmod_once (by omega) (by omega), if_neg (by omega), Option.some.injEq]
    omega
  · simp only [reduceCtorEq, false_iff]
    omega

omit [DecidableEq V] in
theorem printed_short (hA : 2 ≤ A) (hf : Filled A vs h) (hk : vs.length + 1 = A) (t : Nat) :
    ((around h).map (valueAt h))[t]? = (vs ++ [0])[200 * t + 1]? := by
  have hr : vs.length % A = vs.length := Nat.mod_eq_of_lt (by omega)
  have hone : A - vs.length = 1 := by omega
  rw [printed_around hA hf (.inr (by omega)), ringAfter_short (by omega), nextOverwritten,
    if_pos (by omega), hone]
  rfl

omit [DecidableEq V] in
/-- The two loops, with one slot free. -/
theorem around_short_iff (hA : 2 ≤ A) (hf : Filled A vs h) (hk : vs.length + 1 = A) :
    ((∀ i ∈ around h, i < vs.length ∨ A ≤ vs.length) ∧
      ∀ t, ((around h).map (valueAt h))[t]? = (vs.rtake A)[200 * t]?) ↔
      ∀ t, vs[200 * t + 1]? = vs[200 * t]? := by
  rw [rtake_all (by omega)]
  simp only [printed_short hA hf hk]
  constructor
  · rintro ⟨hwritten, heq⟩ t
    rcases lt_trichotomy (200 * t + 1) vs.length with hlt | hlast | hgt
    · rw [← heq t, List.getElem?_append_left hlt]
    · -- the slot that was never written would be printed
      have := hwritten _ ((mem_around_short hA hf hk).mpr ⟨t, rfl, by omega⟩)
      omega
    · rw [List.getElem?_eq_none (by omega), List.getElem?_eq_none (by omega)]
  · intro heq
    have hnot : ∀ t, 200 * t + 1 ≠ vs.length := by
      intro t hlast
      have := heq t
      rw [List.getElem?_eq_none (by omega), List.getElem?_eq_getElem (by omega)] at this
      cases this
    constructor
    · intro i hi
      obtain ⟨t, rfl, hlt⟩ := (mem_around_short hA hf hk).mp hi
      have := hnot t
      omega
    · intro t
      have := hnot t
      rw [← heq t]
      rcases Nat.lt_or_ge (200 * t + 1) vs.length with hlt | hge
      · rw [List.getElem?_append_left hlt]
      · rw [List.getElem?_eq_none (by simp; omega), List.getElem?_eq_none hge]

omit [DecidableEq V] in
/-- The two loops in a small full array. -/
theorem around_small_iff (hf : Filled A vs h) (hk : A ≤ vs.length) (hA : A < 200)
    (hr : vs.length % A + 2 < A) :
    (∀ t, ((around h).map (valueAt h))[t]? = (vs.rtake A)[200 * t]?) ↔
      (∀ t, (vs.rtake A ++ [nextOverwritten A vs])[200 * t + 2]? = (vs.rtake A)[200 * t]?) ∧
        vs.length % A < (vs.length % A + 202) % A := by
  have hlen : (vs.rtake A).length = A := by rw [rtake_length]; omega
  have hfirst : some (valueAt h (vs.length % A + 2 : Nat)) =
      (vs.rtake A ++ [nextOverwritten A vs])[2]? := by
    have hvalue := valueAt_ring hf (j := 2) (by omega)
    rw [tmod_once (by omega) (by omega), if_pos (by omega), ringAfter_long hk,
      List.getElem?_append_left (by omega)] at hvalue
    rw [List.getElem?_append_left (by omega), ← hvalue]
    rfl
  rw [around, hf.size, hf.index, loops_small hA hr]
  generalize (vs.length % A + 202) % A = j
  constructor
  · intro heq
    constructor
    · intro t
      rcases t with - | t
      · rw [← heq 0, Nat.mul_zero, Nat.zero_add, ← hfirst]
        rfl
      · rw [List.getElem?_eq_none (by simp; omega), List.getElem?_eq_none (by omega)]
    · by_contra hback
      have hsecond := heq 1
      rw [if_neg hback, List.getElem?_eq_none (show (vs.rtake A).length ≤ 200 * 1 by omega)]
        at hsecond
      cases hsecond
  · rintro ⟨heq, hback⟩ t
    rw [if_pos hback]
    rcases t with - | t
    · rw [← heq 0, Nat.mul_zero, Nat.zero_add, ← hfirst]
      rfl
    · rw [List.getElem?_eq_none (by simp), List.getElem?_eq_none (by omega)]

omit [DecidableEq V] in
/-- An array of one element. -/
theorem around_one {vs : List V} {h : History V} (hf : Filled 1 vs h) (hk : 1 ≤ vs.length)
    (t : Nat) :
    ((around h).map (valueAt h))[t]? = (vs.rtake 1)[200 * t]? := by
  have hindex : h.recentIndex = 0 := by rw [hf.index, Nat.mod_one]; rfl
  have hlen : (vs.rtake 1).length = 1 := by rw [rtake_length]; omega
  have hslots : walk 1 (0 + 2) ++ walk (0 + 1) (resumeAt 1 0) = [0] := by decide
  have hvalue := valueAt_ring hf (j := 0) (by omega)
  rw [Nat.mod_one, ringAfter_long hk, List.getElem?_append_left (by omega)] at hvalue
  rw [around, hf.size, hindex, Int.natCast_one, hslots]
  rcases t with - | t
  · exact hvalue
  · rw [List.getElem?_eq_none (by simp), List.getElem?_eq_none (by omega)]

/-- **When the listing is every 200th sample, oldest first.** -/
theorem listing_iff (hA : 1 ≤ A) (hs : stores vs (init A) = some h) :
    ListsSamples A vs h ↔ ListingFits A vs := by
  have hf := filled_of_stores hA hs
  obtain ⟨slots, hslots, hlisting, hclosed⟩ :=
    listing_slots hf.wellFormed (nextSlot_second hA hf)
  rw [listsSamples_iff hslots hlisting, ListingFits]
  have hwritten : A ≤ vs.length → ∀ i ∈ slots, i < vs.length ∨ A ≤ vs.length :=
    fun hk _ _ => .inr hk
  by_cases hzero : (ringAfter A vs).getD (1 % A) 0 = 0
  · rw [if_pos hzero] at hclosed ⊢
    subst hclosed
    rcases Nat.lt_or_ge vs.length A with hk | hk
    · rw [if_pos hk]
      exact front_short_iff hA hf hk
    · rw [if_neg (by omega), and_iff_right (hwritten hk)]
      simp only [printed_front hA hf]
  · rw [if_neg hzero] at hclosed ⊢
    subst hclosed
    rcases Nat.lt_or_ge vs.length A with hk | hk
    · obtain ⟨htwo, hfree⟩ := one_free hA hk hzero
      rw [if_pos hk]
      exact around_short_iff htwo hf hfree
    · rw [if_neg (by omega), and_iff_right (hwritten hk)]
      rcases hA.eq_or_lt with rfl | htwo
      · exact iff_of_true (around_one hf hk) (.inl rfl)
      · rw [or_iff_right (by omega)]
        by_cases hsmall : A < 200 ∧ vs.length % A + 2 < A
        · rw [around_small_iff hf hk hsmall.1 hsmall.2]
          simp only [hsmall, forall_const]
        · have hroom : 200 ≤ A ∨ A ≤ vs.length % A + 2 := by omega
          simp only [printed_around htwo hf hroom, ringAfter_long hk]
          exact (and_iff_left fun h1 h2 => absurd ⟨h1, h2⟩ hsmall).symm

end

/-- One sample in three slots. -/
theorem listing_one : ListsSamples 3 [7] (⟨[7, 0, 0], 3, 1, 1⟩ : History Int) := by
  refine (listing_iff (by decide) rfl).mpr ?_
  rw [ListingFits, if_pos (by decide), if_pos (by decide)]
  decide

/-- Three samples in three slots: the newest is printed, not the oldest. -/
theorem listing_starts_late : ¬ ∀ (A : Nat) (vs : List Int) (h : History Int), 1 ≤ A →
    stores vs (init A) = some h → ListsSamples A vs h := by
  intro hall
  obtain ⟨slots, values, -, hlisting, -, hvalues⟩ :=
    hall 3 [1, 2, 3] ⟨[1, 2, 3], 3, 0, 3⟩ (by decide) (by decide)
  obtain ⟨slots', -, hprinted, hslots'⟩ := @listing_slots Int _ _ ⟨[1, 2, 3], 3, 0, 3⟩
    (by constructor <;> decide) 2 (by decide)
  have hthree : slots'.map (valueAt (⟨[1, 2, 3], 3, 0, 3⟩ : History Int)) = [3] := by
    rw [hslots']
    decide
  obtain rfl := Option.some.inj (hlisting.symm.trans hprinted)
  rw [hthree] at hvalues
  exact absurd (hvalues 0) (by decide)

/-! ## The test itself -/

section

variable {V : Type} [Zero V] {A : Nat} {vs : List V} {h : History V}

/-- The slot after the write index is 0 exactly when samples are missing. -/
def TestsNotFull (A : Nat) (vs : List V) (h : History V) : Prop :=
  nextSlot h = some 0 ↔ vs.length < A

/-- When that slot tells whether samples are missing.  With two free slots it was never written,
with one it holds the first sample, and in a full array the second oldest. -/
def SlotTells (A : Nat) (vs : List V) : Prop :=
  vs.length + 2 ≤ A ∨ (vs.length + 1 = A ∧ vs.head? = some 0) ∨
    (A ≤ vs.length ∧ (vs.rtake A)[1]? ≠ some 0)

/-- What the slot after the write index holds. -/
theorem nextSlot_stored (hA : 2 ≤ A) (hf : Filled A vs h) :
    nextSlot h = if vs.length + 2 ≤ A then some 0
      else if vs.length + 1 = A then vs.head? else (vs.rtake A)[1]? := by
  have hlen : (ringAfter A vs).length = A := by simp [ringAfter]
  have hsecond : nextSlot h = (ringAfter A vs)[1]? := by
    rw [nextSlot_second (by omega) hf, Nat.mod_eq_of_lt (by omega), List.getD_eq_getElem?_getD,
      List.getElem?_eq_getElem (by omega)]
    rfl
  rw [hsecond]
  split_ifs with htwo hone
  · rw [ringAfter_short (by omega), List.getElem?_append_left (by rw [List.length_replicate]; omega),
      List.getElem?_replicate_of_lt (by omega)]
  · have hfree : A - vs.length = 1 := by omega
    rw [ringAfter_short (by omega), hfree, List.head?_eq_getElem?]
    rfl
  · rw [ringAfter_long (by omega)]

/-- **When a 0 in the slot after the write index means that the array is not full.** -/
theorem testsNotFull_iff (hA : 2 ≤ A) (hs : stores vs (init A) = some h) :
    TestsNotFull A vs h ↔ SlotTells A vs := by
  have hstored := nextSlot_stored hA (filled_of_stores (by omega) hs)
  unfold TestsNotFull SlotTells
  rcases lt_trichotomy (vs.length + 1) A with htwo | hone | hfull
  · rw [if_pos (by omega)] at hstored
    exact iff_of_true (iff_of_true hstored (by omega)) (.inl (by omega))
  · rw [if_neg (by omega), if_pos hone] at hstored
    rw [hstored]
    constructor
    · intro htest
      exact .inr (.inl ⟨hone, htest.mpr (by omega)⟩)
    · rintro (htwo | ⟨-, hfirst⟩ | ⟨hfull, -⟩)
      · omega
      · exact iff_of_true hfirst (by omega)
      · omega
  · rw [if_neg (by omega), if_neg (by omega)] at hstored
    rw [hstored]
    constructor
    · intro htest
      exact .inr (.inr ⟨by omega, fun hzero => absurd (htest.mp hzero) (by omega)⟩)
    · rintro (htwo | ⟨hone, -⟩ | ⟨-, hsecond⟩)
      · omega
      · omega
      · exact iff_of_false hsecond (by omega)

end

/-- One sample in three slots. -/
theorem testsNotFull_one : TestsNotFull 3 [7] (⟨[7, 0, 0], 3, 1, 1⟩ : History Int) :=
  (testsNotFull_iff (by decide) rfl).mpr (.inl (by decide))

/-- With one sample in two slots the test already takes the array for full, and with two samples of
which the second is 0 it does not. -/
theorem test_wrong : ¬ (∀ (A : Nat) (vs : List Int) (h : History Int), 2 ≤ A →
    stores vs (init A) = some h → TestsNotFull A vs h) ∧
    (stores [7] (init 2 : History Int)).bind nextSlot = some 7 ∧
    (stores [7, 0] (init 2 : History Int)).bind nextSlot = some 0 := by
  refine ⟨fun hall => ?_, by decide, by decide⟩
  have htest := hall 2 [7] ⟨[7, 0], 2, 1, 1⟩ (by decide) (by decide)
  exact absurd (htest.mpr (by decide)) (by decide)

end Sampler
