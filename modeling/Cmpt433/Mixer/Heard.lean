import Cmpt433.Mixer.Mixing

/-!
# Which sounds a block contains (`work/pcmExample/audiomixer.c`)

The loop over the slots stops when `curr_size` has reached `size`; it adds the bytes of one sample
for each sound that it has mixed, however many samples that were.

* `every_heard_iff` — how many sounds a block of `size` values has room for.
-/

set_option autoImplicit false

namespace Mixer

variable {ι : Type}

/-! ## Counts before a position -/

section

variable {α : Type} {p : α → Bool}

theorem countP_take_lt {l : List α} {x : Nat} {a : α} (hx : l[x]? = some a) (ha : p a) :
    (l.take x).countP p < l.countP p := by
  obtain ⟨hlt, rfl⟩ := List.getElem?_eq_some_iff.mp hx
  have hsplit := congrArg (List.countP p) (List.take_append_drop x l)
  rw [List.countP_append, List.drop_eq_getElem_cons hlt, List.countP_cons_of_pos ha] at hsplit
  omega

/-- The last element with the property has all others before it. -/
theorem exists_last_countP {l : List α} (h : 0 < l.countP p) :
    ∃ x a, l[x]? = some a ∧ p a ∧ (l.take x).countP p + 1 = l.countP p := by
  induction l using List.reverseRecOn with
  | nil => cases h
  | append_singleton l a ih =>
    by_cases ha : p a
    · refine ⟨l.length, a, by simp, ha, ?_⟩
      rw [List.take_left' rfl, List.countP_append, List.countP_singleton, if_pos ha]
    · rw [List.countP_append, List.countP_singleton, if_neg ha, Nat.add_zero] at h ⊢
      obtain ⟨x, b, hx, hb, hcount⟩ := ih h
      have hlt := (List.getElem?_eq_some_iff.mp hx).1
      refine ⟨x, b, ?_, hb, ?_⟩
      · rw [List.getElem?_append_left hlt, hx]
      · rw [List.take_append_of_le_length hlt.le, hcount]

end

section

variable (sound : ι → wavedata_t)

/-- Every occupied slot holds a sound with data. -/
def ValidData (m : Table ι) : Prop :=
  ∀ b ∈ m.soundBites, ∀ pSound, b.pSound = some pSound → (sound pSound).pData.isSome

def occupied (m : Table ι) : List (playbackSound_t ι) :=
  m.soundBites.filter fun b => b.pSound.isSome

/-- Every occupied slot goes on by as many samples as it has left or the block has room for, each of
which is added to the buffer. -/
structure EveryHeard (size : Nat) (m : Table ι) : Prop where
  turns : ∀ (i : Nat) (b : playbackSound_t ι) (pSound : ι),
    m.soundBites[i]? = some b → b.pSound = some pSound →
      (fillPlaybackBuffer sound size m).1.soundBites[i]? =
          some (advance (sound pSound).numSamples size b) ∧
        ofSlot i (filling sound size m).events = turn (sound pSound).numSamples size i b
  buff : ∀ k, k < size → ∃ v : Int16, (fillPlaybackBuffer sound size m).2[k]? = some v ∧
    v.toInt = clipLevels.satSum ((occupied m).filterMap (sampleAt sound k))

variable {sound}

theorem slotData_occupied {b : playbackSound_t ι} {pSound : ι} (hp : b.pSound = some pSound)
    (hdata : (sound pSound).pData.isSome) :
    ∃ pData, slotData sound b = some ⟨(sound pSound).numSamples, pData⟩ := by
  obtain ⟨pData, hpData⟩ := Option.isSome_iff_exists.mp hdata
  exact ⟨pData, by rw [slotData, hp, Option.bind_some, hpData, Option.map_some]⟩

/-- With valid data the loop counts the occupied slots. -/
theorem slotData_isSome {m : Table ι} (hvalid : ValidData sound m) :
    ∀ b ∈ m.soundBites, (slotData sound b).isSome = b.pSound.isSome := by
  intro b hb
  cases hp : b.pSound with
  | none => rw [slotData, hp]; rfl
  | some pSound =>
    obtain ⟨pData, hdata⟩ := slotData_occupied hp (hvalid b hb pSound hp)
    rw [hdata]
    rfl

theorem countP_occupied {m : Table ι} (hvalid : ValidData sound m) :
    (m.soundBites.countP fun b => (slotData sound b).isSome) = (occupied m).length := by
  rw [occupied, ← List.countP_eq_length_filter]
  exact List.countP_congr fun b hb => by rw [slotData_isSome hvalid b hb]

/-- A turn in a block that is not empty does something. -/
theorem turn_ne_nil {numSamples size i : Nat} {b : playbackSound_t ι} (hsize : 1 ≤ size) :
    turn numSamples size i b ≠ [] := by
  intro hnil
  obtain ⟨hmixed, hreleased⟩ := List.append_eq_nil_iff.mp hnil
  have hshare : share numSamples b.location size = 0 := by simpa using hmixed
  rw [if_pos (by rw [share] at hshare ⊢; omega)] at hreleased
  cases hreleased

theorem mixedSlots_occupied {m : Table ι} (hvalid : ValidData sound m) {size : Nat}
    (hroom : 2 * (occupied m).length ≤ size + 1) :
    mixedSlots sound size 0 m.soundBites = occupied m := by
  have hfilter : (m.soundBites.filter fun b => (slotData sound b).isSome) = occupied m :=
    List.filter_congr (slotData_isSome hvalid)
  rw [mixedSlots, hfilter, List.take_of_length_le]
  unfold reach
  omega

/-- A fill, seen from an occupied slot. -/
theorem fill_turn {m : Table ι} (hvalid : ValidData sound m) (size : Nat) {i : Nat}
    {b : playbackSound_t ι} {pSound : ι} (hb : m.soundBites[i]? = some b)
    (hp : b.pSound = some pSound) :
    (size ≤ counted sound i m.soundBites ∧ ofSlot i (filling sound size m).events = []) ∨
    (counted sound i m.soundBites < size ∧
      (fillPlaybackBuffer sound size m).1.soundBites[i]? =
          some (advance (sound pSound).numSamples size b) ∧
        ofSlot i (filling sound size m).events = turn (sound pSound).numSamples size i b) := by
  obtain ⟨pData, hdata⟩ := slotData_occupied hp (hvalid b (List.mem_of_getElem? hb) pSound hp)
  have hslot := fillLoop_turn sound size m.soundBites 0 0 m.numSoundBites
    (List.replicate size 0) i b hb
  rw [List.length_replicate, Nat.zero_add, Nat.zero_add] at hslot
  rcases hslot with ⟨hnone | hfar, -, hnothing⟩ | ⟨numSamples, pData', hdata', hreached, hturn⟩
  · rw [hdata] at hnone
    cases hnone
  · exact .inl ⟨hfar, hnothing⟩
  · rw [hdata, Option.some.injEq] at hdata'
    cases hdata'
    exact .inr ⟨hreached, hturn⟩

/-- **Every sound is heard exactly in the blocks with two values for each sound, less one.** -/
theorem every_heard_iff {m : Table ι} (hvalid : ValidData sound m) {size : Nat} (hsize : 1 ≤ size) :
    EveryHeard sound size m ↔ 2 * (occupied m).length ≤ size + 1 := by
  have hcount := countP_occupied hvalid
  constructor
  · intro hheard
    by_contra hmany
    -- the last of the occupied slots is out of reach
    obtain ⟨i, b, hb, hoccupied, hlast⟩ := @exists_last_countP _
      (fun b => (slotData sound b).isSome) m.soundBites (by omega)
    rw [slotData_isSome hvalid b (List.mem_of_getElem? hb)] at hoccupied
    obtain ⟨pSound, hp⟩ := Option.isSome_iff_exists.mp hoccupied
    rcases fill_turn hvalid size hb hp with ⟨-, hnothing⟩ | ⟨hreached, -⟩
    · rw [(hheard.turns i b pSound hb hp).2] at hnothing
      exact turn_ne_nil hsize hnothing
    · unfold counted SAMPLE_SIZE at hreached
      omega
  · intro hroom
    refine ⟨fun i b pSound hb hp => ?_, fun k hk => ?_⟩
    · rcases fill_turn hvalid size hb hp with ⟨hfar, -⟩ | ⟨-, hturn⟩
      · have hbefore := @countP_take_lt _ (fun b => (slotData sound b).isSome) _ _ _ hb
          (by rw [slotData_isSome hvalid b (List.mem_of_getElem? hb), hp]; rfl)
        unfold counted SAMPLE_SIZE at hfar
        omega
      · exact hturn
    · rw [← mixedSlots_occupied hvalid hroom]
      exact fill_buff m hk

end

theorem threeSlots_valid (x y z : Int16) : ValidData (threeSounds x y z) threeSlots := by
  intro b _ pSound _
  fin_cases pSound <;> rfl

/-- Three sounds need five values. -/
theorem every_heard_three : EveryHeard (threeSounds 100 200 (-50)) 5 threeSlots :=
  (every_heard_iff (threeSlots_valid 100 200 (-50)) (by decide)).mpr (by decide)

/-- In a block of two values the second of three sounds is left out. -/
theorem sound_left_out : ¬ ∀ (sound : Fin 3 → wavedata_t) (m : Table (Fin 3)) (size : Nat),
    1 ≤ size → ValidData sound m → EveryHeard sound size m := by
  intro hall
  have hvalid := threeSlots_valid 100 200 (-50)
  have hturn := ((hall _ _ 2 (by decide) hvalid).turns 1 ⟨some 1, 0⟩ 1 rfl rfl).2
  exact absurd hturn (by decide)

end Mixer
