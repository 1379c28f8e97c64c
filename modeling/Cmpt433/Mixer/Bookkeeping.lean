import Cmpt433.Mixer.Heard
import Cmpt433.Mixer.Playback

/-!
# The slot table and its counter (`work/pcmExample/audiomixer.c`)

`AudioMixer_queueSound` counts `numSoundBites` up where it fills a slot, and `fillPlaybackBuffer`
counts it down where it sets one to `NULL`.

* `fillLoop_counter` — what a fill takes from the counter, it takes from the table.
* `table_kept` — counter, table and locations fit in every state of a run.
-/

set_option autoImplicit false

namespace Mixer

open Runs

variable {ι : Type}

/-- Every slot is occupied. -/
def Full (m : Table ι) : Prop := ∀ b ∈ m.soundBites, b.pSound.isSome

/-- A sound is refused exactly by a full table, which stays as it is.  Otherwise one slot changes,
which was free. -/
structure QueuedOnce (pSound : ι) (m : Table ι) (r : Int) (m' : Table ι) : Prop where
  refused : r = -1 ↔ Full m
  unchanged : r = -1 → m' = m
  one_slot : r ≠ -1 → r = 0 ∧ m'.numSoundBites = m.numSoundBites + 1 ∧
    ∃ (i : Nat) (b : playbackSound_t ι), m.soundBites[i]? = some b ∧ b.pSound = none ∧
      m'.soundBites[i]? = some { b with pSound := some pSound } ∧
      ∀ x, x ≠ i → m'.soundBites[x]? = m.soundBites[x]?

section

variable (sound : ι → wavedata_t)

/-- The assertions of `AudioMixer_queueSound` hold. -/
def Op.Good : Op ι → Prop
  | .queue pSound => 0 < (sound pSound).numSamples ∧ (sound pSound).pData.isSome
  | .fill _ => True

structure TableKept (m : Table ι) : Prop where
  counter : m.numSoundBites = (occupied m).length
  range : 0 ≤ m.numSoundBites ∧ m.numSoundBites ≤ MAX_SOUND_BITES
  locations : ∀ b ∈ m.soundBites, ∀ pSound, b.pSound = some pSound →
    b.location < (sound pSound).numSamples
  queued : ∀ pSound, 0 < (sound pSound).numSamples → (sound pSound).pData.isSome →
    ∃ r m', AudioMixer_queueSound sound pSound m = some (r, m') ∧ QueuedOnce pSound m r m'

/-- The invariant of the two functions. -/
structure Booked (m : Table ι) : Prop where
  counter : m.numSoundBites = (occupied m).length
  slots : TableOk sound m

variable {sound}

theorem freeSlot_eq_none {m : Table ι} : freeSlot m = none ↔ Full m := by
  unfold freeSlot Full
  rw [List.findIdx?_eq_none_iff]
  refine forall₂_congr fun b _ => ?_
  cases b.pSound <;> simp

/-! ## The counter -/

theorem occupied_length (m : Table ι) :
    (occupied m).length = m.soundBites.countP fun b => b.pSound.isSome :=
  List.countP_eq_length_filter.symm

/-- A free slot that is filled counts one more. -/
theorem countP_modify {α : Type} {p : α → Bool} {f : α → α} {l : List α} {i : Nat} {a : α}
    (ha : l[i]? = some a) (hp : p a = false) (hf : p (f a)) :
    (l.modify i f).countP p = l.countP p + 1 := by
  obtain ⟨hi, rfl⟩ := List.getElem?_eq_some_iff.mp ha
  have hsplit := congrArg (List.countP p) (List.take_append_drop i l)
  rw [List.countP_append, List.drop_eq_getElem_cons hi, List.countP_cons_of_neg (by simp [hp])]
    at hsplit
  rw [List.modify_eq_take_cons_drop hi, List.countP_append, List.countP_cons_of_pos hf]
  omega

/-- After its turn a slot is free, or holds the sound that it held. -/
theorem advance_pSound (numSamples size : Nat) (b : playbackSound_t ι) :
    (advance numSamples size b).pSound =
      if b.location + share numSamples b.location size ≥ numSamples then none else b.pSound := by
  unfold advance
  split <;> rfl

/-- **What a fill takes from the counter, it takes from the table.** -/
theorem fillLoop_counter (sound : ι → wavedata_t) (size : Nat) (bites : List (playbackSound_t ι)) :
    ∀ (i curr_size : Nat) (n : Int) (buff : List Int16),
      let r := fillLoop sound size i curr_size n buff bites
      r.numSoundBites + (bites.countP fun b => b.pSound.isSome : Nat) =
        n + (r.soundBites.countP fun b => b.pSound.isSome : Nat) := by
  induction bites with
  | nil => intros; rfl
  | cons b bites ih =>
    intro i curr_size n buff
    rcases fillLoop_cons sound size i curr_size n buff b bites with
      ⟨-, hr⟩ | ⟨-, -, hr⟩ | ⟨N, pData, -, hdata, hr⟩ <;> simp only [hr]
    · have hrest := ih (i + 1) curr_size n buff
      simp only [List.countP_cons] at hrest ⊢
      push_cast
      omega
    · obtain ⟨pSound, hp, -⟩ := slotData_eq_some hdata
      have hturn := advance_pSound N buff.length b
      -- a sound that is over leaves a free slot, and the counter one less
      by_cases hover : b.location + share N b.location buff.length ≥ N
      · have hrest := ih (i + 1) (curr_size + SAMPLE_SIZE) (n - 1)
          (mixLoop pData b.location 0 b.location buff).1
        rw [if_pos hover] at hturn
        simp only [if_pos hover, List.countP_cons, hturn, hp, Option.isSome_none,
          Option.isSome_some, if_true, Bool.false_eq_true, if_false] at hrest ⊢
        push_cast
        omega
      · have hrest := ih (i + 1) (curr_size + SAMPLE_SIZE) n
          (mixLoop pData b.location 0 b.location buff).1
        rw [if_neg hover] at hturn
        simp only [if_neg hover, List.countP_cons, hturn, hp, Option.isSome_some, if_true]
          at hrest ⊢
        push_cast
        omega

theorem fill_counter {m : Table ι} (hcounter : m.numSoundBites = (occupied m).length)
    (size : Nat) :
    (fillPlaybackBuffer sound size m).1.numSoundBites =
      (occupied (fillPlaybackBuffer sound size m).1).length := by
  have hloop := fillLoop_counter sound size m.soundBites 0 0 m.numSoundBites
    (List.replicate size 0)
  rw [occupied_length] at hcounter ⊢
  change (filling sound size m).numSoundBites =
    ((filling sound size m).soundBites.countP fun b => b.pSound.isSome : Nat)
  unfold filling
  omega

/-! ## The calls -/

/-- What `AudioMixer_queueSound` does with a good sound. -/
theorem queueSound_once {m : Table ι} {pSound : ι}
    (hgood : 0 < (sound pSound).numSamples ∧ (sound pSound).pData.isSome) :
    ∃ r m', AudioMixer_queueSound sound pSound m = some (r, m') ∧ QueuedOnce pSound m r m' := by
  unfold AudioMixer_queueSound
  rw [if_pos hgood]
  cases hfree : freeSlot m with
  | none => exact ⟨-1, m, rfl, iff_of_true rfl (freeSlot_eq_none.mp hfree), fun _ => rfl, nofun⟩
  | some i =>
    obtain ⟨hi, hnone, -⟩ := List.findIdx?_eq_some_iff_getElem.mp hfree
    have hb := List.getElem?_eq_getElem hi
    refine ⟨0, _, rfl, ?_, nofun, fun _ => ⟨rfl, rfl, i, _, hb, by simpa using hnone, ?_, ?_⟩⟩
    · exact iff_of_false nofun fun hfull => by rw [freeSlot_eq_none.mpr hfull] at hfree; cases hfree
    · rw [List.getElem?_modify_eq, hb]
      rfl
    · exact fun x hx => List.getElem?_modify_ne _ _ hx.symm

theorem queueSound_counter {m m' : Table ι} {pSound : ι} {r : Int}
    (h : AudioMixer_queueSound sound pSound m = some (r, m'))
    (hcounter : m.numSoundBites = (occupied m).length) :
    m'.numSoundBites = (occupied m').length := by
  obtain ⟨hgood, ⟨-, -, rfl⟩ | ⟨i, b, rfl, -, hb, hnone, hm'⟩⟩ := queueSound_spec h
  · exact hcounter
  · obtain ⟨r', m'', h', honce⟩ := queueSound_once (m := m) hgood
    obtain ⟨rfl, rfl⟩ := Prod.mk.inj (Option.some.inj (h.symm.trans h'))
    obtain ⟨-, hcount, -⟩ := honce.one_slot (by decide)
    rw [occupied_length, hm', countP_modify hb (by rw [hnone]; rfl) rfl, hcount, hcounter,
      occupied_length]
    rfl

theorem op_booked {op : Op ι} {m : Table ι} (hgood : op.Good sound) (hm : Booked sound m) :
    ∃ m', step sound (some m) op = some m' ∧ Booked sound m' := by
  cases op with
  | queue pSound =>
    obtain ⟨r, m', hq, -⟩ := queueSound_once (m := m) hgood
    have happly : Op.apply sound m (.queue pSound) =
        some (m', (freeSlot m).toList.map fun i => .queued i pSound) := by rw [Op.apply, hq]; rfl
    exact ⟨m', by rw [step, Option.bind_some, happly]; rfl,
      queueSound_counter hq hm.counter, op_tableOk happly hm.slots⟩
  | fill size =>
    exact ⟨(fillPlaybackBuffer sound size m).1, rfl, fill_counter hm.counter size,
      @op_tableOk ι sound (.fill size) _ _ _ rfl hm.slots⟩

theorem init_booked : Booked sound (AudioMixer_init (statics : Table ι)) where
  counter := rfl
  slots := init_tableOk statics

theorem Booked.kept {m : Table ι} (hm : Booked sound m) : TableKept sound m where
  counter := hm.counter
  range := by
    have hle : (occupied m).length ≤ m.soundBites.length := List.length_filter_le ..
    have hlen := m.length_eq
    have hcounter := hm.counter
    omega
  locations b hb pSound hp := by
    have hslot := hm.slots b hb
    simp only [SlotOk, hp] at hslot
    exact hslot.1
  queued pSound hpos hdata := queueSound_once ⟨hpos, hdata⟩

/-- **Counter, table and locations fit in every state of every run.** -/
theorem table_kept {ops : List (Op ι)} (hops : ∀ op ∈ ops, op.Good sound) :
    ∃ m, after (step sound) (some (AudioMixer_init statics)) ops = some m ∧ TableKept sound m := by
  have hstep : ∀ (o : Option (Table ι)) (op : Op ι), (∃ m, o = some m ∧ Booked sound m) →
      op.Good sound → ∃ m, step sound o op = some m ∧ Booked sound m := by
    rintro _ op ⟨m, rfl, hm⟩ hgood
    exact op_booked hgood hm
  obtain ⟨m, hm, hbooked⟩ := invariant hstep ⟨_, rfl, init_booked⟩
    ((throughout_iff_forall _ ops).mpr hops)
  exact ⟨m, hm, hbooked.kept⟩

end

/-- A sound of three samples, in two slots that are both released in the third call. -/
theorem table_kept_two : ∃ m, after (step fun _ => ⟨3, some fun _ => 5⟩)
    (some (AudioMixer_init (statics : Table Unit))) [.queue (), .queue (), .fill 4] = some m ∧
    TableKept (fun _ => ⟨3, some fun _ => 5⟩) m :=
  table_kept fun op hop => by
    simp only [List.mem_cons, List.not_mem_nil, or_false] at hop
    rcases hop with rfl | rfl | rfl
    · exact ⟨by decide, rfl⟩
    · exact ⟨by decide, rfl⟩
    · trivial

end Mixer
