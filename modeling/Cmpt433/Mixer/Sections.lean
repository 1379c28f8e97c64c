import Cmpt433.Lib.CriticalSections
import Cmpt433.Mixer.Playback

/-!
# The mixer's functions one access at a time (`work/pcmExample/audiomixer.c`)

`AudioMixer_queueSound` and `fillPlaybackBuffer` run while their caller holds `audioMutex`.  Here
each test and each write of the two functions is a step of its own, and the playback buffer is
memory like the slots.

* `Point`, `Point.go` — the program points of the two functions, and one step.
* `queue_ends`, `fill_ends` — run to their ends, they do what the functions do in one piece.
-/

set_option autoImplicit false

namespace Mixer

open CriticalSections

variable {ι : Type}

/-- The slots and the playback buffer. -/
structure Audio (ι : Type) where
  table : Table ι
  playbackBuffer : List Int16

/-- The program points of the two functions; `size` is the argument of `fillPlaybackBuffer`. -/
inductive Point (ι : Type) where
  /-- `soundBites[i].pSound == NULL`, and the write to it -/
  | search (pSound : ι) (i : Nat)
  /-- `numSoundBites++` -/
  | count (pSound : ι)
  /-- `memset` -/
  | clear (size : Nat)
  /-- `i < MAX_SOUND_BITES && curr_size < size`, and the tests of slot `i` -/
  | slot (size i curr_size : Nat)
  /-- `j < numSamples && k < size` -/
  | test (size i curr_size j k offset : Nat)
  /-- `buff[k] + pData[j]`, and the write to `buff[k]` -/
  | add (size i curr_size j k offset : Nat)
  /-- `offset >= numSamples`, and what is done to the slot -/
  | finish (size i curr_size offset : Nat)
  deriving DecidableEq

def Point.op : Point ι → Op ι
  | .search pSound _ | .count pSound => .queue pSound
  | .clear size | .slot size _ _ | .test size _ _ _ _ _ | .add size _ _ _ _ _
  | .finish size _ _ _ => .fill size

/-- The first point of a call. -/
def Op.enter : Op ι → Point ι
  | .queue pSound => .search pSound 0
  | .fill size => .clear size

/-- Slot `i` is `b`, and `n` is added to `numSoundBites`. -/
def Table.write (m : Table ι) (i : Nat) (b : playbackSound_t ι) (n : Int) : Table ι where
  soundBites := m.soundBites.set i b
  length_eq := by rw [List.length_set, m.length_eq]
  numSoundBites := m.numSoundBites + n

theorem Table.ext {m m' : Table ι} (hbites : m.soundBites = m'.soundBites)
    (hcount : m.numSoundBites = m'.numSoundBites) : m = m' := by
  cases m
  cases m'
  cases hbites
  cases hcount
  rfl

/-- What `soundBites[i].pSound` points to. -/
def Table.pointed (sound : ι → wavedata_t) (m : Table ι) (i : Nat) : wavedata_t :=
  ((m.soundBites[i]?.bind fun b => b.pSound).map sound).getD ⟨0, none⟩

/-- `pData[j]`, 0 where there is none. -/
def wavedata_t.sample (w : wavedata_t) (j : Nat) : Int :=
  match w.pData with
  | none => 0
  | some pData => if h : j < w.numSamples then (pData ⟨j, h⟩).toInt else 0

/-- One step; `none`: the function returns.  The tests look at the fields of the sounds; the samples
are those of `contents`. -/
def Point.go (contents sound : ι → wavedata_t) :
    Point ι → Audio ι → Audio ι × Option (Point ι)
  | .search pSound i, a =>
    match a.table.soundBites[i]? with
    | none => (a, none)
    | some b =>
      if b.pSound.isNone then
        ({ a with table := a.table.write i { b with pSound := some pSound } 0 },
          some (.count pSound))
      else (a, some (.search pSound (i + 1)))
  | .count _, a =>
    ({ a with table := { a.table with numSoundBites := a.table.numSoundBites + 1 } }, none)
  | .clear size, a => ({ a with playbackBuffer := List.replicate size 0 }, some (.slot size 0 0))
  | .slot size i curr_size, a =>
    match a.table.soundBites[i]? with
    | none => (a, none)
    | some b =>
      if curr_size < size then
        match slotData sound b with
        | none => (a, some (.slot size (i + 1) curr_size))
        | some _ => (a, some (.test size i curr_size b.location 0 b.location))
      else (a, none)
  | .test size i curr_size j k offset, a =>
    if j < (a.table.pointed sound i).numSamples ∧ k < size then
      (a, some (.add size i curr_size j k offset))
    else (a, some (.finish size i curr_size offset))
  | .add size i curr_size j k offset, a =>
    ({ a with
        playbackBuffer := a.playbackBuffer.modify k fun b =>
          clipNum (b.toInt + (a.table.pointed contents i).sample j) },
      some (.test size i curr_size (j + 1) (k + 1) (offset + 1)))
  | .finish size i curr_size offset, a =>
    match a.table.soundBites[i]? with
    | none => (a, none)
    | some b =>
      if offset ≥ (a.table.pointed sound i).numSamples then
        ({ a with table := a.table.write i ⟨none, 0⟩ (-1) },
          some (.slot size (i + 1) (curr_size + SAMPLE_SIZE)))
      else
        ({ a with table := a.table.write i { b with location := offset } 0 },
          some (.slot size (i + 1) (curr_size + SAMPLE_SIZE)))

/-- A call that nothing comes in between. -/
def Op.whole (sound : ι → wavedata_t) : Op ι → Audio ι → Audio ι
  | .queue pSound, a =>
    { a with table := ((AudioMixer_queueSound sound pSound a.table).map Prod.snd).getD a.table }
  | .fill size, a =>
    let r := fillPlaybackBuffer sound size a.table
    ⟨r.1, r.2⟩

/-- A step stays in the call. -/
theorem Point.go_op {contents sound : ι → wavedata_t} {l l' : Point ι} {a : Audio ι}
    (h : (l.go contents sound a).2 = some l') : l'.op = l.op := by
  cases l with
  | count => cases h
  | clear | add =>
    cases h
    rfl
  | search pSound i =>
    simp only [Point.go] at h
    split at h
    · cases h
    · split at h
      · cases h
        rfl
      · cases h
        rfl
  | slot size i curr_size =>
    simp only [Point.go] at h
    split at h
    · cases h
    · split at h
      · split at h <;> cases h <;> rfl
      · cases h
  | test size i curr_size j k offset =>
    simp only [Point.go] at h
    split at h
    · cases h
      rfl
    · cases h
      rfl
  | finish size i curr_size offset =>
    simp only [Point.go] at h
    split at h
    · cases h
    · split at h <;> cases h <;> rfl

/-- A bound of the steps that are left of a call after the one at the point. -/
def Point.left : Point ι → Nat
  | .search _ i => MAX_SOUND_BITES + 2 - i
  | .count _ => 0
  | .clear size => MAX_SOUND_BITES * (2 * size + 4) + 1
  | .slot size i _ => (MAX_SOUND_BITES - i) * (2 * size + 4)
  | .test size i _ _ k _ => (MAX_SOUND_BITES - (i + 1)) * (2 * size + 4) + 2 * (size - k) + 2
  | .add size i _ _ k _ => (MAX_SOUND_BITES - (i + 1)) * (2 * size + 4) + 2 * (size - (k + 1)) + 3
  | .finish size i _ _ => (MAX_SOUND_BITES - (i + 1)) * (2 * size + 4) + 1

theorem slot_lt {m : Table ι} {i : Nat} {b : playbackSound_t ι} (h : m.soundBites[i]? = some b) :
    i < MAX_SOUND_BITES := by
  obtain ⟨hi, -⟩ := List.getElem?_eq_some_iff.mp h
  rw [← m.length_eq]
  exact hi

/-- Every call returns. -/
theorem Point.go_left {contents sound : ι → wavedata_t} {l l' : Point ι} {a : Audio ι}
    (h : (l.go contents sound a).2 = some l') : l'.left < l.left := by
  cases l with
  | count => cases h
  | clear size =>
    cases h
    exact Nat.lt_succ_self _
  | add size i curr_size j k offset =>
    cases h
    simp only [Point.left]
    omega
  | search pSound i =>
    simp only [Point.go] at h
    split at h
    · cases h
    · rename_i b hb
      have hi := slot_lt hb
      split at h <;> cases h <;> simp only [Point.left] <;> omega
  | slot size i curr_size =>
    simp only [Point.go] at h
    split at h
    · cases h
    · rename_i b hb
      obtain ⟨n, hn⟩ := Nat.exists_eq_add_of_lt (slot_lt hb)
      have hleft : MAX_SOUND_BITES - i = n + 1 := by omega
      have hrest : MAX_SOUND_BITES - (i + 1) = n := by omega
      split at h
      · split at h <;> cases h <;> simp only [Point.left, hleft, hrest, Nat.succ_mul] <;> omega
      · cases h
  | test size i curr_size j k offset =>
    simp only [Point.go] at h
    split at h
    · rename_i htest
      cases h
      simp only [Point.left]
      omega
    · cases h
      simp only [Point.left]
      omega
  | finish size i curr_size offset =>
    simp only [Point.go] at h
    split at h
    · cases h
    · split at h <;> cases h <;> exact Nat.lt_succ_self _

/-- A sample is read right after the test for it. -/
theorem Point.go_add {contents sound : ι → wavedata_t} {l : Point ι} {a : Audio ι}
    {size i curr_size j k offset : Nat}
    (h : (l.go contents sound a).2 = some (.add size i curr_size j k offset)) :
    (l.go contents sound a).1 = a ∧ j < (a.table.pointed sound i).numSamples := by
  cases l with
  | count | clear | add => cases h
  | search pSound i =>
    simp only [Point.go] at h
    split at h
    · cases h
    · split at h <;> cases h
  | slot size i curr_size =>
    simp only [Point.go] at h
    split at h
    · cases h
    · split at h
      · split at h <;> cases h
      · cases h
  | test size i curr_size j k offset =>
    simp only [Point.go] at h ⊢
    split at h
    · rename_i htest
      cases h
      rw [if_pos htest]
      exact ⟨rfl, htest.1⟩
    · cases h
  | finish size i curr_size offset =>
    simp only [Point.go] at h
    split at h
    · cases h
    · split at h <;> cases h

theorem pointed_write {m : Table ι} {i : Nat} {b b' : playbackSound_t ι} {n : Int} {p : ι}
    (hb : b ∈ (m.write i b' n).soundBites) (hp : b.pSound = some p) :
    (∃ b ∈ m.soundBites, b.pSound = some p) ∨ b'.pSound = some p := by
  rcases List.mem_or_eq_of_mem_set hb with hb | rfl
  · exact .inl ⟨b, hb, hp⟩
  · exact .inr hp

/-- A step puts no pointer into the table but that of the sound being queued. -/
theorem Point.go_pointed {contents sound : ι → wavedata_t} {l : Point ι} {a : Audio ι}
    {b : playbackSound_t ι} {p : ι} (hb : b ∈ (l.go contents sound a).1.table.soundBites)
    (hp : b.pSound = some p) :
    (∃ b ∈ a.table.soundBites, b.pSound = some p) ∨ l.op = .queue p := by
  cases l with
  | count | clear | add => exact .inl ⟨b, hb, hp⟩
  | search pSound i =>
    simp only [Point.go] at hb
    split at hb
    · exact .inl ⟨b, hb, hp⟩
    · split at hb
      · exact (pointed_write hb hp).imp id fun heq => congrArg Op.queue (Option.some.inj heq)
      · exact .inl ⟨b, hb, hp⟩
  | slot size i curr_size =>
    simp only [Point.go] at hb
    split at hb
    · exact .inl ⟨b, hb, hp⟩
    · split at hb
      · split at hb <;> exact .inl ⟨b, hb, hp⟩
      · exact .inl ⟨b, hb, hp⟩
  | test size i curr_size j k offset =>
    simp only [Point.go] at hb
    split at hb <;> exact .inl ⟨b, hb, hp⟩
  | finish size i curr_size offset =>
    simp only [Point.go] at hb
    split at hb
    · exact .inl ⟨b, hb, hp⟩
    · rename_i b' hb'
      split at hb
      · exact .inl ((pointed_write hb hp).resolve_right nofun)
      · refine .inl ((pointed_write hb hp).elim id fun heq => ?_)
        exact ⟨b', List.mem_of_getElem? hb', heq⟩

section

variable {contents sound sound' : ι → wavedata_t}

theorem slotData_congr {b : playbackSound_t ι}
    (h : ∀ p, b.pSound = some p → sound p = sound' p) : slotData sound b = slotData sound' b := by
  unfold slotData
  cases hp : b.pSound with
  | none => rfl
  | some p =>
    rw [Option.bind_some, Option.bind_some, h p hp]

theorem pointed_congr {m : Table ι} {i : Nat}
    (h : ∀ b ∈ m.soundBites, ∀ p, b.pSound = some p → sound p = sound' p) :
    m.pointed sound i = m.pointed sound' i := by
  unfold Table.pointed
  cases hb : m.soundBites[i]? with
  | none => rfl
  | some b =>
    cases hp : b.pSound with
    | none => simp [hp]
    | some p => simp [hp, h b (List.mem_of_getElem? hb) p hp]

/-- A step looks at no other sounds than those the table points to. -/
theorem go_congr {l : Point ι} {a : Audio ι}
    (h : ∀ b ∈ a.table.soundBites, ∀ p, b.pSound = some p → sound p = sound' p) :
    l.go contents sound a = l.go contents sound' a := by
  cases l with
  | search | count | clear | add => rfl
  | slot size i curr_size =>
    simp only [Point.go]
    cases hb : a.table.soundBites[i]? with
    | none => rfl
    | some b => simp only [slotData_congr (h b (List.mem_of_getElem? hb))]
  | test => simp only [Point.go, pointed_congr h]
  | finish => simp only [Point.go, pointed_congr h]

end

/-- The two functions as sections. -/
def code (sound : ι → wavedata_t) : Code (Audio ι) (Point ι) (Op ι) where
  op := Point.op
  go := Point.go sound sound
  whole := Op.whole sound
  go_op _ _ _ h := Point.go_op h

/-! ## `AudioMixer_queueSound` -/

section

variable {sound : ι → wavedata_t}

/-- The search, from a slot before which none is free. -/
theorem search_ends {pSound : ι} (hgood : 0 < (sound pSound).numSamples ∧
    (sound pSound).pData.isSome) {a : Audio ι} {i : Nat} (hi : i ≤ MAX_SOUND_BITES)
    (hbefore : ∀ x b, x < i → a.table.soundBites[x]? = some b → b.pSound.isNone = false) :
    Ends (Point.go sound sound) (.search pSound i) a (Op.whole sound (.queue pSound) a) := by
  have hlen := a.table.length_eq
  change Ends _ _ _ { a with table := ((AudioMixer_queueSound sound pSound a.table).map _).getD _ }
  unfold AudioMixer_queueSound
  rw [if_pos hgood]
  obtain ⟨n, hn⟩ := Nat.exists_eq_add_of_le hi
  induction n generalizing i with
  | zero =>
    have hnone : freeSlot a.table = none := by
      refine List.findIdx?_eq_none_iff.mpr fun b hb => ?_
      obtain ⟨x, hx, rfl⟩ := List.mem_iff_getElem.mp hb
      exact hbefore x _ (by omega) (List.getElem?_eq_getElem hx)
    rw [hnone]
    refine .last ?_
    rw [Point.go, List.getElem?_eq_none (by omega)]
    rfl
  | succ n ih =>
    obtain ⟨b, hb⟩ : ∃ b, a.table.soundBites[i]? = some b :=
      ⟨_, List.getElem?_eq_getElem (by omega)⟩
    obtain ⟨hlt, hget⟩ := List.getElem?_eq_some_iff.mp hb
    cases hfree : b.pSound.isNone with
    | false =>
      refine .next (by rw [Point.go, hb]; simp only [hfree]; rfl) (ih (by omega) ?_ (by omega))
      intro x b' hx hb'
      rcases Nat.lt_succ_iff_lt_or_eq.mp hx with hx | rfl
      · exact hbefore x b' hx hb'
      · obtain rfl := Option.some.inj (hb.symm.trans hb')
        exact hfree
    | true =>
      have hslot : freeSlot a.table = some i := by
        refine List.findIdx?_eq_some_iff_getElem.mpr ⟨hlt, by rw [hget]; exact hfree, ?_⟩
        intro x hx
        rw [hbefore x _ hx (List.getElem?_eq_getElem (by omega))]
        exact Bool.false_ne_true
      rw [hslot]
      refine .next (by rw [Point.go, hb]; simp only [hfree]; rfl) (.last ?_)
      refine Prod.ext ?_ rfl
      refine congrArg (Audio.mk · a.playbackBuffer) (Table.ext ?_ ?_)
      · change a.table.soundBites.set i _ = a.table.soundBites.modify i _
        rw [List.modify_eq_set_getElem?, hb]
        rfl
      · exact congrArg (· + 1) (Int.add_zero _)

theorem queue_ends {pSound : ι} (hgood : 0 < (sound pSound).numSamples ∧
    (sound pSound).pData.isSome) (a : Audio ι) :
    Ends (Point.go sound sound) (Op.queue pSound).enter a (Op.whole sound (.queue pSound) a) :=
  search_ends hgood (Nat.zero_le _) fun x _ hx => absurd hx (Nat.not_lt_zero x)

/-! ## `fillPlaybackBuffer` -/

section

variable {size i curr_size : Nat} {m : Table ι} {b : playbackSound_t ι}

theorem wavedata_t.eq_of_data {w : wavedata_t} {N : Nat} {pData : Fin N → Int16}
    (h : w.pData.map (fun pData => (⟨_, pData⟩ : Σ n : Nat, Fin n → Int16)) = some ⟨N, pData⟩) :
    w = ⟨N, some pData⟩ := by
  cases w with
  | mk N' data =>
    cases data with
    | none => cases h
    | some pData' =>
      cases h
      rfl

theorem wavedata_t.sample_eq {N : Nat} {pData : Fin N → Int16} {j : Nat} (hj : j < N) :
    (⟨N, some pData⟩ : wavedata_t).sample j = (pData ⟨j, hj⟩).toInt := dif_pos hj

theorem pointed_eq {N : Nat} {pData : Fin N → Int16} (hb : m.soundBites[i]? = some b)
    (hdata : slotData sound b = some ⟨N, pData⟩) : m.pointed sound i = ⟨N, some pData⟩ := by
  obtain ⟨pSound, hp, hd⟩ := Option.bind_eq_some_iff.mp hdata
  unfold Table.pointed
  rw [hb, Option.bind_some, hp, Option.map_some, Option.getD_some]
  exact wavedata_t.eq_of_data hd

/-- The inner loop does to the rest of the buffer what `mixLoop` does. -/
theorem test_ends {N : Nat} {pData : Fin N → Int16} (hw : m.pointed sound i = ⟨N, some pData⟩)
    {j k offset : Nat} {buff : List Int16} (hsize : buff.length = size) {r : Audio ι}
    (hrest : Ends (Point.go sound sound)
      (.finish size i curr_size (mixLoop pData j k offset (buff.drop k)).2.1)
      ⟨m, buff.take k ++ (mixLoop pData j k offset (buff.drop k)).1⟩ r) :
    Ends (Point.go sound sound) (.test size i curr_size j k offset) ⟨m, buff⟩ r := by
  obtain ⟨n, hn⟩ : ∃ n, size - k = n := ⟨_, rfl⟩
  induction n generalizing j k offset buff with
  | zero =>
    have hover : ¬ (j < N ∧ k < size) := by omega
    rw [List.drop_eq_nil_of_le (by omega), mixLoop, List.append_nil,
      List.take_of_length_le (by omega)] at hrest
    have hgo : Point.go sound sound (.test size i curr_size j k offset) ⟨m, buff⟩ =
        (⟨m, buff⟩, some (.finish size i curr_size offset)) := by
      rw [Point.go, hw, if_neg hover]
    exact .next hgo hrest
  | succ n ih =>
    have hk : k < buff.length := by omega
    rw [List.drop_eq_getElem_cons hk, mixLoop] at hrest
    by_cases hj : j < N
    · rw [dif_pos hj] at hrest
      obtain ⟨v, hv⟩ : ∃ v, v = clipNum (buff[k].toInt + (pData ⟨j, hj⟩).toInt) := ⟨_, rfl⟩
      have hadd : Point.go sound sound (.add size i curr_size j k offset) ⟨m, buff⟩ =
          (⟨m, buff.set k v⟩, some (.test size i curr_size (j + 1) (k + 1) (offset + 1))) := by
        rw [Point.go, hw, wavedata_t.sample_eq hj, List.modify_eq_set_getElem?,
          List.getElem?_eq_getElem hk, hv]
        rfl
      have hgo : Point.go sound sound (.test size i curr_size j k offset) ⟨m, buff⟩ =
          (⟨m, buff⟩, some (.add size i curr_size j k offset)) := by
        rw [Point.go, hw, if_pos ⟨hj, by omega⟩]
      have htake : (buff.set k v).take (k + 1) = buff.take k ++ [v] := by
        rw [List.take_succ_eq_append_getElem (by rw [List.length_set]; exact hk),
          List.take_set_of_le le_rfl, List.getElem_set_self]
      refine .next hgo (.next hadd (ih (by rw [List.length_set]; exact hsize) ?_ (by omega)))
      rw [List.drop_set_of_lt (Nat.lt_succ_self k), htake, List.append_assoc]
      subst hv
      exact hrest
    · rw [dif_neg hj, ← List.drop_eq_getElem_cons hk, List.take_append_drop] at hrest
      have hgo : Point.go sound sound (.test size i curr_size j k offset) ⟨m, buff⟩ =
          (⟨m, buff⟩, some (.finish size i curr_size offset)) := by
        rw [Point.go, hw, if_neg fun h => hj h.1]
      exact .next hgo hrest

theorem write_take (hb : m.soundBites[i]? = some b) (b' : playbackSound_t ι) (n : Int) :
    (m.write i b' n).soundBites.take (i + 1) = m.soundBites.take i ++ [b'] := by
  obtain ⟨hi, -⟩ := List.getElem?_eq_some_iff.mp hb
  change (m.soundBites.set i b').take (i + 1) = _
  rw [List.take_succ_eq_append_getElem (by rw [List.length_set]; exact hi),
    List.take_set_of_le le_rfl, List.getElem_set_self]

theorem write_drop (b' : playbackSound_t ι) (n : Int) :
    (m.write i b' n).soundBites.drop (i + 1) = m.soundBites.drop (i + 1) :=
  List.drop_set_of_lt (Nat.lt_succ_self i)

/-- The end of a slot's turn. -/
theorem finish_go {N : Nat} {pData : Fin N → Int16} (hb : m.soundBites[i]? = some b)
    (hw : m.pointed sound i = ⟨N, some pData⟩) (size curr_size : Nat) (buff : List Int16) :
    Point.go sound sound (.finish size i curr_size (b.location + share N b.location size)) ⟨m, buff⟩ =
      (⟨m.write i (advance N size b)
          (if b.location + share N b.location size ≥ N then -1 else 0), buff⟩,
        some (.slot size (i + 1) (curr_size + SAMPLE_SIZE))) := by
  simp only [Point.go, hb, hw, advance]
  split <;> rfl

/-- What the loop over the slots leaves when it starts at slot `i`. -/
def filledFrom (sound : ι → wavedata_t) (size i curr_size : Nat) (m : Table ι) (buff : List Int16) :
    Filled ι := fillLoop sound size i curr_size m.numSoundBites buff (m.soundBites.drop i)

/-- The outer loop does to the rest of the slots what `fillLoop` does. -/
theorem slot_ends {r : Audio ι} {n : Nat} {buff : List Int16} (hn : MAX_SOUND_BITES - i = n)
    (hsize : buff.length = size)
    (hbites : r.table.soundBites =
      m.soundBites.take i ++ (filledFrom sound size i curr_size m buff).soundBites)
    (hcount : r.table.numSoundBites = (filledFrom sound size i curr_size m buff).numSoundBites)
    (hbuff : r.playbackBuffer = (filledFrom sound size i curr_size m buff).buff) :
    Ends (Point.go sound sound) (.slot size i curr_size) ⟨m, buff⟩ r := by
  have hlen := m.length_eq
  induction n generalizing i curr_size m buff with
  | zero =>
    unfold filledFrom at hbites hcount hbuff
    rw [List.drop_eq_nil_of_le (by omega)] at hbites hcount hbuff
    rw [List.take_of_length_le (by omega)] at hbites
    refine .last ?_
    rw [Point.go, List.getElem?_eq_none (show m.soundBites.length ≤ i by omega)]
    exact Prod.ext (congrArg₂ Audio.mk (Table.ext (by rw [hbites]; simp [fillLoop]) hcount.symm)
      hbuff.symm) rfl
  | succ n ih =>
    obtain ⟨b, hb⟩ : ∃ b, m.soundBites[i]? = some b := ⟨_, List.getElem?_eq_getElem (by omega)⟩
    obtain ⟨hi, hget⟩ := List.getElem?_eq_some_iff.mp hb
    unfold filledFrom at hbites hcount hbuff
    rw [List.drop_eq_getElem_cons hi, hget] at hbites hcount hbuff
    rcases fillLoop_cons sound size i curr_size m.numSoundBites buff b
      (m.soundBites.drop (i + 1)) with ⟨hcurr, hr⟩ | ⟨hcurr, hdata, hr⟩ | ⟨N, pData, hcurr, hdata, hr⟩
    all_goals rw [hr] at hbites hcount hbuff
    · refine .last ?_
      simp only [Point.go, hb]
      rw [if_neg (by omega)]
      have hwhole : m.soundBites.take i ++ b :: m.soundBites.drop (i + 1) = m.soundBites := by
        rw [← hget, ← List.drop_eq_getElem_cons hi, List.take_append_drop]
      exact Prod.ext (congrArg₂ Audio.mk (Table.ext (by rw [hbites, hwhole]) hcount.symm)
        hbuff.symm) rfl
    · have hgo : Point.go sound sound (.slot size i curr_size) ⟨m, buff⟩ =
          (⟨m, buff⟩, some (.slot size (i + 1) curr_size)) := by
        simp only [Point.go, hb, hdata]
        rw [if_pos hcurr]
      refine .next hgo (ih (by omega) hsize ?_ hcount hbuff hlen)
      rw [hbites, List.take_succ_eq_append_getElem hi, hget, List.append_assoc]
      rfl
    · have hw := pointed_eq hb hdata
      have hgo : Point.go sound sound (.slot size i curr_size) ⟨m, buff⟩ =
          (⟨m, buff⟩, some (.test size i curr_size b.location 0 b.location)) := by
        simp only [Point.go, hb, hdata]
        rw [if_pos hcurr]
      refine .next hgo (test_ends hw hsize ?_)
      rw [List.drop_zero, List.take_zero, List.nil_append, mixLoop_offset, hsize]
      rw [hsize] at hbites hcount
      obtain ⟨n', hn'⟩ : ∃ n', n' = if b.location + share N b.location size ≥ N then (-1 : Int)
        else 0 := ⟨_, rfl⟩
      have hsum : (if b.location + share N b.location size ≥ N then m.numSoundBites - 1
          else m.numSoundBites) = m.numSoundBites + n' := by
        rw [hn']
        split
        · rfl
        · rw [Int.add_zero]
      have hfinish := finish_go hb hw size curr_size
        (mixLoop pData b.location 0 b.location buff).1
      rw [← hn'] at hfinish
      rw [hsize, hsum] at hbuff
      rw [hsum] at hbites hcount
      refine .next hfinish (ih (by omega) (by rw [mixLoop_length, hsize]) ?_ ?_ ?_ ?_)
      · rw [hbites, write_take hb, filledFrom, write_drop, List.append_assoc]
        rfl
      · rw [hcount, filledFrom, write_drop]
        rfl
      · rw [hbuff, filledFrom, write_drop]
        rfl
      · exact Table.length_eq _

end

/-- **A fill that nothing comes in between fills the buffer as `fillPlaybackBuffer` does.** -/
theorem fill_ends (size : Nat) (a : Audio ι) :
    Ends (Point.go sound sound) (Op.fill size).enter a (Op.whole sound (.fill size) a) := by
  have hall : filledFrom sound size 0 0 a.table (List.replicate size 0) =
      filling sound size a.table := rfl
  refine .next rfl (slot_ends rfl List.length_replicate ?_ ?_ ?_)
  · rw [hall]
    rfl
  · rfl
  · rfl

end

end Mixer
