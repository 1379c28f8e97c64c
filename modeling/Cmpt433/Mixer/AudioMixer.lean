import Mathlib

/-!
# The slot table of the audio mixer (`work/pcmExample/audiomixer.c`)

A pointer to a sound is a value of the parameter `ι`, and `sound` says what it points at; the
sounds are not changed or freed while the mixer holds them.

* `AudioMixer_init`, `AudioMixer_queueSound`, `fillPlaybackBuffer` — the three functions that
  touch the table.  An `assert` that fails is `none`.
* `mixLoop` — the inner loop of a fill, walking the rest of the buffer from `buff[k]` on.
* `fillLoop` — its outer loop, walking the slots from slot `i` on.
* `Event` — what the loops do, one `mixed` for each pass of the inner loop.

The specifications are `mixLoop_passes`, `mixLoop_buff` and, for one slot of the table,
`fillLoop_turn`.
-/

set_option autoImplicit false

namespace Mixer

def MAX_SOUND_BITES : Nat := 30
def SAMPLE_SIZE : Nat := 2
def SHRT_MAX : Int := 32767
def SHRT_MIN : Int := -32768

/-- The block `pData` has `numSamples` elements; `none` is the null pointer. -/
structure wavedata_t where
  numSamples : Nat
  pData : Option (Fin numSamples → Int16)

structure playbackSound_t (ι : Type) where
  pSound : Option ι
  location : Nat
  deriving DecidableEq

/-- The file's statics: `soundBites[MAX_SOUND_BITES]` and `numSoundBites`. -/
structure Table (ι : Type) where
  soundBites : List (playbackSound_t ι)
  length_eq : soundBites.length = MAX_SOUND_BITES
  numSoundBites : Int

inductive Event (ι : Type) where
  /-- The sound was put into slot `i`. -/
  | queued (i : Nat) (pSound : ι)
  /-- `pData[j]` of the sound in slot `i` was added to `buff[k]`. -/
  | mixed (i j k : Nat)
  /-- Slot `i` was set to `NULL`. -/
  | released (i : Nat)
  deriving DecidableEq

def Event.slot {ι : Type} : Event ι → Nat
  | .queued i _ | .mixed i _ _ | .released i => i

def Event.isQueued {ι : Type} : Event ι → Bool
  | .queued _ _ => true
  | _ => false

variable {ι : Type}

/-- The statics when the program starts. -/
def statics : Table ι where
  soundBites := List.replicate MAX_SOUND_BITES ⟨none, 0⟩
  length_eq := List.length_replicate
  numSoundBites := 0

def AudioMixer_init (m : Table ι) : Table ι :=
  { m with
    soundBites := m.soundBites.map fun _ => ⟨none, 0⟩
    length_eq := by rw [List.length_map, m.length_eq] }

/-- The search `while (i < MAX_SOUND_BITES)` for a slot that is `NULL`. -/
def freeSlot (m : Table ι) : Option Nat := m.soundBites.findIdx? fun b => b.pSound.isNone

def clipNum (num : Int) : Int16 :=
  if num > SHRT_MAX then Int16.ofInt (SHRT_MAX - 1)
  else if num < SHRT_MIN then Int16.ofInt (SHRT_MIN + 1)
  else Int16.ofInt num

/-- `for (; j < numSamples && k < size; j++, k++)`: the buffer from `k` on, `offset`, and the
passes made.  `k < size` says that there is a rest of the buffer. -/
def mixLoop {numSamples : Nat} (pData : Fin numSamples → Int16) :
    (j k offset : Nat) → List Int16 → List Int16 × Nat × List (Nat × Nat)
  | _, _, offset, [] => ([], offset, [])
  | j, k, offset, b :: buff =>
    if h : j < numSamples then
      let shrt_data := b.toInt + (pData ⟨j, h⟩).toInt
      let (buff, offset, passes) := mixLoop pData (j + 1) (k + 1) (offset + 1) buff
      (clipNum shrt_data :: buff, offset, (j, k) :: passes)
    else (b :: buff, offset, [])

/-- What the loop over the slots leaves behind, and what it did. -/
structure Filled (ι : Type) where
  soundBites : List (playbackSound_t ι)
  numSoundBites : Int
  buff : List Int16
  events : List (Event ι)

section

variable (sound : ι → wavedata_t)

def AudioMixer_queueSound (pSound : ι) (m : Table ι) : Option (Int × Table ι) :=
  if 0 < (sound pSound).numSamples ∧ (sound pSound).pData.isSome then
    match freeSlot m with
    | some i => some (0,
        { soundBites := m.soundBites.modify i fun b => { b with pSound := some pSound }
          length_eq := by rw [List.length_modify, m.length_eq]
          numSoundBites := m.numSoundBites + 1 })
    | none => some (-1, m)
  else none

/-- The data of a slot that passes the tests `pSound != NULL` and `pSound->pData != 0`. -/
def slotData (b : playbackSound_t ι) : Option (Σ numSamples : Nat, Fin numSamples → Int16) :=
  b.pSound.bind fun pSound => (sound pSound).pData.map fun pData => ⟨_, pData⟩

def fillLoop (size : Nat) : (i curr_size : Nat) → (numSoundBites : Int) → (buff : List Int16) →
    List (playbackSound_t ι) → Filled ι
  | _, _, numSoundBites, buff, [] => ⟨[], numSoundBites, buff, []⟩
  | i, curr_size, numSoundBites, buff, b :: bites =>
    if curr_size < size then
      match slotData sound b with
      | none =>
        let r := fillLoop size (i + 1) curr_size numSoundBites buff bites
        { r with soundBites := b :: r.soundBites }
      | some ⟨numSamples, pData⟩ =>
        let (buff, offset, passes) := mixLoop pData b.location 0 b.location buff
        let mixed := passes.map fun (j, k) => Event.mixed i j k
        if offset ≥ numSamples then
          -- the sound has finished playing
          let r := fillLoop size (i + 1) (curr_size + SAMPLE_SIZE) (numSoundBites - 1) buff bites
          { r with
            soundBites := ⟨none, 0⟩ :: r.soundBites
            events := mixed ++ [.released i] ++ r.events }
        else
          let r := fillLoop size (i + 1) (curr_size + SAMPLE_SIZE) numSoundBites buff bites
          { r with
            soundBites := { b with location := offset } :: r.soundBites
            events := mixed ++ r.events }
    else ⟨b :: bites, numSoundBites, buff, []⟩

def filling (size : Nat) (m : Table ι) : Filled ι :=
  fillLoop sound size 0 0 m.numSoundBites (List.replicate size 0) m.soundBites

end

/-! ## The inner loop -/

section

variable {numSamples : Nat} (pData : Fin numSamples → Int16)

@[simp] theorem mixLoop_length (j k offset : Nat) (buff : List Int16) :
    (mixLoop pData j k offset buff).1.length = buff.length := by
  fun_induction mixLoop pData j k offset buff with
  | case1 => rfl
  | case2 j k offset b buff h shrt_data buff' offset' passes heq ih =>
    rw [heq] at ih
    simpa using ih
  | case3 => rfl

/-- How many samples the loop mixes from index `j` on. -/
def share (numSamples j size : Nat) : Nat := min (numSamples - j) size

theorem mixLoop_passes (j k offset : Nat) (buff : List Int16) :
    (mixLoop pData j k offset buff).2.2 =
      (List.range (share numSamples j buff.length)).map fun m => (j + m, k + m) := by
  fun_induction mixLoop pData j k offset buff with
  | case1 j k offset => simp [share]
  | case2 j k offset b buff h shrt_data buff' offset' passes heq ih =>
    rw [heq] at ih
    change passes = _ at ih
    have hshare : share numSamples j (b :: buff).length =
        share numSamples (j + 1) buff.length + 1 := by
      simp only [share, List.length_cons]; omega
    change (j, k) :: passes = _
    rw [hshare, List.range_succ_eq_map, List.map_cons, List.map_map, ih]
    refine congrArg (_ :: ·) (List.map_congr_left fun m _ => ?_)
    simp only [Function.comp_apply, Nat.succ_eq_add_one, Prod.mk.injEq]
    omega
  | case3 j k offset b buff h =>
    have : share numSamples j (b :: buff).length = 0 := by simp only [share]; omega
    rw [this]; rfl

theorem mixLoop_offset (j k offset : Nat) (buff : List Int16) :
    (mixLoop pData j k offset buff).2.1 = offset + share numSamples j buff.length := by
  fun_induction mixLoop pData j k offset buff with
  | case1 => simp [share]
  | case2 j k offset b buff h shrt_data buff' offset' passes heq ih =>
    rw [heq] at ih
    simp only [share, List.length_cons] at ih ⊢
    omega
  | case3 => simp only [share]; omega

end

/-! ## One slot in a fill -/

section

variable (sound : ι → wavedata_t)

/-- The slot after its turn. -/
def advance (numSamples size : Nat) (b : playbackSound_t ι) : playbackSound_t ι :=
  if b.location + share numSamples b.location size ≥ numSamples then ⟨none, 0⟩
  else { b with location := b.location + share numSamples b.location size }

/-- What the turn of slot `i` does. -/
def turn (numSamples size i : Nat) (b : playbackSound_t ι) : List (Event ι) :=
  (List.range (share numSamples b.location size)).map (fun m => .mixed i (b.location + m) m) ++
    if b.location + share numSamples b.location size ≥ numSamples then [.released i] else []

/-- The events of slot `i`. -/
def ofSlot (i : Nat) (es : List (Event ι)) : List (Event ι) := es.filter fun e => e.slot == i

@[simp] theorem ofSlot_nil (i : Nat) : ofSlot i ([] : List (Event ι)) = [] := rfl

@[simp] theorem ofSlot_append (i : Nat) (es fs : List (Event ι)) :
    ofSlot i (es ++ fs) = ofSlot i es ++ ofSlot i fs := List.filter_append ..

theorem ofSlot_eq_self {i : Nat} {es : List (Event ι)} (h : ∀ e ∈ es, e.slot = i) :
    ofSlot i es = es := List.filter_eq_self.mpr fun e he => by simp [h e he]

theorem ofSlot_eq_nil {i : Nat} {es : List (Event ι)} (h : ∀ e ∈ es, e.slot ≠ i) :
    ofSlot i es = [] := List.filter_eq_nil_iff.mpr fun e he => by simp [h e he]

theorem turn_events {numSamples size i : Nat} {b : playbackSound_t ι} :
    ∀ e ∈ turn numSamples size i b, e.slot = i ∧ e.isQueued = false := by
  intro e he
  rw [turn, List.mem_append] at he
  rcases he with he | he
  · obtain ⟨m, -, rfl⟩ := List.mem_map.mp he
    exact ⟨rfl, rfl⟩
  · split at he
    · rw [List.mem_singleton] at he
      rw [he]
      exact ⟨rfl, rfl⟩
    · cases he

/-- One step of the loop over the slots: a slot out of reach or without data is skipped, any other
takes its turn. -/
theorem fillLoop_cons (size i curr_size : Nat) (n : Int) (buff : List Int16)
    (b : playbackSound_t ι) (bites : List (playbackSound_t ι)) :
    let r := fillLoop sound size i curr_size n buff (b :: bites)
    (curr_size ≥ size ∧ r = ⟨b :: bites, n, buff, []⟩) ∨
    (curr_size < size ∧ slotData sound b = none ∧
      let rest := fillLoop sound size (i + 1) curr_size n buff bites
      r = { rest with soundBites := b :: rest.soundBites }) ∨
    ∃ numSamples pData, curr_size < size ∧ slotData sound b = some ⟨numSamples, pData⟩ ∧
      let rest := fillLoop sound size (i + 1) (curr_size + SAMPLE_SIZE)
        (if b.location + share numSamples b.location buff.length ≥ numSamples then n - 1 else n)
        (mixLoop pData b.location 0 b.location buff).1 bites
      r = { rest with
        soundBites := advance numSamples buff.length b :: rest.soundBites
        events := turn numSamples buff.length i b ++ rest.events } := by
  simp only [fillLoop]
  by_cases hcurr : curr_size < size
  · rw [if_pos hcurr]
    cases hdata : slotData sound b with
    | none => exact .inr (.inl ⟨hcurr, rfl, rfl⟩)
    | some d =>
      obtain ⟨numSamples, pData⟩ := d
      refine .inr (.inr ⟨numSamples, pData, hcurr, rfl, ?_⟩)
      simp only [mixLoop_offset, mixLoop_passes, advance, turn, List.map_map]
      split <;> simp [Function.comp_def]
  · rw [if_neg hcurr]
    exact .inl ⟨by omega, rfl⟩

theorem fillLoop_length (size : Nat) (bites : List (playbackSound_t ι)) :
    ∀ (i curr_size : Nat) (n : Int) (buff : List Int16),
      (fillLoop sound size i curr_size n buff bites).soundBites.length = bites.length := by
  induction bites with
  | nil => intros; rfl
  | cons b bites ih =>
    intro i curr_size n buff
    rcases fillLoop_cons sound size i curr_size n buff b bites with
      ⟨-, hr⟩ | ⟨-, -, hr⟩ | ⟨_, _, -, -, hr⟩ <;> simp [hr, ih]

theorem fillLoop_events (size : Nat) (bites : List (playbackSound_t ι)) :
    ∀ (i curr_size : Nat) (n : Int) (buff : List Int16),
      ∀ e ∈ (fillLoop sound size i curr_size n buff bites).events,
        i ≤ e.slot ∧ e.isQueued = false := by
  induction bites with
  | nil => intro i curr_size n buff e he; cases he
  | cons b bites ih =>
    intro i curr_size n buff e he
    rcases fillLoop_cons sound size i curr_size n buff b bites with
      ⟨-, hr⟩ | ⟨-, -, hr⟩ | ⟨_, _, -, -, hr⟩ <;> rw [hr] at he
    · cases he
    · exact ⟨Nat.le_of_succ_le (ih _ _ _ _ e he).1, (ih _ _ _ _ e he).2⟩
    · rcases List.mem_append.mp he with he | he
      · exact ⟨(turn_events e he).1.ge, (turn_events e he).2⟩
      · exact ⟨Nat.le_of_succ_le (ih _ _ _ _ e he).1, (ih _ _ _ _ e he).2⟩

/-- From slot `i` on nothing happens in the slots before. -/
theorem ofSlot_fillLoop {x i : Nat} (hx : x < i) (size curr_size : Nat) (n : Int)
    (buff : List Int16) (bites : List (playbackSound_t ι)) :
    ofSlot x (fillLoop sound size i curr_size n buff bites).events = [] := by
  refine ofSlot_eq_nil fun e he heq => ?_
  have hle := (fillLoop_events sound size bites i curr_size n buff e he).1
  omega

/-- What the slots before slot `x` have added to `curr_size`. -/
def counted (x : Nat) (bites : List (playbackSound_t ι)) : Nat :=
  SAMPLE_SIZE * (bites.take x).countP fun b => (slotData sound b).isSome

@[simp] theorem counted_zero (bites : List (playbackSound_t ι)) : counted sound 0 bites = 0 := rfl

theorem counted_none {b : playbackSound_t ι} (hdata : slotData sound b = none) (x : Nat)
    (bites : List (playbackSound_t ι)) :
    counted sound (x + 1) (b :: bites) = counted sound x bites := by
  rw [counted, List.take_succ_cons, List.countP_cons_of_neg (by simp [hdata])]
  rfl

theorem counted_some {b : playbackSound_t ι} {d : Σ numSamples : Nat, Fin numSamples → Int16}
    (hdata : slotData sound b = some d) (x : Nat) (bites : List (playbackSound_t ι)) :
    counted sound (x + 1) (b :: bites) = counted sound x bites + SAMPLE_SIZE := by
  rw [counted, List.take_succ_cons, List.countP_cons_of_pos (by simp [hdata])]
  rfl

/-- **Specification of a fill for one slot**: the slot has no data or is out of reach, keeps its
value, and nothing happens there; or it takes one turn with the whole buffer. -/
theorem fillLoop_turn (size : Nat) (bites : List (playbackSound_t ι)) :
    ∀ (i curr_size : Nat) (n : Int) (buff : List Int16) (x : Nat) (b : playbackSound_t ι),
      bites[x]? = some b →
      let r := fillLoop sound size i curr_size n buff bites
      ((slotData sound b = none ∨ size ≤ curr_size + counted sound x bites) ∧
        r.soundBites[x]? = some b ∧ ofSlot (i + x) r.events = []) ∨
      ∃ numSamples pData, slotData sound b = some ⟨numSamples, pData⟩ ∧
        curr_size + counted sound x bites < size ∧
        r.soundBites[x]? = some (advance numSamples buff.length b) ∧
        ofSlot (i + x) r.events = turn numSamples buff.length (i + x) b := by
  induction bites with
  | nil => intro i curr_size n buff x b hx; cases hx
  | cons b bites ih =>
    intro i curr_size n buff x b' hx
    rcases fillLoop_cons sound size i curr_size n buff b bites with
      ⟨hcurr, hr⟩ | ⟨-, hdata, hr⟩ | ⟨N, pData, hcurr, hdata, hr⟩ <;> simp only [hr]
    · exact .inl ⟨.inr (by omega), hx, rfl⟩
    · cases x with
      | zero =>
        obtain rfl : b = b' := by simpa using hx
        exact .inl ⟨.inl hdata, hx, ofSlot_fillLoop sound (by omega) _ _ _ _ _⟩
      | succ x =>
        rw [show i + (x + 1) = i + 1 + x by omega, counted_none sound hdata]
        exact ih _ _ _ _ x b' hx
    · cases x with
      | zero =>
        obtain rfl : b = b' := by simpa using hx
        refine .inr ⟨N, pData, hdata, hcurr, rfl, ?_⟩
        rw [ofSlot_append, Nat.add_zero, ofSlot_eq_self fun e he => (turn_events e he).1,
          ofSlot_fillLoop sound (Nat.lt_succ_self i), List.append_nil]
      | succ x =>
        have hcount : curr_size + counted sound (x + 1) (b :: bites) =
            curr_size + SAMPLE_SIZE + counted sound x bites := by
          rw [counted_some sound hdata]
          omega
        rw [ofSlot_append, ofSlot_eq_nil fun e he => ?_, List.nil_append,
          show i + (x + 1) = i + 1 + x by omega, hcount]
        · simpa only [mixLoop_length, List.getElem?_cons_succ] using
            ih (i + 1) _ _ (mixLoop pData b.location 0 b.location buff).1 x b' hx
        · rw [(turn_events e he).1]; omega

/-- In short: the slot keeps its value and nothing happens there, or it takes one turn. -/
theorem fillLoop_slot (size : Nat) (bites : List (playbackSound_t ι)) :
    ∀ (i curr_size : Nat) (n : Int) (buff : List Int16) (x : Nat) (b : playbackSound_t ι),
      bites[x]? = some b →
      let r := fillLoop sound size i curr_size n buff bites
      (r.soundBites[x]? = some b ∧ ofSlot (i + x) r.events = []) ∨
      ∃ numSamples pData, slotData sound b = some ⟨numSamples, pData⟩ ∧
        r.soundBites[x]? = some (advance numSamples buff.length b) ∧
        ofSlot (i + x) r.events = turn numSamples buff.length (i + x) b := by
  intro i curr_size n buff x b hx
  rcases fillLoop_turn sound size bites i curr_size n buff x b hx with
    ⟨-, hkept⟩ | ⟨numSamples, pData, hdata, -, hturn⟩
  · exact .inl hkept
  · exact .inr ⟨numSamples, pData, hdata, hturn⟩

def fillPlaybackBuffer (size : Nat) (m : Table ι) : Table ι × List Int16 :=
  let r := filling sound size m
  ({ soundBites := r.soundBites
     length_eq := by
       change (filling sound size m).soundBites.length = _
       rw [filling, fillLoop_length, m.length_eq]
     numSoundBites := r.numSoundBites }, r.buff)

end

end Mixer
