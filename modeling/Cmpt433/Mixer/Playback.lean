import Cmpt433.Lib.Runs
import Cmpt433.Mixer.Mixing

/-!
# Every queued sound is played once, whole and in order

A run starts with `AudioMixer_init` and makes any sequence of `AudioMixer_queueSound` and
`fillPlaybackBuffer` calls; its record has one entry for each call: the table it finds, its events,
and the table and the buffer it leaves.

`AudioMixer_queueSound` does not set `location`: that a sound starts at its first sample rests on
free slots having location 0 (`SlotOk`), which holds along every run.

* `op_slot` — what one call can do to one slot.
* `record_heard` — the buffers and the slots of a run hold what its events say.
* `life_free`, `life_playing` — the rest of a run, seen from a slot that is free, or that has
  played its sound up to some index.
-/

set_option autoImplicit false

namespace Mixer

open Runs Saturation

variable {ι : Type}

inductive Op (ι : Type) where
  | queue (pSound : ι)
  | fill (size : Nat)

def Event.index : Event ι → Option Nat
  | .mixed _ j _ => some j
  | _ => none

def Event.position : Event ι → Option Nat
  | .mixed _ _ k => some k
  | _ => none

def Op.size : Op ι → Nat
  | .queue _ => 0
  | .fill size => size

/-- One call of a run: the table it finds, its events, and the table and the buffer it leaves. -/
structure Call (ι : Type) where
  op : Op ι
  table : Table ι
  events : List (Event ι)
  left : Table ι
  buff : List Int16

/-- The entries of `post` that belong to the sound last put into slot `i`: the calls until another
sound is put there. -/
def life (i : Nat) (post : List (Call ι)) : List (Call ι) :=
  post.takeWhile fun c => !(ofSlot i c.events).any Event.isQueued

section

variable (sound : ι → wavedata_t)

def Op.apply (m : Table ι) : Op ι → Option (Table ι × List (Event ι))
  | .queue pSound => (AudioMixer_queueSound sound pSound m).map fun (_, m') =>
      (m', (freeSlot m).toList.map fun i => .queued i pSound)
  | .fill size =>
      some ((fillPlaybackBuffer sound size m).1, (filling sound size m).events)

def Op.buff (m : Table ι) : Op ι → List Int16
  | .queue _ => []
  | .fill size => (fillPlaybackBuffer sound size m).2

/-- `none` after an assertion has failed. -/
def step (m : Option (Table ι)) (op : Op ι) : Option (Table ι) :=
  (m.bind fun m => op.apply sound m).map Prod.fst

def entry (m : Option (Table ι)) (op : Op ι) : List (Call ι) :=
  (m.bind fun m => (op.apply sound m).map fun (m', es) => ⟨op, m, es, m', op.buff sound m⟩).toList

/-- The record of a run. -/
def record (m : Option (Table ι)) (ops : List (Op ι)) : List (Call ι) :=
  collect (step sound) (entry sound) m ops

/-- These calls play the sound from index `ℓ` on, in slot `i`. -/
structure PlaysFrom (pSound : ι) (i ℓ : Nat) (calls : List (Call ι)) : Prop where
  /-- Whenever anything happens in the slot, it holds this sound. -/
  source : ∀ c ∈ calls, ofSlot i c.events ≠ [] →
    ∃ b, c.table.soundBites[i]? = some b ∧ b.pSound = some pSound
  /-- The indices mixed are consecutive, none skipped and none repeated. -/
  indices : ∃ m, ℓ + m ≤ (sound pSound).numSamples ∧
    (calls.flatMap fun c => ofSlot i c.events).filterMap Event.index = List.range' ℓ m
  /-- The `m`-th index of a call goes to `buff[m]`. -/
  positions : ∀ c ∈ calls, (ofSlot i c.events).filterMap Event.position =
    List.range ((ofSlot i c.events).filterMap Event.index).length
  /-- The slot is released in the call that mixes the last index, and in no other. -/
  released : ∀ c ∈ calls, .released i ∈ ofSlot i c.events ↔
    (sound pSound).numSamples - 1 ∈ (ofSlot i c.events).filterMap Event.index

/-- The buffer and the slots hold what the events say. -/
structure Call.Heard (c : Call ι) : Prop where
  /-- `buff[k]` is the saturating sum of the samples `pData[j]` of the events `mixed i j k`, each
  read from the sound in its slot. -/
  buff : c.buff.map Int16.toInt = (List.range c.op.size).map fun k =>
    clipLevels.satSum (c.events.filterMap (Event.added sound c.table.soundBites k))
  queued : ∀ i b b', c.table.soundBites[i]? = some b → c.left.soundBites[i]? = some b' →
    ∀ pSound, .queued i pSound ∈ c.events ↔ b.pSound = none ∧ b'.pSound = some pSound
  released : ∀ i b b', c.table.soundBites[i]? = some b → c.left.soundBites[i]? = some b' →
    (.released i ∈ c.events ↔ b.pSound.isSome ∧ b'.pSound = none)

/-! ## The invariant of the table -/

/-- A free slot is set back to the start; an occupied one has samples left to play. -/
def SlotOk (b : playbackSound_t ι) : Prop :=
  match b.pSound with
  | none => b.location = 0
  | some pSound => b.location < (sound pSound).numSamples ∧ (sound pSound).pData.isSome

def TableOk (m : Table ι) : Prop := ∀ b ∈ m.soundBites, SlotOk sound b

variable {sound}

theorem init_tableOk (m : Table ι) : TableOk sound (AudioMixer_init m) := by
  intro b hb
  obtain ⟨_, -, rfl⟩ := List.mem_map.mp hb
  rfl

/-- What `AudioMixer_queueSound` does, where it returns. -/
theorem queueSound_spec {pSound : ι} {m m' : Table ι} {r : Int}
    (h : AudioMixer_queueSound sound pSound m = some (r, m')) :
    (0 < (sound pSound).numSamples ∧ (sound pSound).pData.isSome) ∧
    ((r = -1 ∧ freeSlot m = none ∧ m' = m) ∨
     ∃ i b, r = 0 ∧ freeSlot m = some i ∧ m.soundBites[i]? = some b ∧ b.pSound = none ∧
      m'.soundBites = m.soundBites.modify i fun b => { b with pSound := some pSound }) := by
  unfold AudioMixer_queueSound at h
  split at h
  · rename_i hgood
    refine ⟨hgood, ?_⟩
    cases hfree : freeSlot m with
    | none =>
      rw [hfree] at h
      cases h
      exact .inl ⟨rfl, rfl, rfl⟩
    | some i =>
      rw [hfree] at h
      cases h
      obtain ⟨hi, hnone, -⟩ := List.findIdx?_eq_some_iff_getElem.mp hfree
      exact .inr ⟨i, _, rfl, rfl, List.getElem?_eq_getElem hi, by simpa using hnone, rfl⟩
  · cases h

theorem slotData_eq_some {b : playbackSound_t ι} {N : Nat} {pData : Fin N → Int16}
    (h : slotData sound b = some ⟨N, pData⟩) :
    ∃ pSound, b.pSound = some pSound ∧ (sound pSound).numSamples = N := by
  obtain ⟨pSound, hp, hd⟩ := Option.bind_eq_some_iff.mp h
  obtain ⟨_, -, hd⟩ := Option.map_eq_some_iff.mp hd
  cases hd
  exact ⟨pSound, hp, rfl⟩

/-- **What one call can do to one slot**: nothing, put a sound into it, or give it a turn. -/
theorem op_slot {op : Op ι} {m m' : Table ι} {es : List (Event ι)}
    (h : op.apply sound m = some (m', es)) {i : Nat} {b : playbackSound_t ι}
    (hb : m.soundBites[i]? = some b) :
    (m'.soundBites[i]? = some b ∧ ofSlot i es = []) ∨
    (∃ pSound, b.pSound = none ∧ m'.soundBites[i]? = some { b with pSound := some pSound } ∧
      (0 < (sound pSound).numSamples ∧ (sound pSound).pData.isSome) ∧
      es = [.queued i pSound]) ∨
    ∃ pSound size, b.pSound = some pSound ∧
      m'.soundBites[i]? = some (advance (sound pSound).numSamples size b) ∧
      ofSlot i es = turn (sound pSound).numSamples size i b := by
  cases op with
  | queue pSound =>
    obtain ⟨⟨r, m''⟩, hq, heq⟩ := Option.map_eq_some_iff.mp h
    cases heq
    obtain ⟨hgood, ⟨-, hfree, rfl⟩ | ⟨i', b', -, hfree, hb', hnone, hm'⟩⟩ := queueSound_spec hq
    · exact .inl ⟨hb, by simp [hfree]⟩
    · by_cases hi : i' = i
      · subst hi
        obtain rfl : b' = b := Option.some.inj (hb'.symm.trans hb)
        exact .inr (.inl ⟨pSound, hnone, by simp [hm', hb], hgood, by simp [hfree]⟩)
      · refine .inl ⟨by simp [hm', hi, hb], ?_⟩
        rw [hfree]
        exact ofSlot_eq_nil (by simpa [Event.slot] using hi)
  | fill size =>
    cases h
    rcases fillLoop_slot sound size m.soundBites 0 0 m.numSoundBites (List.replicate size 0) i b hb
      with ⟨hslot, hes⟩ | ⟨N, pData, hdata, hslot, hes⟩
    · rw [Nat.zero_add] at hes
      exact .inl ⟨hslot, hes⟩
    · obtain ⟨pSound, hp, rfl⟩ := slotData_eq_some hdata
      rw [List.length_replicate] at hslot hes
      rw [Nat.zero_add] at hes
      exact .inr (.inr ⟨pSound, size, hp, hslot, hes⟩)

theorem advance_slotOk {b : playbackSound_t ι} {pSound : ι} (hp : b.pSound = some pSound)
    (hok : SlotOk sound b) (size : Nat) :
    SlotOk sound (advance (sound pSound).numSamples size b) := by
  simp only [SlotOk, hp] at hok
  unfold advance
  split
  · rfl
  · simp only [SlotOk, hp]
    exact ⟨by omega, hok.2⟩

theorem op_tableOk {op : Op ι} {m m' : Table ι} {es : List (Event ι)}
    (h : op.apply sound m = some (m', es)) (hok : TableOk sound m) : TableOk sound m' := by
  intro b' hb'
  obtain ⟨i, hi, hb'⟩ := List.mem_iff_getElem.mp hb'
  rw [m'.length_eq, ← m.length_eq] at hi
  have hb := List.getElem?_eq_getElem hi
  have hslot := hok _ (List.getElem_mem hi)
  rw [List.getElem_eq_iff] at hb'
  rcases op_slot h hb with ⟨hb'', -⟩ | ⟨pSound, hnone, hb'', hgood, -⟩ | ⟨pSound, size, hp, hb'', -⟩
  all_goals obtain rfl := Option.some.inj (hb'.symm.trans hb'')
  · exact hslot
  · -- the sound starts at 0, since the slot was free
    simp only [SlotOk, hnone] at hslot ⊢
    exact ⟨by omega, hgood.2⟩
  · exact advance_slotOk hp hslot size

theorem step_tableOk (o : Option (Table ι)) (op : Op ι) (h : ∀ m ∈ o, TableOk sound m) :
    ∀ m ∈ step sound o op, TableOk sound m := by
  intro m' hm'
  obtain ⟨⟨m', es⟩, hbind, rfl⟩ := Option.map_eq_some_iff.mp hm'
  obtain ⟨m, rfl, happly⟩ := Option.bind_eq_some_iff.mp hbind
  exact op_tableOk happly (h m rfl)

end

/-! ## One turn -/

section

variable {N size i : Nat} {b : playbackSound_t ι}

theorem turn_indices :
    (turn N size i b).filterMap Event.index =
      List.range' b.location (share N b.location size) := by
  rw [turn, List.filterMap_append, List.filterMap_map, List.range'_eq_map_range]
  have hnil : (if b.location + share N b.location size ≥ N then [(.released i : Event ι)]
      else []).filterMap Event.index = [] := by
    split <;> rfl
  rw [hnil, List.append_nil]
  exact congrFun List.filterMap_eq_map' _

theorem turn_positions :
    (turn N size i b).filterMap Event.position = List.range (share N b.location size) := by
  rw [turn, List.filterMap_append, List.filterMap_map]
  have hnil : (if b.location + share N b.location size ≥ N then [(.released i : Event ι)]
      else []).filterMap Event.position = [] := by
    split <;> rfl
  rw [hnil, List.append_nil]
  exact List.filterMap_some ..

theorem released_mem_turn (hlt : b.location < N) :
    .released i ∈ turn N size i b ↔
      N - 1 ∈ (turn N size i b).filterMap Event.index := by
  rw [turn_indices, List.mem_range'_1, turn, List.mem_append]
  have hmixed : Event.released i ∉ (List.range (share N b.location size)).map fun m =>
      (.mixed i (b.location + m) m : Event ι) := by simp
  have hshare : share N b.location size ≤ N - b.location := Nat.min_le_left ..
  rw [or_iff_right hmixed]
  split
  · exact ⟨fun _ => by omega, fun _ => List.mem_singleton.mpr rfl⟩
  · exact ⟨fun h => absurd h List.not_mem_nil, fun h => by omega⟩

end

/-! ## The life of a sound -/

section

variable {sound : ι → wavedata_t}

theorem playsFrom_of_idle {pSound : ι} {i ℓ : Nat} {calls : List (Call ι)}
    (hle : ℓ ≤ (sound pSound).numSamples) (h : ∀ c ∈ calls, ofSlot i c.events = []) :
    PlaysFrom sound pSound i ℓ calls where
  source c hc hne := absurd (h c hc) hne
  indices := by
    refine ⟨0, hle, ?_⟩
    rw [List.flatMap_eq_nil_iff.mpr h]
    rfl
  positions c hc := by rw [h c hc]; rfl
  released c hc := by rw [h c hc]; exact ⟨nofun, nofun⟩

theorem PlaysFrom.idle_cons {pSound : ι} {i ℓ : Nat} {c : Call ι} {calls : List (Call ι)}
    (hidle : ofSlot i c.events = []) (h : PlaysFrom sound pSound i ℓ calls) :
    PlaysFrom sound pSound i ℓ (c :: calls) where
  source := List.forall_mem_cons.mpr ⟨fun hne => absurd hidle hne, h.source⟩
  indices := by
    rw [List.flatMap_cons, hidle]
    exact h.indices
  positions := List.forall_mem_cons.mpr ⟨by rw [hidle]; rfl, h.positions⟩
  released := List.forall_mem_cons.mpr ⟨by rw [hidle]; exact ⟨nofun, nofun⟩, h.released⟩

theorem PlaysFrom.turn_cons {pSound : ι} {i size : Nat} {b : playbackSound_t ι} {c : Call ι}
    {calls : List (Call ι)} (hb : c.table.soundBites[i]? = some b) (hp : b.pSound = some pSound)
    (hlt : b.location < (sound pSound).numSamples)
    (hturn : ofSlot i c.events = turn (sound pSound).numSamples size i b)
    (h : PlaysFrom sound pSound i
      (b.location + share (sound pSound).numSamples b.location size) calls) :
    PlaysFrom sound pSound i b.location (c :: calls) where
  source := List.forall_mem_cons.mpr ⟨fun _ => ⟨b, hb, hp⟩, h.source⟩
  indices := by
    obtain ⟨m, hle, hm⟩ := h.indices
    refine ⟨share (sound pSound).numSamples b.location size + m, by omega, ?_⟩
    rw [List.flatMap_cons, List.filterMap_append, hturn, turn_indices, hm, List.range'_append_1]
  positions := by
    refine List.forall_mem_cons.mpr ⟨?_, h.positions⟩
    rw [hturn, turn_positions, turn_indices, List.length_range']
  released := by
    refine List.forall_mem_cons.mpr ⟨?_, h.released⟩
    rw [hturn]
    exact released_mem_turn hlt

theorem life_cons (i : Nat) (c : Call ι) (post : List (Call ι)) :
    life i (c :: post) =
      if (ofSlot i c.events).any Event.isQueued then [] else c :: life i post := by
  rw [life, List.takeWhile_cons]
  cases (ofSlot i c.events).any Event.isQueued <;> rfl

@[simp] theorem record_none (ops : List (Op ι)) : record sound none ops = [] := by
  induction ops with
  | nil => rfl
  | cons op ops ih => exact ih

theorem record_cons {m m' : Table ι} {op : Op ι} {es : List (Event ι)}
    (h : op.apply sound m = some (m', es)) (ops : List (Op ι)) :
    record sound (some m) (op :: ops) =
      ⟨op, m, es, m', op.buff sound m⟩ :: record sound (some m') ops := by
  simp [record, step, entry, h]

theorem record_cons_none {m : Table ι} {op : Op ι} (h : op.apply sound m = none)
    (ops : List (Op ι)) : record sound (some m) (op :: ops) = [] := by
  have := @record_none _ sound ops
  simpa [record, step, entry, h] using this

theorem op_buff {op : Op ι} {m m' : Table ι} {es : List (Event ι)}
    (h : op.apply sound m = some (m', es)) :
    (op.buff sound m).map Int16.toInt = (List.range op.size).map fun k =>
      clipLevels.satSum (es.filterMap (Event.added sound m.soundBites k)) := by
  cases op with
  | queue pSound => rfl
  | fill size =>
    cases h
    exact filling_buff m size

theorem mem_ofSlot {i : Nat} {es : List (Event ι)} {e : Event ι} (he : e.slot = i) :
    e ∈ ofSlot i es ↔ e ∈ es := by
  rw [ofSlot, List.mem_filter, and_iff_left (by simp [he])]

/-- A call puts a sound into a slot, or releases the slot, where its events say so. -/
theorem op_occupied {op : Op ι} {m m' : Table ι} {es : List (Event ι)}
    (h : op.apply sound m = some (m', es)) {i : Nat} {b b' : playbackSound_t ι}
    (hb : m.soundBites[i]? = some b) (hb' : m'.soundBites[i]? = some b') :
    (∀ pSound, .queued i pSound ∈ es ↔ b.pSound = none ∧ b'.pSound = some pSound) ∧
      (.released i ∈ es ↔ b.pSound.isSome ∧ b'.pSound = none) := by
  have hqueued : ∀ pSound, .queued i pSound ∈ ofSlot i es ↔ .queued i pSound ∈ es :=
    fun pSound => mem_ofSlot rfl
  have hreleased : .released i ∈ ofSlot i es ↔ .released i ∈ es := mem_ofSlot rfl
  rcases op_slot h hb with ⟨hkept, hes⟩ | ⟨pSound, hnone, hput, -, rfl⟩ |
    ⟨pSound, size, hp, hturn, hes⟩
  · obtain rfl := Option.some.inj (hkept.symm.trans hb')
    rw [hes] at hqueued hreleased
    refine ⟨fun pSound => ?_, ?_⟩
    · rw [← hqueued]
      exact iff_of_false List.not_mem_nil fun h => by rw [h.1] at h; cases h.2
    · rw [← hreleased]
      exact iff_of_false List.not_mem_nil fun h => by rw [h.2] at h; cases h.1
  · obtain rfl := Option.some.inj (hput.symm.trans hb')
    simp [hnone, eq_comm]
  · obtain rfl := Option.some.inj (hturn.symm.trans hb')
    rw [hes] at hqueued hreleased
    refine ⟨fun pSound' => ?_, ?_⟩
    · rw [← hqueued]
      refine iff_of_false (fun hmem => ?_) fun h => by rw [hp] at h; cases h.1
      cases (turn_events _ hmem).2
    · rw [← hreleased, turn, advance]
      split <;> simp [hp]

theorem op_heard {op : Op ι} {m m' : Table ι} {es : List (Event ι)}
    (h : op.apply sound m = some (m', es)) :
    Call.Heard sound ⟨op, m, es, m', op.buff sound m⟩ where
  buff := op_buff h
  queued _ _ _ hb hb' := (op_occupied h hb hb').1
  released _ _ _ hb hb' := (op_occupied h hb hb').2

/-- **Every call of a run leaves what its events say.** -/
theorem record_heard (ops : List (Op ι)) :
    ∀ m : Table ι, ∀ c ∈ record sound (some m) ops, c.Heard sound := by
  induction ops with
  | nil => intro m c hc; cases hc
  | cons op ops ih =>
    intro m c hc
    cases happly : op.apply sound m with
    | none => rw [record_cons_none happly] at hc; cases hc
    | some r =>
      rw [record_cons happly] at hc
      rcases List.mem_cons.mp hc with rfl | hc
      · exact op_heard happly
      · exact ih _ c hc

/-- Until a sound is put into it, nothing happens in a free slot. -/
theorem life_free {i : Nat} {b : playbackSound_t ι} (hfree : b.pSound = none) (ops : List (Op ι)) :
    ∀ m : Table ι, m.soundBites[i]? = some b →
      ∀ c ∈ life i (record sound (some m) ops), ofSlot i c.events = [] := by
  induction ops with
  | nil => intro m hb c hc; cases hc
  | cons op ops ih =>
    intro m hb c hc
    cases happly : op.apply sound m with
    | none => rw [record_cons_none happly] at hc; cases hc
    | some r =>
      obtain ⟨m', es⟩ := r
      rw [record_cons happly, life_cons] at hc
      rcases op_slot happly hb with ⟨hb', hes⟩ | ⟨pSound, -, -, -, rfl⟩ | ⟨pSound, _, hp, -⟩
      · rw [hes] at hc
        rcases List.mem_cons.mp hc with rfl | hc
        · exact hes
        · exact ih m' hb' c hc
      · simp [ofSlot, Event.slot, Event.isQueued] at hc
      · rw [hfree] at hp; cases hp

/-- **A slot that has played its sound up to an index goes on from there.** -/
theorem life_playing {i : Nat} {pSound : ι} (ops : List (Op ι)) :
    ∀ (m : Table ι) (b : playbackSound_t ι), m.soundBites[i]? = some b → b.pSound = some pSound →
      b.location < (sound pSound).numSamples →
      PlaysFrom sound pSound i b.location (life i (record sound (some m) ops)) := by
  induction ops with
  | nil => intro m b hb hp hlt; exact playsFrom_of_idle hlt.le nofun
  | cons op ops ih =>
    intro m b hb hp hlt
    cases happly : op.apply sound m with
    | none => rw [record_cons_none happly]; exact playsFrom_of_idle hlt.le nofun
    | some r =>
      obtain ⟨m', es⟩ := r
      rw [record_cons happly, life_cons]
      rcases op_slot happly hb with ⟨hb', hes⟩ | ⟨_, hnone, -⟩ | ⟨pSound', size, hp', hb', hes⟩
      · rw [hes]
        exact (ih m' b hb' hp hlt).idle_cons hes
      · rw [hp] at hnone; cases hnone
      · obtain rfl : pSound = pSound' := Option.some.inj (hp.symm.trans hp')
        have hany : (turn (sound pSound).numSamples size i b).any Event.isQueued = false :=
          List.any_eq_false.mpr fun e he => by simp [(turn_events e he).2]
        rw [hes, hany]
        refine PlaysFrom.turn_cons hb hp hlt hes ?_
        unfold advance at hb'
        split at hb'
        · -- the sound is over, and the slot free
          refine playsFrom_of_idle ?_ (life_free rfl ops m' hb')
          have : share (sound pSound).numSamples b.location size ≤ _ := Nat.min_le_left ..
          omega
        · exact ih m' _ hb' hp (by simp only; omega)

/-- An entry that puts a sound into a slot is that of a queueing call, and the slot was free. -/
theorem op_queued {op : Op ι} {m m' : Table ι} {i : Nat} {pSound : ι}
    (h : op.apply sound m = some (m', [.queued i pSound])) :
    ∃ b, b.pSound = none ∧ m.soundBites[i]? = some b ∧
      m'.soundBites[i]? = some { b with pSound := some pSound } ∧
      0 < (sound pSound).numSamples := by
  cases op with
  | queue pSound' =>
    obtain ⟨⟨r, m''⟩, hq, heq⟩ := Option.map_eq_some_iff.mp h
    obtain ⟨hgood, ⟨-, hfree, rfl⟩ | ⟨i', b, -, hfree, hb, hnone, hm'⟩⟩ := queueSound_spec hq
    · simp [hfree] at heq
    · simp only [hfree, Option.toList_some, List.map_cons, List.map_nil, Prod.mk.injEq,
        List.cons.injEq, Event.queued.injEq, and_true] at heq
      obtain ⟨rfl, rfl, rfl⟩ := heq
      exact ⟨b, hnone, hb, by simp [hm', hb], hgood.1⟩
  | fill size =>
    have hes : (filling sound size m).events = [.queued i pSound] :=
      congrArg Prod.snd (Option.some.inj h)
    have hmem : Event.queued i pSound ∈ (filling sound size m).events := by simp [hes]
    cases (fillLoop_events sound size _ _ _ _ _ _ hmem).2

theorem entry_eq_append {o : Option (Table ι)} {op : Op ι} {c : Call ι} {u v : List (Call ι)}
    (h : entry sound o op = u ++ c :: v) :
    ∃ m m', o = some m ∧ op.apply sound m = some (m', c.events) ∧ v = [] := by
  cases hentry : o.bind fun m => (op.apply sound m).map fun (m', es) =>
      (⟨op, m, es, m', op.buff sound m⟩ : Call ι) with
  | none => simp [entry, hentry] at h
  | some c' =>
    rw [entry, hentry, Option.toList_some, List.singleton_eq_append_iff] at h
    obtain ⟨m, rfl, hcall⟩ := Option.bind_eq_some_iff.mp hentry
    obtain ⟨⟨m', es⟩, happly, rfl⟩ := Option.map_eq_some_iff.mp hcall
    obtain ⟨rfl, heq⟩ | ⟨-, heq⟩ := h
    · obtain ⟨rfl, rfl⟩ := List.cons_eq_cons.mp heq
      exact ⟨m, m', rfl, happly, rfl⟩
    · cases heq

/-- **Every queued sound is played once, whole and in order**, and the buffers and slots of the run
hold what the record says. -/
theorem queued_sound_plays_once {m : Table ι} {ops : List (Op ι)} {pre post : List (Call ι)}
    {c : Call ι} {i : Nat} {pSound : ι}
    (h : record sound (some (AudioMixer_init m)) ops = pre ++ c :: post)
    (hc : c.events = [.queued i pSound]) :
    PlaysFrom sound pSound i 0 (life i post) ∧ ∀ c' ∈ pre ++ c :: post, c'.Heard sound := by
  refine ⟨?_, h ▸ record_heard ops _⟩
  obtain ⟨xs, op, ys, u, v, rfl, hout, rfl⟩ := collect_split h
  have hok : ∀ m' ∈ after (step sound) (some (AudioMixer_init m)) xs, TableOk sound m' :=
    invariant_of_step step_tableOk (fun m' hm' => by cases hm'; exact init_tableOk m) xs
  obtain ⟨m', m'', hm', happly, rfl⟩ := entry_eq_append hout
  rw [hc] at happly
  obtain ⟨b, hnone, hb, hb', hpos⟩ := op_queued happly
  -- the slot was free, so the sound starts at its first sample
  have hslot : b.location = 0 := by
    have := hok m' hm' b (List.mem_of_getElem? hb)
    simpa only [SlotOk, hnone] using this
  have hstep : step sound (some m') op = some m'' := by simp [step, happly]
  have hplay := life_playing ys m'' _ hb' rfl (by simpa only [hslot] using hpos)
  rw [hslot] at hplay
  rw [hm', hstep]
  exact hplay

/-- A sound of three samples, queued again after it has been played. -/
def playedTwice : List (Call Unit) :=
  record (fun _ => ⟨3, some fun _ => 5⟩) (some (AudioMixer_init statics))
    [.queue (), .fill 4, .queue (), .fill 2, .fill 2]

theorem queued_sound_plays_once_three :
    (life 0 (playedTwice.drop 3)).map (fun c => (c.events, c.buff)) =
      [([.mixed 0 0 0, .mixed 0 1 1], [5, 5]), ([.mixed 0 2 0, .released 0], [5, 0])] ∧
    PlaysFrom (fun _ => ⟨3, some fun _ => 5⟩) () 0 0 (life 0 (playedTwice.drop 3)) ∧
    ∀ c ∈ playedTwice.take 2 ++ playedTwice.get ⟨2, by decide⟩ :: playedTwice.drop 3,
      c.Heard fun _ => ⟨3, some fun _ => 5⟩ :=
  ⟨by decide, queued_sound_plays_once
    (show record (fun _ => ⟨3, some fun _ => 5⟩) (some (AudioMixer_init statics))
        [.queue (), .fill 4, .queue (), .fill 2, .fill 2] =
      playedTwice.take 2 ++ playedTwice.get ⟨2, by decide⟩ :: playedTwice.drop 3 from rfl) rfl⟩

end

end Mixer
