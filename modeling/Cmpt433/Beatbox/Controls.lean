import Cmpt433.Lib.Runs

/-!
# The beat box's controls (`work/pcmExample/audiomixer.c`, `joystickInput.c`, `udpListener.c`)

The mode, the volume and the tempo, and the functions that read and set them.  Volume and tempo are
two levels with one kind of check; a request changes a level by 5, sets the mode or moves on to the
next one.

* `joystickThread` — what the joystick thread asks for when a direction is pressed.
* `Command.request` — what a UDP command asks for (`handleRequest`, without its reply).
* `Request.run` — a request run to completion.
* `timeForHalfBeatMs` — the delay that `main` computes from the tempo it reads, over the rationals;
  `none` where the code divides by zero.
* `delay_defined_iff` — the check of the tempo lets it reach 0.

`AudioMixer_setVolume` goes on to set the sound card's volume, which no other function reads.
-/

set_option autoImplicit false

namespace Beatbox

open Runs

inductive beatMode where
  | NONE
  | ROCK
  | CUSTOM
  deriving DecidableEq

def beatMode.value : beatMode → Int
  | NONE => 1
  | ROCK => 2
  | CUSTOM => 3

structure Controls where
  currentMode : Int
  volume : Int
  tempo : Int
  deriving DecidableEq

inductive Level where
  | volume
  | tempo
  deriving DecidableEq

def AUDIOMIXER_MAX_VOLUME : Int := 100
def AUDIOMIXER_MAX_TEMPO : Int := 500
def DEFAULT_VOLUME : Int := 50

def Level.max : Level → Int
  | .volume => AUDIOMIXER_MAX_VOLUME
  | .tempo => AUDIOMIXER_MAX_TEMPO

def Controls.get (c : Controls) : Level → Int
  | .volume => c.volume
  | .tempo => c.tempo

def Controls.put (c : Controls) : Level → Int → Controls
  | .volume, v => { c with volume := v }
  | .tempo, v => { c with tempo := v }

/-- A value outside 0 … max is refused. -/
def setLevel (x : Level) (new : Int) (c : Controls) : Controls :=
  if new < 0 ∨ new > x.max then c else c.put x new

def AudioMixer_getVolume (c : Controls) : Int := c.get .volume
def AudioMixer_setVolume : Int → Controls → Controls := setLevel .volume
def AudioMixer_getTempo (c : Controls) : Int := c.get .tempo
def AudioMixer_setTempo : Int → Controls → Controls := setLevel .tempo

def AudioMixer_setMode (newMode : beatMode) (c : Controls) : Controls :=
  { c with currentMode := newMode.value }

def AudioMixer_cycleNextMode (c : Controls) : Controls :=
  if c.currentMode = 3 then { c with currentMode := 1 }
  else { c with currentMode := c.currentMode + 1 }

/-- The static values, and the volume that `AudioMixer_init` sets. -/
def AudioMixer_init : Controls :=
  AudioMixer_setVolume DEFAULT_VOLUME { currentMode := 1, volume := 0, tempo := 70 }

/-! ## Requests -/

inductive Dir where
  | up
  | down
  deriving DecidableEq

def Dir.amount : Dir → Int
  | up => 5
  | down => -5

/-- `query n` reads `n` of the controls for a reply. -/
inductive Request where
  | cycleMode
  | setMode (m : beatMode)
  | change (x : Level) (d : Dir)
  | query (n : Nat)
  deriving DecidableEq

inductive joystick where
  | CENTER
  | RIGHT
  | LEFT
  | UP
  | DOWN
  deriving DecidableEq

def joystickThread : joystick → Request
  | .CENTER => .cycleMode
  | .RIGHT => .change .tempo .up
  | .LEFT => .change .tempo .down
  | .UP => .change .volume .up
  | .DOWN => .change .volume .down

inductive Command where
  | modeNone
  | modeRock
  | modeCustom
  | volumeUp
  | volumeDown
  | tempoUp
  | tempoDown
  | getvol
  | gettempo
  | getUpdates
  deriving DecidableEq

def Command.request : Command → Request
  | modeNone => .setMode .NONE
  | modeRock => .setMode .ROCK
  | modeCustom => .setMode .CUSTOM
  | volumeUp => .change .volume .up
  | volumeDown => .change .volume .down
  | tempoUp => .change .tempo .up
  | tempoDown => .change .tempo .down
  | getvol => .query 1
  | gettempo => .query 1
  | getUpdates => .query 3

/-- A request that nothing else comes in between. -/
def Request.run (c : Controls) : Request → Controls
  | .cycleMode => AudioMixer_cycleNextMode c
  | .setMode m => AudioMixer_setMode m c
  | .change x d => setLevel x (c.get x + d.amount) c
  | .query _ => c

@[simp] theorem get_put (c : Controls) (x y : Level) (v : Int) :
    (c.put x v).get y = if y = x then v else c.get y := by cases x <;> cases y <;> rfl

@[simp] theorem mode_put (c : Controls) (x : Level) (v : Int) :
    (c.put x v).currentMode = c.currentMode := by cases x <;> rfl

theorem get_setLevel (x y : Level) (v : Int) (c : Controls) :
    (setLevel x v c).get y = if y = x ∧ 0 ≤ v ∧ v ≤ x.max then v else c.get y := by
  unfold setLevel
  by_cases hv : v < 0 ∨ v > x.max
  · rw [if_pos hv, if_neg]
    rintro ⟨-, h0, hmax⟩
    omega
  · rw [if_neg hv, get_put]
    by_cases hy : y = x
    · rw [if_pos hy, if_pos ⟨hy, by omega⟩]
    · rw [if_neg hy, if_neg fun h => hy h.1]

@[simp] theorem mode_setLevel (x : Level) (v : Int) (c : Controls) :
    (setLevel x v c).currentMode = c.currentMode := by
  unfold setLevel
  split
  · rfl
  · exact mode_put c x v

/-! ## The delay of half a beat -/

/-- `(60 / (float)tempo / 2) * 1000` -/
def timeForHalfBeatMs (tempo : Int) : Option ℚ :=
  if tempo = 0 then none else some (60 / tempo / 2 * 1000)

/-- What one iteration of `main` computes. -/
def mainDelay (c : Controls) : Option ℚ := timeForHalfBeatMs (AudioMixer_getTempo c)

/-- The request does not lower the tempo from 5. -/
def NotDownFromFive (c : Controls) (r : Request) : Prop :=
  ¬ (r = .change .tempo .down ∧ c.tempo = 5)

instance (c : Controls) (r : Request) : Decidable (NotDownFromFive c r) :=
  inferInstanceAs (Decidable (¬ _))

/-- The tempo is a multiple of 5 in its range. -/
def TempoRange (c : Controls) : Prop := 5 ∣ c.tempo ∧ 0 ≤ c.tempo ∧ c.tempo ≤ 500

instance (c : Controls) : Decidable (TempoRange c) := inferInstanceAs (Decidable (_ ∧ _))

/-- Only a request to change the tempo does so. -/
theorem tempo_run (c : Controls) (r : Request) :
    (r.run c).tempo = c.tempo ∨
      ∃ d : Dir, r = .change .tempo d ∧ (r.run c).tempo = c.tempo + d.amount ∧
        0 ≤ c.tempo + d.amount ∧ c.tempo + d.amount ≤ 500 := by
  cases r with
  | cycleMode =>
    left
    rw [Request.run, AudioMixer_cycleNextMode]
    split <;> rfl
  | setMode m => exact .inl rfl
  | query n => exact .inl rfl
  | change x d =>
    have hget := get_setLevel x .tempo (c.get x + d.amount) c
    change (setLevel x (c.get x + d.amount) c).tempo = _ at hget
    rw [Request.run, hget]
    split
    · rename_i h
      obtain ⟨rfl, h0, hmax⟩ := h
      exact .inr ⟨d, rfl, rfl, h0, hmax⟩
    · exact .inl rfl

theorem tempoRange_run {c : Controls} (h : TempoRange c) (r : Request) : TempoRange (r.run c) := by
  obtain ⟨h5, h0, hmax⟩ := h
  rcases tempo_run c r with hsame | ⟨d, -, hnew, h0', hmax'⟩
  · rw [TempoRange, hsame]
    exact ⟨h5, h0, hmax⟩
  · rw [TempoRange, hnew]
    refine ⟨?_, h0', hmax'⟩
    cases d <;> simp only [Dir.amount] <;> omega

theorem tempo_zero_iff {c : Controls} (h : TempoRange c) (hne : c.tempo ≠ 0) (r : Request) :
    (r.run c).tempo ≠ 0 ↔ NotDownFromFive c r := by
  obtain ⟨h5, h0, -⟩ := h
  unfold NotDownFromFive
  constructor
  · rintro hrun ⟨rfl, hfive⟩
    refine hrun ?_
    have hget := get_setLevel .tempo .tempo (c.get .tempo + Dir.down.amount) c
    have hval : c.get .tempo + Dir.down.amount = 0 := by
      rw [show c.get .tempo = 5 from hfive]
      rfl
    rw [hval, if_pos ⟨rfl, le_rfl, by decide⟩] at hget
    rw [Request.run, hval]
    exact hget
  · intro hnot hzero
    rcases tempo_run c r with hsame | ⟨d, rfl, hnew, -, -⟩
    · exact hne (hsame ▸ hzero)
    · refine hnot ?_
      rw [hzero] at hnew
      cases d with
      | up => rw [Dir.amount] at hnew; omega
      | down => rw [Dir.amount] at hnew; exact ⟨rfl, by omega⟩

theorem mainDelay_iff {c : Controls} (h : TempoRange c) :
    (∃ ms, mainDelay c = some ms ∧ 0 ≤ ms) ↔ c.tempo ≠ 0 := by
  have hget : AudioMixer_getTempo c = c.tempo := rfl
  rw [mainDelay, hget, timeForHalfBeatMs]
  constructor
  · rintro ⟨ms, hms, -⟩ hzero
    rw [if_pos hzero] at hms
    cases hms
  · intro hne
    refine ⟨_, if_neg hne, ?_⟩
    have h0 : (0 : ℚ) ≤ c.tempo := by exact_mod_cast h.2.1
    positivity

/-- **The delay of every iteration is defined exactly when no request lowers the tempo from 5**,
wherever among the requests the iterations of `main` come. -/
theorem delay_defined_iff (rs : List Request) :
    (∀ pre, pre <+: rs →
      ∃ ms, mainDelay (after Request.run AudioMixer_init pre) = some ms ∧ 0 ≤ ms) ↔
      Throughout Request.run NotDownFromFive AudioMixer_init rs := by
  have hrange : ∀ pre, TempoRange (after Request.run AudioMixer_init pre) := fun pre =>
    @invariant_of_step _ _ Request.run TempoRange (fun _ r h => tempoRange_run h r) _ (by decide) pre
  rw [← @invariant_iff _ _ Request.run NotDownFromFive (fun c => TempoRange c ∧ c.tempo ≠ 0)
    (fun c r h => by rw [and_iff_right (tempoRange_run h.1 r)]; exact tempo_zero_iff h.1 h.2 r)
    AudioMixer_init rs ⟨by decide, by decide⟩]
  refine forall_congr' fun pre => imp_congr_right fun _ => ?_
  rw [mainDelay_iff (hrange pre), and_iff_right (hrange pre)]

/-- Fourteen times down from 70. -/
theorem tempo_reaches_zero :
    ¬ ∃ ms, mainDelay (after Request.run AudioMixer_init
      (List.replicate 14 (joystickThread .LEFT))) = some ms ∧ 0 ≤ ms := by
  rintro ⟨ms, hms, -⟩
  have hnone : mainDelay (after Request.run AudioMixer_init
      (List.replicate 14 (joystickThread .LEFT))) = none := by decide +kernel
  rw [hnone] at hms
  cases hms

end Beatbox
