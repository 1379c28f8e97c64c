import Cmpt433.Game.Quit

/-!
# The rounds of the reaction game

However a round ends (too soon, in time, wrong, quit, or without an answer), the LEDs are off when
`main` is back at the head of the outer loop, and `currentBest` is the best time so far.

* `step_lights` — the LEDs 1 and 2 are on inside `flashLEDs` only, and the other two between
  lighting up and `resetLEDs`.
* `step_best` — `currentBest` changes where a round is answered correctly.
* `answer_measured` — a reaction time is the time between two readings of the clock in its round.
* `round_invariant` — both, in every state of every game.
-/

set_option autoImplicit false

namespace Reaction

open Runs

def game_init : List Event := (List.finRange 4).map (.changeBrightness · false)

/-- The LEDs after these events. -/
def lights (events : List Event) (leds : Fin 4 → Bool) : Fin 4 → Bool :=
  events.foldl Event.light leds

def allOff : Fin 4 → Bool := fun _ => false

/-- The head of the outer loop for the first time, after `game_init`, whatever the LEDs show when
the program is started. -/
def beginGame (leds : Fin 4 → Bool) (v : Locals) (r : Reading) : State :=
  { start v r with leds := lights game_init leds }

/-- The reaction time of the round that is answered correctly in this step. -/
def answer (s : State) (r : Reading) : Option Int :=
  if s.pc = .reactTo ∧ isDirectionPressed s.locals.toPress r then some s.locals.elapsedTime
  else none

/-- The reaction times of the rounds answered correctly in the first `n` steps. -/
def times (s : State) (rs : ℕ → Reading) (n : ℕ) : List Int :=
  (List.range n).filterMap fun m => answer (along step s rs m) (rs m)

/-! ## The LEDs -/

@[simp] theorem lights_append (xs ys : List Event) (leds : Fin 4 → Bool) :
    lights (xs ++ ys) leds = lights ys (lights xs leds) := List.foldl_append

@[simp] theorem lights_printf (message : Message) (events : List Event) (leds : Fin 4 → Bool) :
    lights (.printf message :: events) leds = lights events leds := rfl

/-- Switching off every LED, in `game_init` and at the end of each flash. -/
theorem lights_off (leds : Fin 4 → Bool) :
    lights ((List.finRange 4).map (.changeBrightness · false)) leds = allOff := by
  funext i
  fin_cases i <;> rfl

theorem lights_flash (timesFlashed : Nat) (leds : Fin 4 → Bool) :
    lights (flashLEDs (timesFlashed + 1)) leds = allOff := by
  unfold flashLEDs
  rw [List.range_succ, List.flatMap_append, List.flatMap_singleton, lights_append, lights_append,
    lights_off]

/-- `resetLEDs` switches off the two LEDs that a round lights up. -/
theorem lights_reset {leds : Fin 4 → Bool} (h1 : leds 1 = false) (h2 : leds 2 = false) :
    lights resetLEDs leds = allOff := by
  funext i
  fin_cases i
  · rfl
  · exact h1
  · exact h2
  · rfl

@[simp] theorem lights_reset_off : lights resetLEDs allOff = allOff := lights_reset rfl rfl

@[simp] theorem leave_lights (v : Locals) (events : List Event) (leds : Fin 4 → Bool) :
    lights (leave v events).events leds = lights events leds := by
  unfold leave
  rw [lights_append]
  split <;> rfl

theorem afterWaiting_lights (v : Locals) {events : List Event}
    (h : lights events allOff = allOff) :
    lights (afterWaiting v events).events allOff = allOff := by
  unfold afterWaiting
  split
  · exact h
  · split
    · rw [leave_lights, lights_append, h, lights_reset_off]
    · exact h

theorem afterReaction_lights (v : Locals) {events : List Event} {leds : Fin 4 → Bool}
    (h : lights events leds = allOff) :
    lights (afterReaction v events).events leds = allOff := by
  unfold afterReaction
  split
  · rw [leave_lights, lights_append, h, lights_printf, lights_reset_off]
  · exact h

/-- The points of the reaction loop, where an LED is on. -/
def Pc.reacting : Pc → Bool
  | .reactTest | .reactTo | .reactNotTo | .reactRight | .reactLeft => true
  | _ => false

/-- Which LEDs may be on. -/
structure LightsOk (pc : Pc) (leds : Fin 4 → Bool) : Prop where
  reacting : pc.reacting → leds 1 = false ∧ leds 2 = false
  off : pc.reacting = false → leds = allOff

theorem lightsOk_off (pc : Pc) : LightsOk pc allOff := ⟨fun _ => ⟨rfl, rfl⟩, fun _ => rfl⟩

theorem LightsOk.stay {pc pc' : Pc} {leds : Fin 4 → Bool} (h : LightsOk pc leds)
    (hpc : pc'.reacting = pc.reacting) : LightsOk pc' leds :=
  ⟨fun h' => h.reacting (hpc ▸ h'), fun h' => h.off (hpc ▸ h')⟩

theorem lightUp_lights (v : Locals) :
    LightsOk (lightUp v).pc (lights (lightUp v).events allOff) := by
  unfold lightUp
  split
  · exact ⟨fun _ => ⟨rfl, rfl⟩, nofun⟩
  · exact ⟨fun _ => ⟨rfl, rfl⟩, nofun⟩

/-- The four ends of the reaction loop that depend on a reading. -/
theorem correct_lights (v : Locals) (leds : Fin 4 → Bool) :
    lights (correct v).events leds = allOff := by
  refine afterReaction_lights _ ?_
  rw [lights_append, lights_append, lights_flash, lights_reset_off]

theorem incorrect_lights (v : Locals) (leds : Fin 4 → Bool) :
    lights (incorrect v).events leds = allOff := by
  refine afterReaction_lights _ ?_
  rw [lights_append, lights_append, lights_flash, lights_reset_off]

/-- **What a step does to the LEDs.** -/
theorem turn_lights {v : Locals} {r : Reading} {pc : Pc} {leds : Fin 4 → Bool}
    (h : LightsOk pc leds) :
    LightsOk (turn v r pc).pc (lights (turn v r pc).events leds) := by
  have hdark : ∀ t : Turn, lights t.events leds = allOff →
      LightsOk t.pc (lights t.events leds) := fun t ht => by rw [ht]; exact lightsOk_off _
  have hend : ∀ w, pc.reacting → LightsOk (afterReaction w resetLEDs).pc
      (lights (afterReaction w resetLEDs).events leds) := fun w hpc =>
    hdark _ (afterReaction_lights w (lights_reset (h.reacting hpc).1 (h.reacting hpc).2))
  cases pc with
  | headRight | headLeft =>
    obtain rfl := h.off rfl
    rw [turn]
    split
    · exact hdark _ (leave_lights ..)
    · exact lightsOk_off _
  | randomizeDirection | chooseWaitTime | timeStart | done => exact h.stay rfl
  | waitTest =>
    obtain rfl := h.off rfl
    rw [turn]
    split
    · exact lightsOk_off _
    · exact hdark _ (afterWaiting_lights v rfl)
  | waitUp | waitDown | waitRight | waitLeft =>
    obtain rfl := h.off rfl
    rw [turn]
    split
    · exact hdark _ (afterWaiting_lights _ rfl)
    · exact lightsOk_off _
  | timeReady =>
    obtain rfl := h.off rfl
    exact lightUp_lights _
  | reactTest =>
    rw [turn]
    dsimp only
    split
    · exact h.stay rfl
    · -- the time is over: only now is `resetLEDs` called
      rename_i hover
      refine hdark _ ?_
      rw [afterReaction, if_pos (by simpa using hover), leave_lights, List.nil_append,
        lights_printf]
      exact lights_reset (h.reacting rfl).1 (h.reacting rfl).2
  | reactTo =>
    rw [turn]
    split
    · exact hdark _ (correct_lights ..)
    · exact h.stay rfl
  | reactNotTo =>
    rw [turn]
    split
    · exact hdark _ (incorrect_lights ..)
    · exact h.stay rfl
  | reactRight | reactLeft =>
    rw [turn]
    split
    · exact hend _ rfl
    · exact h.stay rfl

theorem step_lights (s : State) (r : Reading) (h : LightsOk s.pc s.leds) :
    LightsOk (step s r).pc (step s r).leds := turn_lights h

/-! ## The best time -/

@[simp] theorem printf_reset (message : Message) : .printf message ∉ resetLEDs := by
  simp [resetLEDs]

@[simp] theorem printf_flash (message : Message) (timesFlashed : Nat) :
    .printf message ∉ flashLEDs timesFlashed := by
  simp [flashLEDs]

section

variable (v : Locals) (events : List Event)

@[simp] theorem newBest_leave :
    .printf .newBest ∈ (leave v events).events ↔ .printf .newBest ∈ events := by
  unfold leave
  split <;> simp

@[simp] theorem newBest_afterWaiting :
    .printf .newBest ∈ (afterWaiting v events).events ↔ .printf .newBest ∈ events := by
  unfold afterWaiting
  split
  · rfl
  · split
    · simp
    · rfl

@[simp] theorem newBest_afterReaction :
    .printf .newBest ∈ (afterReaction v events).events ↔ .printf .newBest ∈ events := by
  unfold afterReaction
  split
  · simp
  · rfl

theorem lightUp_best : (lightUp v).locals.currentBest = v.currentBest ∧
    .printf .newBest ∉ (lightUp v).events := by
  unfold lightUp
  split <;> simp

/-- A round that is answered correctly. -/
theorem correct_best :
    (correct v).locals.currentBest = min v.elapsedTime v.currentBest ∧
      (.printf .newBest ∈ (correct v).events ↔ v.elapsedTime < v.currentBest) := by
  unfold correct
  rw [afterReaction_locals, newBest_afterReaction]
  by_cases hbest : v.elapsedTime < v.currentBest
  · simp [hbest, hbest.le]
  · simp [hbest, not_lt.mp hbest]

end

/-- **`currentBest` changes where a round is answered correctly.** -/
theorem step_best (s : State) (r : Reading) :
    (step s r).locals.currentBest =
        (answer s r).elim s.locals.currentBest (min · s.locals.currentBest) ∧
      (.printf .newBest ∈ (s.turn r).events ↔
        ∃ t, answer s r = some t ∧ t < s.locals.currentBest) := by
  unfold answer
  by_cases hanswer : s.pc = .reactTo ∧ isDirectionPressed s.locals.toPress r
  · have hturn : s.turn r = correct s.locals := by
      rw [State.turn, hanswer.1, turn, if_pos hanswer.2]
    obtain ⟨hbest, hnew⟩ := correct_best s.locals
    rw [if_pos hanswer, step, hturn]
    refine ⟨hbest, hnew.trans ?_⟩
    simp
  · rw [if_neg hanswer]
    have hnothing : (s.turn r).locals.currentBest = s.locals.currentBest ∧
        .printf .newBest ∉ (s.turn r).events := by
      unfold State.turn
      cases hpc : s.pc with
      | reactTo =>
        rw [turn, if_neg fun hpressed => hanswer ⟨hpc, hpressed⟩]
        exact ⟨rfl, List.not_mem_nil⟩
      | timeReady => exact lightUp_best _
      | randomizeDirection | chooseWaitTime | timeStart | done => simp [turn]
      | _ =>
        rw [turn]
        split <;> simp [tooSoon, incorrect]
    refine ⟨hnothing.1, iff_of_false hnothing.2 ?_⟩
    rintro ⟨t, hnone, -⟩
    cases hnone

theorem times_succ (s : State) (rs : ℕ → Reading) (n : ℕ) :
    times s rs (n + 1) =
      times s rs n ++ (answer (along step s rs n) (rs n)).toList := by
  unfold times
  rw [List.range_succ, List.filterMap_append]
  cases hanswer : answer (along step s rs n) (rs n) <;> simp [hanswer]

/-- 5000 and the reaction times so far. -/
def candidates (ts : List Int) : Set Int := {t | t = 5000 ∨ t ∈ ts}

theorem candidates_append (ts : List Int) (t : Int) :
    candidates (ts ++ [t]) = insert t (candidates ts) := by
  ext t'
  simp only [candidates, Set.mem_ofPred_eq, List.mem_append, List.mem_singleton, Set.mem_insert_iff]
  tauto

/-- The best time after `n` steps. -/
theorem best_isLeast {s : State} (h0 : s.locals.currentBest = 5000) (rs : ℕ → Reading) (n : ℕ) :
    IsLeast (candidates (times s rs n)) (along step s rs n).locals.currentBest := by
  induction n with
  | zero =>
    rw [along, h0]
    refine ⟨.inl rfl, ?_⟩
    rintro t (rfl | ht)
    · exact le_rfl
    · cases ht
  | succ n ih =>
    rw [along, (step_best _ _).1, times_succ]
    cases answer (along step s rs n) (rs n) with
    | none => simpa using ih
    | some t =>
      rw [Option.toList_some, candidates_append]
      exact ih.insert t

/-! ## What a reaction time is -/

theorem afterWaiting_reacting (v : Locals) (events : List Event) :
    (afterWaiting v events).pc.reacting = false := by
  unfold afterWaiting
  split
  · rfl
  · split <;> rfl

theorem afterReaction_reacting (v : Locals) (events : List Event) :
    (afterReaction v events).pc.reacting = false := by
  unfold afterReaction
  split <;> rfl

/-- The reaction loop is entered with the reading that becomes `timeSinceReady`, and keeps it. -/
theorem turn_ready {v : Locals} {r : Reading} {pc : Pc} (h : (turn v r pc).pc.reacting) :
    (pc = .timeReady ∧ (turn v r pc).locals.timeSinceReady = getTimeInMs r) ∨
      (pc.reacting ∧ (turn v r pc).locals.timeSinceReady = v.timeSinceReady) := by
  cases pc with
  | timeReady =>
    refine .inl ⟨rfl, ?_⟩
    rw [turn, lightUp]
    split <;> rfl
  | reactTest =>
    refine .inr ⟨rfl, ?_⟩
    rw [turn] at h ⊢
    dsimp only at h ⊢
    split at h
    · rename_i hlt
      rw [if_pos hlt]
    · rw [afterReaction_reacting] at h
      cases h
  | reactTo | reactNotTo | reactRight | reactLeft =>
    refine .inr ⟨rfl, ?_⟩
    rw [turn] at h ⊢
    split at h
    · -- the round ends
      rw [← Bool.not_eq_false] at h
      exact absurd (afterReaction_reacting _ _) h
    · rename_i hnot
      rw [if_neg hnot]
  | waitUp | waitDown | waitRight | waitLeft | waitTest =>
    rw [turn] at h
    rw [← Bool.not_eq_false] at h
    split at h
    all_goals first
      | exact absurd (afterWaiting_reacting _ _) h
      | exact absurd rfl h
  | headRight | headLeft =>
    rw [turn] at h
    split at h <;> cases h
  | randomizeDirection | chooseWaitTime | timeStart | done => cases h

/-- The points of a round from the reading that becomes `timeSinceReady` on. -/
theorem ready_reading {s : State} (hs : s.pc.reacting = false) (rs : ℕ → Reading) (n : ℕ)
    (h : (along step s rs n).pc.reacting) :
    ∃ m, m < n ∧ (along step s rs m).pc = .timeReady ∧
      (∀ l, m < l → l ≤ n → (along step s rs l).pc.reacting) ∧
      (along step s rs n).locals.timeSinceReady = getTimeInMs (rs m) := by
  induction n with
  | zero =>
    rw [along, hs] at h
    cases h
  | succ n ih =>
    rcases turn_ready h with ⟨hpc, hready⟩ | ⟨hpc, hready⟩
    · refine ⟨n, n.lt_succ_self, hpc, fun l hl hn => ?_, hready⟩
      obtain rfl : l = n + 1 := by omega
      exact h
    · obtain ⟨m, hm, hpoint, hbetween, htime⟩ := ih hpc
      refine ⟨m, by omega, hpoint, fun l hl hn => ?_, hready.trans htime⟩
      rcases Nat.lt_or_ge n l with hlast | hle
      · obtain rfl : l = n + 1 := by omega
        exact h
      · exact hbetween l hl hle

/-- `toPress` is looked at right after the test of the reaction loop. -/
theorem turn_elapsed {v : Locals} {r : Reading} {pc : Pc} (h : (turn v r pc).pc = .reactTo) :
    pc = .reactTest ∧
      (turn v r pc).locals.elapsedTime = getTimeInMs r - (turn v r pc).locals.timeSinceReady := by
  have hreacting : ¬ (turn v r pc).pc.reacting = false := by
    rw [h]
    decide
  cases pc with
  | reactTest =>
    refine ⟨rfl, ?_⟩
    rw [turn] at hreacting ⊢
    dsimp only at hreacting ⊢
    split at hreacting
    · rename_i hlt
      rw [if_pos hlt]
    · exact absurd (afterReaction_reacting _ _) hreacting
  | timeReady =>
    rw [turn, lightUp] at h
    split at h <;> cases h
  | reactTo | reactNotTo | reactRight | reactLeft =>
    rw [turn] at h hreacting
    split at h
    · rename_i hpressed
      rw [if_pos hpressed] at hreacting
      exact absurd (afterReaction_reacting _ _) hreacting
    · cases h
  | _ =>
    have hready := turn_ready (Bool.eq_true_of_not_eq_false hreacting)
    rcases hready with ⟨hpc, -⟩ | ⟨hpc, -⟩ <;> cases hpc

/-- **A reaction time is what the clock has gone on since the LED was lit**, read at the last test
of the reaction loop. -/
theorem answer_measured {s : State} (hs : s.pc.reacting = false) {rs : ℕ → Reading} {n : ℕ}
    {t : Int} (h : answer (along step s rs n) (rs n) = some t) :
    ∃ m k, m < k ∧ k + 1 = n ∧ (along step s rs m).pc = .timeReady ∧
      (along step s rs k).pc = .reactTest ∧
      (∀ l, m < l → l ≤ n → (along step s rs l).pc.reacting) ∧
      t = getTimeInMs (rs k) - getTimeInMs (rs m) := by
  unfold answer at h
  split at h
  · rename_i hanswer
    obtain rfl := Option.some.inj h
    obtain ⟨m, hm, hpoint, hbetween, hready⟩ :=
      ready_reading hs rs n (by rw [hanswer.1]; rfl)
    obtain ⟨k, rfl⟩ : ∃ k, n = k + 1 := ⟨n - 1, by omega⟩
    obtain ⟨htest, helapsed⟩ := turn_elapsed hanswer.1
    have hmk : m ≠ k := by
      rintro rfl
      rw [htest] at hpoint
      cases hpoint
    refine ⟨m, k, by omega, rfl, hpoint, htest, hbetween, ?_⟩
    exact helapsed.trans (by rw [← hready]; rfl)
  · cases h

/-! ## Whole games -/

/-- What holds before a step, when these rounds have been answered correctly. -/
structure RoundsKept (ts : List Int) (s : State) (r : Reading) : Prop where
  dark : s.pc = .headRight ∨ s.pc = .done → ∀ lednum, s.leds lednum = false
  best : IsLeast (candidates ts) s.locals.currentBest
  /-- `New best time!` is printed for a time under 5000 and under all others. -/
  newBest : .printf .newBest ∈ (s.turn r).events ↔
    ∃ t, answer s r = some t ∧ t < 5000 ∧ ∀ t' ∈ ts, t < t'

/-- **Every round leaves the LEDs off and `currentBest` the best time.** -/
theorem round_invariant (leds : Fin 4 → Bool) (v : Locals) (r : Reading) (rs : ℕ → Reading)
    (n : ℕ) :
    RoundsKept (times (beginGame leds v r) rs n) (along step (beginGame leds v r) rs n) (rs n) := by
  have hlights : LightsOk (along step (beginGame leds v r) rs n).pc
      (along step (beginGame leds v r) rs n).leds :=
    along_invariant (C := fun _ _ => True) (fun s r h _ => step_lights s r h)
      (show LightsOk .headRight (lights game_init leds) by
        rw [game_init, lights_off]
        exact lightsOk_off _) (fun _ => trivial) n
  have hbest := best_isLeast (s := beginGame leds v r) rfl rs n
  refine ⟨fun hpc lednum => ?_, hbest, (step_best _ _).2.trans ?_⟩
  · rw [hlights.off (by rcases hpc with hpc | hpc <;> rw [hpc] <;> rfl)]
    rfl
  · refine exists_congr fun t => and_congr_right fun _ => ?_
    rw [hbest.lt_iff]
    simp [candidates]

end Reaction
