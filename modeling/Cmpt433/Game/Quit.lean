import Cmpt433.Game.Reaction

/-!
# Quitting the reaction game

`main` sets `quit` in the waiting loop, and leaves, or in the reaction loop, and goes back to the
head of the outer loop.  There nothing looks at `quit`: the joystick is read again, and if it has
been released in the meantime another round begins (`quit_starts_round`).

* `quit_ends_iff` — the readings with which quitting ends the game.
* `quit_stays_dark` — with any readings no LED is turned on once `quit` is set: the waiting loop of
  the superfluous round ends with the test of `quit`.
-/

set_option autoImplicit false

namespace Reaction

open CString Runs

/-- `Get ready...`, or an LED that is turned on. -/
def Event.startsRound : Event → Bool
  | .printf .getReady => true
  | .changeBrightness _ onOff => onOff
  | _ => false

/-- No step that ends with `quit` set starts a round. -/
def QuitEnds (s : State) (rs : ℕ → Reading) : Prop :=
  ∀ n, (along step s rs (n + 1)).locals.quit →
    ∀ e ∈ ((along step s rs n).turn (rs n)).events, e.startsRound = false

/-- **The condition on a reading**: at the head of the outer loop, with `quit` set, RIGHT or LEFT is
pressed. -/
def StillPressed (s : State) (r : Reading) : Prop :=
  s.pc = .headLeft → s.locals.quit → isDirectionPressed .LEFT r

/-! ## What `main` does with `quit` set -/

def Quiet (events : List Event) : Prop := ∀ e ∈ events, e.startsRound = false

instance (events : List Event) : Decidable (Quiet events) :=
  inferInstanceAs (Decidable (∀ e ∈ events, _))

theorem quiet_nil : Quiet [] := nofun

theorem quiet_append {xs ys : List Event} (hx : Quiet xs) (hy : Quiet ys) : Quiet (xs ++ ys) :=
  fun e he => (List.mem_append.mp he).elim (hx e) (hy e)

section

variable (v : Locals) (events : List Event)

@[simp] theorem leave_locals : (leave v events).locals = v := rfl

@[simp] theorem afterWaiting_locals : (afterWaiting v events).locals = v := by
  unfold afterWaiting
  split
  · rfl
  · split <;> rfl

@[simp] theorem afterReaction_locals : (afterReaction v events).locals = v := by
  unfold afterReaction
  split <;> rfl

@[simp] theorem lightUp_quit : (lightUp v).locals.quit = v.quit := by
  unfold lightUp
  split <;> rfl

@[simp] theorem correct_quit : (correct v).locals.quit = v.quit := by
  rw [correct, afterReaction_locals]
  split <;> rfl

theorem afterReaction_pc :
    (afterReaction v events).pc = .headRight ∨ (afterReaction v events).pc = .done := by
  unfold afterReaction
  split
  · exact .inr rfl
  · exact .inl rfl

variable {v events}

theorem afterWaiting_pc (hv : v.quit) :
    (afterWaiting v events).pc = .headRight ∨ (afterWaiting v events).pc = .done := by
  rw [afterWaiting, if_pos hv]
  split
  · exact .inl rfl
  · exact .inr rfl

theorem leave_quiet (h : Quiet events) : Quiet (leave v events).events := by
  refine quiet_append h ?_
  split <;> decide

theorem afterWaiting_quiet (h : Quiet events) : Quiet (afterWaiting v events).events := by
  unfold afterWaiting
  split
  · exact h
  · split
    · exact leave_quiet (quiet_append h (by decide))
    · exact h

theorem afterReaction_quiet (h : Quiet events) : Quiet (afterReaction v events).events := by
  unfold afterReaction
  split
  · exact leave_quiet (quiet_append h (by decide))
  · exact h

end

/-- `quit` is set in the two loops only. -/
theorem turn_sets_quit {v : Locals} {r : Reading} {pc : Pc} (hv : v.quit = false)
    (h : (turn v r pc).locals.quit) :
    turn v r pc = afterWaiting { v with quit := true } [] ∨
      turn v r pc = afterReaction { v with quit := true } resetLEDs := by
  cases pc with
  | waitRight | waitLeft =>
    rw [turn] at h ⊢
    split at h
    · rename_i hpressed
      exact .inl (if_pos hpressed)
    · simp [hv] at h
  | reactRight | reactLeft =>
    rw [turn] at h ⊢
    split at h
    · rename_i hpressed
      exact .inr (if_pos hpressed)
    · simp [hv] at h
  | headRight | headLeft | waitTest | waitUp | waitDown | reactTest | reactTo | reactNotTo =>
    rw [turn] at h
    split at h <;> simp [tooSoon, incorrect, hv] at h
  | _ => simp [turn, hv] at h

/-- The points at which an LED is on, or is about to be turned on. -/
def Pc.lit : Pc → Bool
  | .timeReady | .reactTest | .reactTo | .reactNotTo | .reactRight | .reactLeft => true
  | _ => false

/-- The points that are left if no further round begins. -/
def Pc.leaving : Pc → Bool
  | .headRight | .headLeft | .done => true
  | _ => false

theorem not_lit_of_leaving {pc : Pc} (h : pc.leaving) : pc.lit = false := by
  cases pc <;> first | rfl | cases h

theorem leaving_of_or {pc : Pc} (h : pc = .headRight ∨ pc = .done) : pc.leaving := by
  rcases h with rfl | rfl <;> rfl

/-- Once `quit` is set the program does not go on to light up, and says nothing but good-bye,
unless a new round begins. -/
theorem turn_quiet {v : Locals} {r : Reading} {pc : Pc} (hv : v.quit) (hpc : pc.lit = false)
    (hround : pc ≠ .randomizeDirection) :
    (turn v r pc).pc.lit = false ∧ Quiet (turn v r pc).events := by
  have hwaiting : ∀ w events, w.quit → Quiet events →
      (afterWaiting w events).pc.lit = false ∧ Quiet (afterWaiting w events).events :=
    fun w events hw hquiet =>
      ⟨not_lit_of_leaving (leaving_of_or (afterWaiting_pc hw)), afterWaiting_quiet hquiet⟩
  cases pc with
  | randomizeDirection => exact absurd rfl hround
  | chooseWaitTime | timeStart | done => exact ⟨rfl, quiet_nil⟩
  | headRight | headLeft =>
    rw [turn]
    split
    · exact ⟨rfl, leave_quiet quiet_nil⟩
    · exact ⟨rfl, quiet_nil⟩
  | waitTest =>
    rw [turn]
    split
    · exact ⟨rfl, quiet_nil⟩
    · exact hwaiting v [] hv quiet_nil
  | waitUp | waitDown =>
    rw [turn]
    split
    · exact hwaiting _ _ hv (by decide)
    · exact ⟨rfl, quiet_nil⟩
  | waitRight | waitLeft =>
    rw [turn]
    split
    · exact hwaiting _ _ rfl quiet_nil
    · exact ⟨rfl, quiet_nil⟩
  | _ => cases hpc

/-- The step that sets `quit` leads out of the loop, and out of the game or to the head of the
outer loop. -/
theorem turn_sets_quit_quiet {v : Locals} {r : Reading} {pc : Pc} (hv : v.quit = false)
    (h : (turn v r pc).locals.quit) :
    (turn v r pc).pc.leaving ∧ Quiet (turn v r pc).events := by
  rcases turn_sets_quit hv h with hturn | hturn <;> rw [hturn]
  · exact ⟨leaving_of_or (afterWaiting_pc rfl), afterWaiting_quiet (by decide)⟩
  · exact ⟨leaving_of_or (afterReaction_pc _ _), afterReaction_quiet (by decide)⟩

/-! ## Whole games -/

/-- With `quit` set the program is nowhere near the LEDs. -/
def Dark (s : State) : Prop := s.locals.quit → s.pc.lit = false

/-- With `quit` set no round has begun. -/
def Leaving (s : State) : Prop := s.locals.quit → s.pc.leaving

theorem start_leaving (v : Locals) (r : Reading) : Leaving (start v r) := fun _ => rfl

theorem Leaving.dark {s : State} (h : Leaving s) : Dark s := fun hq => not_lit_of_leaving (h hq)

theorem step_dark (s : State) (r : Reading) (h : Dark s) (_ : True) : Dark (step s r) := by
  intro hq
  by_cases hs : s.locals.quit
  · by_cases hround : s.pc = .randomizeDirection
    · simp [step, State.turn, turn, hround, Pc.lit]
    · exact (turn_quiet hs (h hs) hround).1
  · exact not_lit_of_leaving (turn_sets_quit_quiet (by simpa using hs) hq).1

theorem step_leaving (s : State) (r : Reading) (h : Leaving s) (hpressed : StillPressed s r) :
    Leaving (step s r) := by
  intro hq
  by_cases hs : s.locals.quit
  · have hpc := h hs
    simp only [step, State.turn]
    cases hcase : s.pc with
    | headRight =>
      rw [turn]
      split <;> rfl
    | headLeft =>
      rw [turn, if_pos (hpressed hcase hs)]
      rfl
    | done => rfl
    | _ =>
      rw [hcase] at hpc
      cases hpc
  · exact (turn_sets_quit_quiet (by simpa using hs) hq).1

/-- The events of a step that ends with `quit` set, if no new round begins. -/
theorem events_quiet {s : State} {r : Reading} (h : Leaving s) (hq : (step s r).locals.quit) :
    Quiet (s.turn r).events := by
  by_cases hs : s.locals.quit
  · have hpc := h hs
    refine (turn_quiet hs (h.dark hs) ?_).2
    intro hround
    rw [hround] at hpc
    cases hpc
  · exact (turn_sets_quit_quiet (by simpa using hs) hq).2

/-- **Quitting ends the game** exactly when, at every test of the outer loop that `main` makes with
`quit` set, RIGHT or LEFT is still pressed. -/
theorem quit_ends_iff (v : Locals) (r : Reading) (rs : ℕ → Reading) :
    QuitEnds (start v r) rs ↔ ∀ n, StillPressed (along step (start v r) rs n) (rs n) := by
  constructor
  · intro hends n hpc hq
    by_contra hreleased
    generalize hs : along step (start v r) rs n = s at hpc hq
    -- the next step says `Get ready...`
    have hnext : along step (start v r) rs (n + 1) =
        { s with pc := .randomizeDirection } := by
      rw [along, hs, step, State.turn, hpc, turn, if_neg hreleased]
      rfl
    have hquiet := hends (n + 1) (by rw [along, hnext]; exact hq) (.printf .getReady)
      (by rw [hnext]; exact List.mem_singleton_self _)
    cases hquiet
  · intro hheld n hq
    exact events_quiet (along_invariant step_leaving (start_leaving v r) hheld n) hq

/-- **Once `quit` is set no LED is turned on any more**, whatever the readings are. -/
theorem quit_stays_dark (v : Locals) (r : Reading) (rs : ℕ → Reading) (n : ℕ)
    (hq : (along step (start v r) rs (n + 1)).locals.quit) (lednum : Fin 4) :
    .changeBrightness lednum true ∉ ((along step (start v r) rs n).turn (rs n)).events := by
  have hdark : Dark (along step (start v r) rs n) :=
    along_invariant step_dark (start_leaving v r).dark (fun _ => trivial) n
  intro hmem
  have hquiet : ∀ {events}, Quiet events → .changeBrightness lednum true ∉ events :=
    fun h hmem => by cases h _ hmem
  by_cases hs : (along step (start v r) rs n).locals.quit
  · by_cases hround : (along step (start v r) rs n).pc = .randomizeDirection
    · simp [State.turn, hround, turn] at hmem
    · exact hquiet (turn_quiet hs (hdark hs) hround).2 hmem
  · exact hquiet (turn_sets_quit_quiet (by simpa using hs) hq).2 hmem

/-- The pin of a direction reads 0 while it is pressed. -/
def pin (pressed : Bool) : Bytes := if pressed then lit "0\n" else lit "1\n"

/-- A wait of 1.5 s and then a short press to the RIGHT, seen in the reaction loop. -/
def shortPress (n : ℕ) : Reading where
  value := fun gpio => pin (n = 10 ∧ gpio = joystick.RIGHT.gpio)
  spec := ⟨if n < 5 then 0 else 1, if n < 5 then 0 else 500000000⟩
  rand := 1
  waitTime := 1500

def zeroed : Locals where
  toPress := .UP
  notToPress := .UP
  timeSinceStart := 0
  timeSinceReady := 0
  elapsedTime := 0
  wrongInput := false
  quit := false
  currentBest := 0
  waitTime := 0

theorem quit_starts_round :
    ¬ ∀ (v : Locals) (r : Reading) (rs : ℕ → Reading), QuitEnds (start v r) rs := by
  intro hall
  have hround : (along step (start zeroed (shortPress 0)) shortPress 14).locals.quit := by decide
  cases hall zeroed (shortPress 0) shortPress 13 hround (.printf .getReady) (by decide)

end Reaction
