import Cmpt433.Game.Quit

/-!
# The end of the waiting loop

The waiting loop compares the time since `timeSinceStart` with `waitTime` by `!=`, while the
reaction loop asks whether the time is below its limit.  A clock that jumps over the one reading
that ends the loop leaves it running.

* `loop_points` — where the loop is after each reading, as long as no reading of the clock is the
  one it waits for.
* `endsOnTime_iff` — it ends on time exactly when one is.
-/

set_option autoImplicit false

namespace Reaction

open Runs

def Pc.waiting : Pc → Bool
  | .waitTest | .waitUp | .waitDown | .waitRight | .waitLeft => true
  | _ => false

/-- The loop, entered with the reading after `s`, ends with the first of its readings of the clock
that is at least `waitTime` after `timeSinceStart`. -/
def EndsOnTime (s : State) (rs : ℕ → Reading) : Prop :=
  ∃ n, (along step s rs n).pc = .waitTest ∧
    s.locals.waitTime ≤ getTimeInMs (rs n) - getTimeInMs (rs 0) ∧
    (∀ m, 1 ≤ m → m ≤ n → (along step s rs m).pc.waiting) ∧
    (∀ m, m < n → (along step s rs m).pc = .waitTest →
      getTimeInMs (rs m) - getTimeInMs (rs 0) < s.locals.waitTime) ∧
    (along step s rs (n + 1)).pc.waiting = false

/-- The readings of the clock in the loop; four of the joystick lie between them. -/
def poll (rs : ℕ → Reading) (k : ℕ) : Int := getTimeInMs (rs (5 * k + 1))

/-- No direction is pressed. -/
def Released (rs : ℕ → Reading) : Prop :=
  ∀ n direction, isDirectionPressed direction (rs n) = false

/-! ## Around the loop -/

/-- The points of the loop, in order. -/
def waitingPoint : ℕ → Pc
  | 0 => .waitTest
  | 1 => .waitUp
  | 2 => .waitDown
  | 3 => .waitRight
  | _ => .waitLeft

theorem waitingPoint_waiting (i : ℕ) : (waitingPoint i).waiting := by
  unfold waitingPoint
  split <;> rfl

theorem waitingPoint_eq_waitTest {i : ℕ} (h : waitingPoint i = .waitTest) : i = 0 := by
  unfold waitingPoint at h
  split at h <;> first | rfl | cases h

/-- In the loop, `i` readings after the test; it was entered at `t`. -/
def inLoop (s : State) (t : Int) (i : ℕ) : State :=
  { s with pc := waitingPoint i, locals := { s.locals with timeSinceStart := t } }

theorem step_inLoop {s : State} {r : Reading} {t : Int} {i : ℕ} (hi : i < 5)
    (hreleased : ∀ direction, isDirectionPressed direction r = false)
    (hlate : i = 0 → getTimeInMs r - t ≠ s.locals.waitTime) :
    step (inLoop s t i) r = inLoop s t ((i + 1) % 5) := by
  unfold step State.turn inLoop
  interval_cases i
  · simp only [waitingPoint, turn]
    rw [if_pos (hlate rfl)]
    rfl
  all_goals
    simp only [waitingPoint, turn]
    rw [if_neg (by simp [hreleased])]
    rfl

theorem afterWaiting_not_waiting (v : Locals) (events : List Event) :
    (afterWaiting v events).pc.waiting = false := by
  unfold afterWaiting
  split
  · rfl
  · split <;> rfl

section

variable {s : State} {rs : ℕ → Reading} (hpc : s.pc = .timeStart) (hreleased : Released rs)

include hpc hreleased

/-- **As long as no reading is the one it waits for, the loop goes around.** -/
theorem loop_points {k : ℕ}
    (hlate : ∀ j, j < k → poll rs j - getTimeInMs (rs 0) ≠ s.locals.waitTime) :
    ∀ m, m ≤ 5 * k →
      along step s rs (m + 1) = inLoop s (getTimeInMs (rs 0)) (m % 5) := by
  intro m
  induction m with
  | zero =>
    intro _
    rw [along, along, step, State.turn, hpc]
    rfl
  | succ m ih =>
    intro hm
    have hstep : step (inLoop s (getTimeInMs (rs 0)) (m % 5)) (rs (m + 1)) =
        inLoop s (getTimeInMs (rs 0)) ((m % 5 + 1) % 5) := by
      refine step_inLoop (Nat.mod_lt _ (by decide)) (hreleased _) fun hzero => ?_
      have hpoll := hlate (m / 5) (by omega)
      have hindex : 5 * (m / 5) + 1 = m + 1 := by omega
      rwa [poll, hindex] at hpoll
    rw [along, ih (by omega), hstep, Nat.mod_add_mod]

/-- Only the reading it waits for ends the loop. -/
theorem EndsOnTime.exact (hends : EndsOnTime s rs) :
    ∃ k, poll rs k - getTimeInMs (rs 0) = s.locals.waitTime := by
  obtain ⟨n, -, -, -, -, hout⟩ := hends
  by_contra hlate
  rw [loop_points hpc hreleased (k := n) (fun j _ => not_exists.mp hlate j) n (by omega)] at hout
  rw [show (inLoop s (getTimeInMs (rs 0)) (n % 5)).pc = waitingPoint (n % 5) from rfl,
    waitingPoint_waiting] at hout
  cases hout

/-- **The waiting loop ends on time exactly when a reading is the one it waits for.** -/
theorem endsOnTime_iff (hmono : Monotone (poll rs)) :
    EndsOnTime s rs ↔ ∃ k, poll rs k - getTimeInMs (rs 0) = s.locals.waitTime := by
  refine ⟨EndsOnTime.exact hpc hreleased, fun hexact => ?_⟩
  -- the first such reading; those before it are smaller
  let k := Nat.find hexact
  have hk : poll rs k - getTimeInMs (rs 0) = s.locals.waitTime := Nat.find_spec hexact
  have hlate : ∀ j, j < k → poll rs j - getTimeInMs (rs 0) ≠ s.locals.waitTime :=
    fun j hj => Nat.find_min hexact hj
  have hpoints := loop_points hpc hreleased hlate
  have htest : along step s rs (5 * k + 1) = inLoop s (getTimeInMs (rs 0)) 0 := by
    rw [hpoints (5 * k) le_rfl, Nat.mul_mod_right]
  refine ⟨5 * k + 1, by rw [htest]; rfl, hk.ge, ?_, ?_, ?_⟩
  · intro m h1 hm
    obtain ⟨m, rfl⟩ := Nat.exists_eq_add_of_le' h1
    rw [hpoints m (by omega)]
    exact waitingPoint_waiting _
  · intro m hm hpoint
    rcases m with - | m
    · rw [along, hpc] at hpoint
      cases hpoint
    · rw [hpoints m (by omega)] at hpoint
      have hzero : m % 5 = 0 := waitingPoint_eq_waitTest hpoint
      have hindex : m + 1 = 5 * (m / 5) + 1 := by omega
      have hle : poll rs (m / 5) ≤ poll rs k := hmono (by omega)
      have hne := hlate (m / 5) (by omega)
      rw [hindex]
      change poll rs (m / 5) - getTimeInMs (rs 0) < s.locals.waitTime
      omega
  · rw [along, htest, step, State.turn]
    change (turn _ _ .waitTest).pc.waiting = false
    rw [turn]
    split
    · rename_i hne
      exact absurd hk hne
    · exact afterWaiting_not_waiting _ _

end

/-- A clock that shows two milliseconds more with every reading. -/
def evenClock (n : ℕ) : Reading where
  value := fun _ => pin false
  spec := ⟨(n / 500 : ℕ), 2 * (n % 500 : ℕ) * 1000000⟩
  rand := 0
  waitTime := 0

def aboutToWait (waitTime : Int) : State where
  pc := .timeStart
  locals := { zeroed with currentBest := 5000, waitTime := waitTime }
  leds := fun _ => false

theorem evenClock_time (n : ℕ) : getTimeInMs (evenClock n) = 2 * n := by
  have hms : (2 * (n % 500 : ℕ) * 1000000 : Int).tdiv 1000000 = 2 * (n % 500 : ℕ) :=
    Int.mul_tdiv_cancel _ (by decide)
  unfold getTimeInMs evenClock
  rw [hms]
  dsimp only
  omega

theorem evenClock_released : Released evenClock := by
  intro n direction
  cases direction <;> rfl

/-- The reading of 1502 ms ends a wait of 1502 ms. -/
theorem endsOnTime_1502 : EndsOnTime (aboutToWait 1502) evenClock := by
  refine (endsOnTime_iff rfl evenClock_released fun i j hij => ?_).mpr ⟨150, ?_⟩
  · unfold poll
    rw [evenClock_time, evenClock_time]
    omega
  · unfold poll
    rw [evenClock_time, evenClock_time]
    rfl

/-- A wait of 1501 ms does not end: the clock shows 1492 ms, 1502 ms, and so on. -/
theorem waits_forever : ¬ ∀ (s : State) (rs : ℕ → Reading), s.pc = .timeStart →
    0 ≤ s.locals.waitTime → Released rs → Monotone (fun n => getTimeInMs (rs n)) →
    (∀ t, ∃ n, t ≤ getTimeInMs (rs n)) → EndsOnTime s rs := by
  intro hall
  have hends := hall (aboutToWait 1501) evenClock rfl (by decide) evenClock_released
    (fun i j hij => by
      simp only [evenClock_time]
      omega)
    (fun t => ⟨t.toNat, by rw [evenClock_time]; omega⟩)
  obtain ⟨k, hk⟩ := hends.exact rfl evenClock_released
  rw [poll, evenClock_time, evenClock_time] at hk
  have h1501 : (aboutToWait 1501).locals.waitTime = 1501 := rfl
  omega

end Reaction
