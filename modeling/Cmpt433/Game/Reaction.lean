import Cmpt433.Lib.CString
import Cmpt433.Lib.Runs

/-!
# The reaction game (`work/as1/hello.c`, `work/as1/joystick.c`)

`main` as a machine that takes one reading in each step: of a joystick pin, of the clock, or of a
random number.  A step runs the program from there to the next reading.

* `Reading` — what the pins, the clock and the two uses of `rand` give at a step; a step looks at
  what its program point asks for.
* `Event` — the messages, and the writes to the LEDs; writing succeeds, and sleeping only lets
  time pass.
* `turn` — what `main` does with a reading, one case for each program point.
-/

set_option autoImplicit false

namespace Reaction

open CString

/-! ## The readings -/

inductive joystick where
  | UP
  | DOWN
  | RIGHT
  | LEFT
  deriving DecidableEq

/-- The values of the enumeration. -/
def joystick.gpio : joystick → Nat
  | UP => 26
  | DOWN => 46
  | RIGHT => 47
  | LEFT => 65

structure timespec where
  tv_sec : Int
  tv_nsec : Int

structure Reading where
  /-- The line in `/sys/class/gpio/gpioN/value`. -/
  value : Nat → Bytes
  spec : timespec
  rand : Nat
  /-- What `chooseWaitTime` returns. -/
  waitTime : Int

def isDirectionPressed (direction : joystick) (r : Reading) : Bool :=
  atoi (r.value direction.gpio) = 0

def randomizeDirection (r : Reading) : joystick := if r.rand % 2 ≠ 0 then .UP else .DOWN

def getTimeInMs (r : Reading) : Int := r.spec.tv_sec * 1000 + r.spec.tv_nsec.tdiv 1000000

/-! ## The events -/

inductive Message where
  /-- `Get ready...` -/
  | getReady
  /-- `Too soon!` -/
  | tooSoon
  /-- `Press UP now!`, `Press DOWN now!` -/
  | press (direction : joystick)
  /-- `Correct!` -/
  | correct
  /-- `New best time!` -/
  | newBest
  /-- `Your reaction time was %llu; best so far in the game is %llu` -/
  | reactionTime (elapsedTime currentBest : Int)
  /-- `Incorrect.` -/
  | incorrect
  /-- `no input within 5000ms, quitting!` -/
  | noInput
  /-- `User chose to quit.` -/
  | userQuit
  deriving DecidableEq

inductive Event where
  | printf (message : Message)
  | changeBrightness (lednum : Fin 4) (onOff : Bool)
  deriving DecidableEq

def resetLEDs : List Event := [.changeBrightness 0 false, .changeBrightness 3 false]

def flashLEDs (timesFlashed : Nat) : List Event :=
  (List.range timesFlashed).flatMap fun _ =>
    (List.finRange 4).map (.changeBrightness · true) ++
      (List.finRange 4).map (.changeBrightness · false)

/-! ## The program -/

/-- The variables of `main`. -/
structure Locals where
  toPress : joystick
  notToPress : joystick
  timeSinceStart : Int
  timeSinceReady : Int
  elapsedTime : Int
  wrongInput : Bool
  quit : Bool
  currentBest : Int
  waitTime : Int

/-- The next reading of `main`. -/
inductive Pc where
  /-- The test of the outer loop. -/
  | headRight
  | headLeft
  | randomizeDirection
  | chooseWaitTime
  /-- `timeSinceStart = getTimeInMs()` -/
  | timeStart
  /-- The waiting loop. -/
  | waitTest
  | waitUp
  | waitDown
  | waitRight
  | waitLeft
  /-- `timeSinceReady = getTimeInMs()` -/
  | timeReady
  /-- The reaction loop. -/
  | reactTest
  | reactTo
  | reactNotTo
  | reactRight
  | reactLeft
  | done
  deriving DecidableEq

structure Turn where
  pc : Pc
  locals : Locals
  events : List Event

/-- The end of `main`, after the outer loop. -/
def leave (v : Locals) (events : List Event) : Turn :=
  ⟨.done, v, events ++ if v.quit then [.printf .userQuit] else []⟩

/-- After the waiting loop. -/
def afterWaiting (v : Locals) (events : List Event) : Turn :=
  if v.wrongInput then ⟨.headRight, v, events⟩
  else if v.quit then leave v (events ++ resetLEDs)
  else ⟨.timeReady, v, events⟩

/-- After the reaction loop. -/
def afterReaction (v : Locals) (events : List Event) : Turn :=
  if 5000 ≤ v.elapsedTime then leave v (events ++ .printf .noInput :: resetLEDs)
  else ⟨.headRight, v, events⟩

def tooSoon (v : Locals) : Turn :=
  afterWaiting { v with wrongInput := true } [.printf .tooSoon]

def lightUp (v : Locals) : Turn :=
  if v.toPress = .UP then
    ⟨.reactTest, { v with notToPress := .DOWN },
      [.changeBrightness 0 true, .printf (.press .UP)]⟩
  else
    ⟨.reactTest, { v with notToPress := .UP },
      [.changeBrightness 3 true, .printf (.press .DOWN)]⟩

def correct (v : Locals) : Turn :=
  let newBest := v.elapsedTime < v.currentBest
  let v := if newBest then { v with currentBest := v.elapsedTime } else v
  afterReaction v
    ([.printf .correct] ++ (if newBest then [.printf .newBest] else []) ++
      [.printf (.reactionTime v.elapsedTime v.currentBest)] ++ flashLEDs 2 ++ resetLEDs)

def incorrect (v : Locals) : Turn :=
  afterReaction v ([.printf .incorrect] ++ flashLEDs 10 ++ resetLEDs)

def turn (v : Locals) (r : Reading) : Pc → Turn
  | .headRight => if isDirectionPressed .RIGHT r then leave v [] else ⟨.headLeft, v, []⟩
  | .headLeft => if isDirectionPressed .LEFT r then leave v [] else ⟨.randomizeDirection, v, []⟩
  | .randomizeDirection =>
    ⟨.chooseWaitTime, { v with toPress := randomizeDirection r, wrongInput := false },
      [.printf .getReady]⟩
  | .chooseWaitTime => ⟨.timeStart, { v with waitTime := r.waitTime }, []⟩
  | .timeStart => ⟨.waitTest, { v with timeSinceStart := getTimeInMs r }, []⟩
  | .waitTest =>
    if getTimeInMs r - v.timeSinceStart ≠ v.waitTime then ⟨.waitUp, v, []⟩ else afterWaiting v []
  | .waitUp => if isDirectionPressed .UP r then tooSoon v else ⟨.waitDown, v, []⟩
  | .waitDown => if isDirectionPressed .DOWN r then tooSoon v else ⟨.waitRight, v, []⟩
  | .waitRight =>
    if isDirectionPressed .RIGHT r then afterWaiting { v with quit := true } []
    else ⟨.waitLeft, v, []⟩
  | .waitLeft =>
    if isDirectionPressed .LEFT r then afterWaiting { v with quit := true } []
    else ⟨.waitTest, v, []⟩
  | .timeReady => lightUp { v with timeSinceReady := getTimeInMs r }
  | .reactTest =>
    let v := { v with elapsedTime := getTimeInMs r - v.timeSinceReady }
    if v.elapsedTime < 5000 then ⟨.reactTo, v, []⟩ else afterReaction v []
  | .reactTo => if isDirectionPressed v.toPress r then correct v else ⟨.reactNotTo, v, []⟩
  | .reactNotTo => if isDirectionPressed v.notToPress r then incorrect v else ⟨.reactRight, v, []⟩
  | .reactRight =>
    if isDirectionPressed .RIGHT r then afterReaction { v with quit := true } resetLEDs
    else ⟨.reactLeft, v, []⟩
  | .reactLeft =>
    if isDirectionPressed .LEFT r then afterReaction { v with quit := true } resetLEDs
    else ⟨.reactTest, v, []⟩
  | .done => ⟨.done, v, []⟩

/-! ## The machine -/

structure State where
  pc : Pc
  locals : Locals
  leds : Fin 4 → Bool

def Event.light (leds : Fin 4 → Bool) : Event → Fin 4 → Bool
  | .changeBrightness lednum onOff => Function.update leds lednum onOff
  | .printf _ => leds

def State.turn (s : State) (r : Reading) : Turn := Reaction.turn s.locals r s.pc

def step (s : State) (r : Reading) : State where
  pc := (s.turn r).pc
  locals := (s.turn r).locals
  leds := (s.turn r).events.foldl Event.light s.leds

/-- The head of the outer loop for the first time; `v` is what the variables hold that have no
initial value. -/
def start (v : Locals) (r : Reading) : State where
  pc := .headRight
  locals := { v with
    notToPress := randomizeDirection r
    elapsedTime := getTimeInMs r
    quit := false
    currentBest := 5000 }
  leds := fun _ => false

end Reaction
