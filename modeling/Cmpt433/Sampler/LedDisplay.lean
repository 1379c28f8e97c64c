import Cmpt433.Lib.Runs

/-!
# The two-digit display (`as2/led_display.c`)

The thread takes the number of dips and shows its two digits one after the other, for ever.  Both
digits hang on the same two registers, and a GPIO file for each turns it on.

* `ledThread` — what the thread does, in order; `nums` are the answers of `Sampler_getNumDips`
  until `running` is 0.
* `no_ghost` — at no moment does a digit show a segment of the other one, once those that an earlier
  run has left are gone.
* `display_reads` — the numbers from 0 to 99 can be read off the display, the others cannot.
* `reset_frees_twice` — `led_reset` frees the two digits again.

The thread may be cancelled, or `exit`, anywhere: the moments of a run are the beginnings of
`ledThread nums`.  What it leaves in the files and registers is there when the program is run again.
-/

set_option autoImplicit false

namespace LedDisplay

open Runs

inductive Side where
  | left
  | right
  deriving DecidableEq

inductive Reg where
  | REG_DIRA
  | REG_DIRB
  | REG_OUTA
  | REG_OUTB

inductive Effect where
  | runCommand (command : String)
  /-- `writeToFile` to one of the two directions -/
  | direction (side : Side) (writeValue : String)
  /-- `writeToFile` to one of the two values -/
  | value (side : Side) (writeValue : Bool)
  | initI2cBus
  | writeI2cReg (regAddr : Reg) (value : UInt8)
  | sleepForMs
  /-- `Sampler_getNumDips` returns `num`. -/
  | getNumDips (num : Int)
  /-- `malloc` and `getDigitValues` into `digitLeft` or `digitRight` -/
  | malloc (digit : Side)
  | free (digit : Side)
  | free_malloc (digit : Side)
  | close

/-! ## The program -/

def getDigitValues (num : Int) : UInt8 × UInt8 :=
  if num = 0 then (0x86, 0xa1)
  else if num = 1 then (0x02, 0x80)
  else if num = 2 then (0x0e, 0x31)
  else if num = 3 then (0x0e, 0xb0)
  else if num = 4 then (0x8a, 0x90)
  else if num = 5 then (0x8c, 0xb0)
  else if num = 6 then (0x88, 0xb1)
  else if num = 7 then (0x06, 0x80)
  else if num = 8 then (0x8e, 0xb1)
  else if num = 9 then (0x8e, 0x90)
  else (0x00, 0x00)

/-- `turnOnLeft` and `turnOnRight` -/
def turnOn (side : Side) (digit : UInt8 × UInt8) : List Effect :=
  [.value side true, .writeI2cReg .REG_OUTB digit.1, .writeI2cReg .REG_OUTA digit.2, .sleepForMs,
    .writeI2cReg .REG_OUTA 0x00, .writeI2cReg .REG_OUTB 0x00]

def bothOff : List Effect := [.value .right false, .value .left false]

def displayNum (num : Int) : List Effect :=
  [.malloc .left, .malloc .right] ++ bothOff ++ turnOn .left (getDigitValues (num.tdiv 10)) ++
    [.sleepForMs] ++ bothOff ++ turnOn .right (getDigitValues (num.tmod 10)) ++
    [.sleepForMs, .free .left, .free .right]

def led_init : List Effect :=
  [.runCommand "config-pin P9_17 i2c", .runCommand "config-pin P9_18 i2c",
    .direction .left "out", .direction .right "out", .initI2cBus,
    .writeI2cReg .REG_DIRA 0x00, .writeI2cReg .REG_DIRB 0x00]

def led_reset : List Effect :=
  [.writeI2cReg .REG_OUTA 0x00, .writeI2cReg .REG_OUTB 0x00] ++ bothOff ++
    [.free_malloc .left, .free_malloc .right, .close]

/-- One pass of the loop. -/
def pass (num : Int) : List Effect := .getNumDips num :: displayNum num

def ledThread (nums : List Int) : List Effect := led_init ++ nums.flatMap pass ++ led_reset

/-! ## The display and the heap -/

/-- What the files and registers hold, the number taken last, the two pointers, and the heap: how
many blocks have been allocated, and which of them freed. -/
structure Display where
  left : Bool
  right : Bool
  outa : UInt8
  outb : UInt8
  num : Int
  digitLeft : Option ℕ
  digitRight : Option ℕ
  mallocs : ℕ
  freed : List ℕ

def step (d : Display) : Effect → Display
  | .value .left on => { d with left := on }
  | .value .right on => { d with right := on }
  | .writeI2cReg .REG_OUTA value => { d with outa := value }
  | .writeI2cReg .REG_OUTB value => { d with outb := value }
  | .getNumDips num => { d with num := num }
  | .malloc .left => { d with digitLeft := some d.mallocs, mallocs := d.mallocs + 1 }
  | .malloc .right => { d with digitRight := some d.mallocs, mallocs := d.mallocs + 1 }
  | .free .left | .free_malloc .left => { d with freed := d.digitLeft.toList ++ d.freed }
  | .free .right | .free_malloc .right => { d with freed := d.digitRight.toList ++ d.freed }
  | .runCommand _ | .direction _ _ | .initI2cBus | .writeI2cReg .REG_DIRA _
  | .writeI2cReg .REG_DIRB _ | .sleepForMs | .close => d

/-- The display is dark. -/
def powerUp : Display := ⟨false, false, 0, 0, 0, none, none, 0, []⟩

/-- A new process, in which nothing is allocated. -/
def boot (d : Display) : Display :=
  { d with num := 0, digitLeft := none, digitRight := none, mallocs := 0, freed := [] }

/-- The start of a run, after earlier ones with these numbers, each ended after so many effects. -/
def start (earlier : List (List Int × ℕ)) : Display :=
  earlier.foldl (fun d run => boot (after step d ((ledThread run.1).take run.2))) powerUp

/-! ## Moments of a run -/

/-- The registers show part of a digit. -/
def Part (d : Display) (num : Int) : Prop :=
  (d.outb = 0 ∨ d.outb = (getDigitValues num).1) ∧ (d.outa = 0 ∨ d.outa = (getDigitValues num).2)

/-- At most one digit is on, and what it shows is part of its own digit of the number. -/
@[mk_iff] structure NoGhost (d : Display) : Prop where
  one : d.left = false ∨ d.right = false
  left : d.left = true → Part d (d.num.tdiv 10)
  right : d.right = true → Part d (d.num.tmod 10)

/-- Between two passes the registers are dark and no block is allocated. -/
structure Idle (d : Display) : Prop where
  one : d.left = false ∨ d.right = false
  outa : d.outa = 0
  outb : d.outb = 0
  once : d.freed.Nodup
  freed_lt : ∀ b ∈ d.freed, b < d.mallocs
  digitLeft : ∀ b ∈ d.digitLeft, b ∈ d.freed
  digitRight : ∀ b ∈ d.digitRight, b ∈ d.freed

/-- A moment of a pass: nothing shows where it should not, and no block is freed twice. -/
@[mk_iff] structure Good (d : Display) : Prop where
  ghost : NoGhost d
  once : d.freed.Nodup

theorem Idle.good {d : Display} (h : Idle d) : Good d where
  ghost := ⟨h.one, fun _ => ⟨.inl h.outb, .inl h.outa⟩, fun _ => ⟨.inl h.outb, .inl h.outa⟩⟩
  once := h.once

/-- The state after a pass. -/
theorem pass_after (d : Display) (num : Int) :
    after step d (pass num) =
      { d with
        left := false, right := true, outa := 0, outb := 0, num := num,
        digitLeft := some d.mallocs, digitRight := some (d.mallocs + 1),
        mallocs := d.mallocs + 2, freed := (d.mallocs + 1) :: d.mallocs :: d.freed } := rfl

theorem pass_idle {d : Display} (h : Idle d) (num : Int) : Idle (after step d (pass num)) := by
  have hfresh : ∀ b ∈ d.freed, b < d.mallocs := h.freed_lt
  rw [pass_after]
  refine ⟨.inl rfl, rfl, rfl, ?_, ?_, ?_, ?_⟩
  · have h0 : d.mallocs ∉ d.freed := fun hb => (hfresh _ hb).false
    have h1 : d.mallocs + 1 ∉ d.freed := fun hb => by have := hfresh _ hb; omega
    simp [h.once, h0, h1]
  · simp only [List.mem_cons]
    rintro b (rfl | rfl | hb)
    · omega
    · omega
    · have := hfresh b hb
      omega
  · simp
  · simp

theorem pass_good {d : Display} (h : Idle d) (num : Int) :
    Throughout step (fun d _ => Good d) d (pass num) := by
  have hone := h.one
  have hfresh : d.mallocs ∉ d.freed := fun hb => (h.freed_lt _ hb).false
  simp [pass, displayNum, turnOn, bothOff, step, good_iff, noGhost_iff, Part, hone, h.outa, h.outb,
    h.once, hfresh]

/-- The passes before the end of the loop. -/
theorem loop_good {d : Display} (h : Idle d) (nums : List Int) :
    Throughout step (fun d _ => Good d) d (nums.flatMap pass) ∧
      Idle (after step d (nums.flatMap pass)) := by
  induction nums generalizing d with
  | nil => exact ⟨trivial, h⟩
  | cons num nums ih =>
    rw [List.flatMap_cons, throughout_append, after_append]
    obtain ⟨hgood, hidle⟩ := ih (pass_idle h num)
    exact ⟨⟨pass_good h num, hgood⟩, hidle⟩

theorem init_good {d : Display} (h : Idle d) : Throughout step (fun d _ => Good d) d led_init := by
  have hgood := h.good
  exact ⟨hgood, hgood, hgood, hgood, hgood, hgood, hgood, trivial⟩

theorem init_after (d : Display) : after step d led_init = d := rfl

/-- Up to `led_reset`. -/
theorem loop_moments {d : Display} (h : Idle d) (nums : List Int) :
    Throughout step (fun d _ => Good d) d (led_init ++ nums.flatMap pass) ∧
      Idle (after step d (led_init ++ nums.flatMap pass)) := by
  rw [throughout_append, after_append, init_after]
  obtain ⟨hgood, hidle⟩ := loop_good h nums
  exact ⟨⟨init_good h, hgood⟩, hidle⟩

theorem reset_ghost {d : Display} (h : Idle d) :
    Throughout step (fun d _ => NoGhost d) d led_reset ∧ NoGhost (after step d led_reset) := by
  have hone := h.one
  simp [led_reset, bothOff, step, noGhost_iff, Part, hone, h.outa, h.outb]

/-- A run that starts with dark registers. -/
theorem ghost_idle {d : Display} (h : Idle d) (nums : List Int) (k : ℕ) :
    NoGhost (after step d ((ledThread nums).take k)) := by
  obtain ⟨hgood, hidle⟩ := loop_moments h nums
  obtain ⟨hreset, hend⟩ := reset_ghost hidle
  apply Throughout.moments _ _ (List.take_prefix k _)
  · unfold ledThread
    rw [throughout_append]
    exact ⟨hgood.mono fun _ _ h => h.ghost, hreset⟩
  · unfold ledThread
    rw [after_append]
    exact hend

/-! ## What an earlier run has left -/

def dark (d : Display) : Display := { d with outa := 0, outb := 0 }

theorem dark_eq {d : Display} (houta : d.outa = 0) (houtb : d.outb = 0) : dark d = d := by
  obtain ⟨left, right, outa, outb, num, digitLeft, digitRight, mallocs, freed⟩ := d
  obtain rfl : outa = 0 := houta
  obtain rfl : outb = 0 := houtb
  rfl

/-- Nothing but the registers depends on the registers. -/
theorem dark_step (d : Display) (e : Effect) : dark (step d e) = dark (step (dark d) e) := by
  cases e with
  | value side on => cases side <;> rfl
  | writeI2cReg r v => cases r <;> rfl
  | malloc digit => cases digit <;> rfl
  | free digit | free_malloc digit => cases digit <;> rfl
  | _ => rfl

theorem dark_after (d : Display) (es : List Effect) :
    dark (after step d es) = dark (after step (dark d) es) := by
  induction es generalizing d with
  | nil => rfl
  | cons e es ih =>
    rw [after_cons, after_cons, ih (step d e), dark_step, ← ih]

/-- No run is under way. -/
structure Fresh (d : Display) : Prop where
  one : d.left = false ∨ d.right = false
  digitLeft : d.digitLeft = none
  digitRight : d.digitRight = none
  freed : d.freed = []

theorem Fresh.idle {d : Display} (h : Fresh d) : Idle (dark d) where
  one := h.one
  outa := rfl
  outb := rfl
  once := by
    show d.freed.Nodup
    rw [h.freed]
    exact List.nodup_nil
  freed_lt b hb := by
    change b ∈ d.freed at hb
    rw [h.freed] at hb
    cases hb
  digitLeft b hb := by
    change b ∈ d.digitLeft at hb
    rw [h.digitLeft] at hb
    cases hb
  digitRight b hb := by
    change b ∈ d.digitRight at hb
    rw [h.digitRight] at hb
    cases hb

/-- At most one digit is on, whatever the registers hold. -/
theorem Fresh.one_moment {d : Display} (h : Fresh d) (nums : List Int) (k : ℕ) :
    (after step d ((ledThread nums).take k)).left = false ∨
      (after step d ((ledThread nums).take k)).right = false := by
  have hsame := dark_after d ((ledThread nums).take k)
  have hone := (ghost_idle h.idle nums k).one
  change (dark (after step (dark d) _)).left = false ∨
    (dark (after step (dark d) _)).right = false at hone
  rw [← hsame] at hone
  exact hone

theorem fresh_start (earlier : List (List Int × ℕ)) : Fresh (start earlier) := by
  induction earlier using List.reverseRecOn with
  | nil => exact ⟨.inl rfl, rfl, rfl, rfl⟩
  | append_singleton earlier run ih =>
    unfold start
    rw [List.foldl_append]
    exact ⟨ih.one_moment run.1 run.2, rfl, rfl, rfl⟩

/-- The number of effects until a run has written both registers. -/
def firstDigit : ℕ := led_init.length + 8

theorem first_after (d : Display) (num : Int) :
    after step d (led_init ++ (pass num).take 8) =
      { d with
        left := true, right := false,
        outa := (getDigitValues (num.tdiv 10)).2, outb := (getDigitValues (num.tdiv 10)).1,
        num := num, digitLeft := some d.mallocs, digitRight := some (d.mallocs + 1),
        mallocs := d.mallocs + 2 } := rfl

/-- From then on it makes no difference what they held. -/
theorem after_firstDigit (d : Display) (nums : List Int) {k : ℕ} (hk : firstDigit ≤ k) :
    after step d ((ledThread nums).take k) = after step (dark d) ((ledThread nums).take k) := by
  cases nums with
  | nil =>
    have hall : (ledThread []).take k = ledThread [] :=
      List.take_of_length_le (Nat.le_trans (by decide) hk)
    rw [hall]
    rfl
  | cons num nums =>
    have hsplit : ledThread (num :: nums) = (led_init ++ (pass num).take 8) ++
        ((pass num).drop 8 ++ nums.flatMap pass ++ led_reset) := by
      simp [ledThread, List.flatMap_cons, pass, displayNum, turnOn, bothOff]
    have hlength : (led_init ++ (pass num).take 8).length = firstDigit := rfl
    obtain ⟨j, rfl⟩ : ∃ j, k = (led_init ++ (pass num).take 8).length + j :=
      ⟨k - firstDigit, by omega⟩
    have hcut : ∀ d, after step d ((ledThread (num :: nums)).take
        ((led_init ++ (pass num).take 8).length + j)) =
        after step (after step d (led_init ++ (pass num).take 8))
          (((pass num).drop 8 ++ nums.flatMap pass ++ led_reset).take j) := by
      intro d
      rw [hsplit, List.take_length_add_append, after_append]
    rw [hcut d, hcut (dark d), first_after, first_after]
    rfl

/-- **No ghost**: at every moment of every run at most one digit is on.  The segments that it shows
are part of its own digit of the number that was taken last: always where the registers were dark
when the run began, and else as soon as the first digit has been written. -/
theorem no_ghost (earlier : List (List Int × ℕ)) (nums : List Int) (k : ℕ) :
    ((after step (start earlier) ((ledThread nums).take k)).left = false ∨
        (after step (start earlier) ((ledThread nums).take k)).right = false) ∧
      ((start earlier).outa = 0 ∧ (start earlier).outb = 0 ∨ firstDigit ≤ k →
        NoGhost (after step (start earlier) ((ledThread nums).take k))) := by
  have hfresh := fresh_start earlier
  refine ⟨hfresh.one_moment nums k, fun h => ?_⟩
  have hidle := ghost_idle hfresh.idle nums k
  rcases h with ⟨houta, houtb⟩ | hk
  · rw [dark_eq houta houtb] at hidle
    exact hidle
  · rw [after_firstDigit _ _ hk]
    exact hidle

-- an 8 that a cancelled run has left is still to be seen where the next one is about to show a 1
example : ¬NoGhost (after step (start [([88], 15)]) ((ledThread [11]).take 14)) :=
  fun h => absurd (h.left rfl).2 (by decide)

theorem step_freed (d : Display) (e : Effect) : d.freed <:+ (step d e).freed := by
  cases e with
  | value side on => cases side <;> exact List.suffix_rfl
  | writeI2cReg r v => cases r <;> exact List.suffix_rfl
  | malloc digit => cases digit <;> exact List.suffix_rfl
  | free digit | free_malloc digit => cases digit <;> exact List.suffix_append _ _
  | _ => exact List.suffix_rfl

theorem freed_suffix (d : Display) (es : List Effect) : d.freed <:+ (after step d es).freed := by
  have hstep : ∀ (d' : Display) (e : Effect), d.freed <:+ d'.freed →
      d.freed <:+ (step d' e).freed := fun d' e h => h.trans (step_freed d' e)
  exact invariant_of_step hstep List.suffix_rfl es

theorem freed_dark (d : Display) (es : List Effect) :
    (after step d es).freed = (after step (dark d) es).freed := by
  have h := congrArg Display.freed (dark_after d es)
  exact h

/-- Once a number has been shown, the first `free_malloc` frees a block again. -/
theorem reset_again {d : Display} {m : ℕ} {freed : List ℕ} (hleft : d.digitLeft = some m)
    (hfreed : d.freed = (m + 1) :: m :: freed) {j : ℕ} (hj : 4 < j) :
    ¬(after step d (led_reset.take j)).freed.Nodup := by
  obtain ⟨i, rfl⟩ : ∃ i, j = 5 + i := ⟨j - 5, by omega⟩
  have hfive : (after step d (led_reset.take 5)).freed = m :: (m + 1) :: m :: freed := by
    show d.digitLeft.toList ++ d.freed = _
    rw [hleft, hfreed]
    rfl
  have hcut : led_reset.take (5 + i) = led_reset.take 5 ++ (led_reset.drop 5).take i :=
    List.take_add
  intro honce
  rw [hcut, after_append] at honce
  have hsuffix := freed_suffix (after step d (led_reset.take 5)) ((led_reset.drop 5).take i)
  rw [hfive] at hsuffix
  have htwice := honce.sublist hsuffix.sublist
  simp at htwice

/-- **`led_reset` frees twice**: a run has freed no block twice exactly as long as it has not come
to the two calls of `free_malloc`, or if no number was ever shown. -/
theorem reset_frees_twice (earlier : List (List Int × ℕ)) (nums : List Int) (k : ℕ) :
    (after step (start earlier) ((ledThread nums).take k)).freed.Nodup ↔
      nums = [] ∨ k ≤ (led_init ++ nums.flatMap pass).length + 4 := by
  have hfresh := fresh_start earlier
  rw [freed_dark]
  obtain ⟨hgood, hidle⟩ := loop_moments hfresh.idle nums
  by_cases hk : k ≤ (led_init ++ nums.flatMap pass).length + 4
  · refine iff_of_true ?_ (.inr hk)
    by_cases hloop : k ≤ (led_init ++ nums.flatMap pass).length
    · unfold ledThread
      rw [List.take_append_of_le_length hloop]
      exact (hgood.moments hidle.good (List.take_prefix k _)).once
    · obtain ⟨j, rfl⟩ : ∃ j, k = (led_init ++ nums.flatMap pass).length + j :=
        ⟨k - (led_init ++ nums.flatMap pass).length, by omega⟩
      have hj : j ≤ 4 := by omega
      unfold ledThread
      rw [List.take_length_add_append, after_append]
      have honce := hidle.once
      interval_cases j <;> exact honce
  · cases nums using List.reverseRecOn with
    | nil =>
      have hnone : Throughout step (fun d _ => d.freed.Nodup) (dark (start earlier))
          (ledThread []) ∧ (after step (dark (start earlier)) (ledThread [])).freed.Nodup := by
        simp [ledThread, led_init, led_reset, bothOff, step, dark, hfresh.freed,
          hfresh.digitLeft, hfresh.digitRight]
      exact iff_of_true (hnone.1.moments hnone.2 (List.take_prefix k _)) (.inl rfl)
    | append_singleton nums num =>
      have hne : nums ++ [num] ≠ [] :=
        List.append_ne_nil_of_right_ne_nil _ (List.cons_ne_nil _ _)
      refine iff_of_false ?_ (not_or.mpr ⟨hne, hk⟩)
      obtain ⟨j, rfl⟩ : ∃ j, k = (led_init ++ (nums ++ [num]).flatMap pass).length + j :=
        ⟨k - (led_init ++ (nums ++ [num]).flatMap pass).length, by omega⟩
      have hlast : led_init ++ (nums ++ [num]).flatMap pass =
          (led_init ++ nums.flatMap pass) ++ pass num := by simp
      unfold ledThread
      rw [List.take_length_add_append, after_append, hlast, after_append, pass_after]
      apply reset_again rfl rfl
      omega

/-! ## What can be read off -/

/-- What is to be seen while the thread sleeps. -/
def frame (d : Display) : Effect → List (Side × UInt8 × UInt8)
  | .sleepForMs =>
    (if d.left then [(.left, d.outb, d.outa)] else []) ++
      (if d.right then [(.right, d.outb, d.outa)] else [])
  | _ => []

inductive Segment where
  | top
  | topLeft
  | topRight
  | middle
  | bottomLeft
  | bottomRight
  | bottom

/-- The wiring: the bits of `REG_OUTB` and `REG_OUTA` that light a segment.  The middle one has two
halves. -/
def Segment.bits : Segment → UInt8 × UInt8
  | top => (0x04, 0x00)
  | topLeft => (0x80, 0x00)
  | topRight => (0x02, 0x00)
  | middle => (0x08, 0x10)
  | bottomLeft => (0x00, 0x01)
  | bottomRight => (0x00, 0x80)
  | bottom => (0x00, 0x20)

/-- How the digits look; the 6 has no bar at the top, the 9 none at the bottom. -/
def shape : ℕ → List Segment
  | 0 => [.top, .topLeft, .topRight, .bottomLeft, .bottomRight, .bottom]
  | 1 => [.topRight, .bottomRight]
  | 2 => [.top, .topRight, .middle, .bottomLeft, .bottom]
  | 3 => [.top, .topRight, .middle, .bottomRight, .bottom]
  | 4 => [.topLeft, .topRight, .middle, .bottomRight]
  | 5 => [.top, .topLeft, .middle, .bottomRight, .bottom]
  | 6 => [.topLeft, .middle, .bottomLeft, .bottomRight, .bottom]
  | 7 => [.top, .topRight, .bottomRight]
  | 8 => [.top, .topLeft, .topRight, .middle, .bottomLeft, .bottomRight, .bottom]
  | 9 => [.top, .topLeft, .topRight, .middle, .bottomRight]
  | _ => []

/-- What the registers hold where these segments are lit and no others. -/
def registers (lit : List Segment) : UInt8 × UInt8 :=
  lit.foldl (fun r s => (r.1 ||| s.bits.1, r.2 ||| s.bits.2)) (0x00, 0x00)

/-- The digit that is seen. -/
def digitOf (segments : UInt8 × UInt8) : Option ℕ :=
  (List.range 10).find? fun n => registers (shape n) = segments

def numberOf : Option ℕ → Option ℕ → Option ℕ
  | some tens, some units => some (10 * tens + units)
  | _, _ => none

/-- A number for each time the left digit and then the right one has been lit. -/
def readOff : List (Side × UInt8 × UInt8) → List (Option ℕ)
  | (.left, tens) :: _ :: (.right, units) :: _ :: rest =>
    numberOf (digitOf tens) (digitOf units) :: readOff rest
  | _ => []

theorem pass_frames (d : Display) (num : Int) :
    collect step frame d (pass num) =
      [(.left, getDigitValues (num.tdiv 10)), (.left, 0, 0),
        (.right, getDigitValues (num.tmod 10)), (.right, 0, 0)] := rfl

theorem digitOf_getDigitValues (num : Int) :
    digitOf (getDigitValues num) = if 0 ≤ num ∧ num < 10 then some num.toNat else none := by
  split
  · rename_i h
    obtain ⟨h0, h10⟩ := h
    interval_cases num <;> decide
  · rename_i h
    have hblank : getDigitValues num = (0x00, 0x00) := by
      unfold getDigitValues
      repeat rw [if_neg (by rintro rfl; exact h (by decide))]
    rw [hblank]
    decide

theorem number_shown (num : Int) :
    numberOf (digitOf (getDigitValues (num.tdiv 10))) (digitOf (getDigitValues (num.tmod 10))) =
      if 0 ≤ num ∧ num < 100 then some num.toNat else none := by
  have hsplit := Int.tmod_add_mul_tdiv num 10
  rw [digitOf_getDigitValues, digitOf_getDigitValues]
  by_cases h : 0 ≤ num ∧ num < 100
  · have hq : num.tdiv 10 = num / 10 := Int.tdiv_eq_ediv_of_nonneg h.1
    have hr : num.tmod 10 = num % 10 := Int.tmod_eq_emod_of_nonneg h.1
    rw [if_pos h, hq, hr, if_pos (by omega), if_pos (by omega)]
    show some _ = some _
    congr 1
    omega
  · rw [if_neg h]
    split
    · split
      · omega
      · rfl
    · rfl

/-- **The numbers can be read off the display**: in every run those from 0 to 99, one for each pass;
for any other number there is nothing to read. -/
theorem display_reads (earlier : List (List Int × ℕ)) (nums : List Int) :
    readOff (collect step frame (start earlier) (ledThread nums)) =
      nums.map fun num => if 0 ≤ num ∧ num < 100 then some num.toNat else none := by
  have hreset : ∀ d, collect step frame d led_reset = [] := fun _ => rfl
  have hinit : ∀ d, collect step frame d led_init = [] := fun _ => rfl
  have hloop : ∀ d, readOff (collect step frame d (nums.flatMap pass)) =
      nums.map fun num => if 0 ≤ num ∧ num < 100 then some num.toNat else none := by
    induction nums with
    | nil => exact fun _ => rfl
    | cons num nums ih =>
      intro d
      rw [List.flatMap_cons, collect_append, pass_frames, List.map_cons, ← number_shown num]
      exact congrArg _ (ih _)
  unfold ledThread
  rw [collect_append, collect_append, hinit, hreset, List.append_nil, List.nil_append]
  exact hloop _

end LedDisplay
