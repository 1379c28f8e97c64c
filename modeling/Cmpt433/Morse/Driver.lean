import Cmpt433.Lib.Interaction

/-!
# The morse-code driver (`work/morsecode/morsedriver.c`)

`my_write` and the functions it calls, as programs over the four kernel services they use:
`copy_from_user` (one byte at an index of the user's buffer), `led_trigger_event`, `msleep`
and `kfifo_put`.  Only `kfifo_put` has an answer that the program does not know beforehand;
what a copy finds is fixed by the user's memory, so its action only records the index.

* A failed copy or a refused put makes a function return early; `none` / `false` is
  `return -EFAULT` of the function at hand.
* The scanning loops stop at a letter or at a faulting address.  They end because the readable
  part of the address space is bounded (`UserBuf.mem_bound`), not because of `count`.
* `flash_leds` shifts a 16-bit word until it is 0; 16 rounds always do (`flash_leds_eq`).
* `printk` is left out.
-/

set_option autoImplicit false

namespace Morse

open Interaction

def LED_DOT_TIME : Nat := 200
def FIFO_SIZE : Nat := 256
def EFAULT : Int := 14

/-- The kernel's `vfs_write` cuts every request to this many bytes. -/
def MAX_RW_COUNT : Nat := 0x7ffff000

/-- The kernel services the driver calls. -/
inductive Call where
  | copy_from_user (i : Int)
  | led_trigger_event (full : Bool)
  | msleep (ms : Nat)
  | kfifo_put (c : UInt8)
  deriving DecidableEq

def Call.Answer : Call → Type
  | .kfifo_put _ => Bool
  | _ => Unit

/-- Programs of the driver. -/
abbrev Drv := Prog Call Call.Answer

/-- A `write` request: `count` bytes at `buff`, in the writing process's memory.  `mem i` is
the byte at `&buff[i]`, `none` where `copy_from_user` faults. -/
structure UserBuf where
  count : Nat
  mem : Int → Option UInt8
  lo : Int
  hi : Int
  mem_bound : ∀ i b, mem i = some b → lo ≤ i ∧ i < hi
  count_le : count ≤ MAX_RW_COUNT

def copy_from_user (u : UserBuf) (i : Int) : Drv (Option UInt8) :=
  .act (.copy_from_user i) fun _ => .ret (u.mem i)

def led_trigger_event (full : Bool) : Drv Unit := .act (.led_trigger_event full) .ret

def msleep (ms : Nat) : Drv Unit := .act (.msleep ms) .ret

def kfifo_put (c : UInt8) : Drv Bool := .act (.kfifo_put c) .ret

/-! ## Characters -/

def chA : UInt8 := 65
def chZ : UInt8 := 90
def cha : UInt8 := 97
def chz : UInt8 := 122
def blank : UInt8 := 32
def newline : UInt8 := 10
def dot : UInt8 := 46
def dash : UInt8 := 45

def isSpace (c : UInt8) : Bool := c == blank || c == newline || c == 13 || c == 9

def isAlpha (c : UInt8) : Bool := (chA ≤ c && c ≤ chZ) || (cha ≤ c && c ≤ chz)

/-- One bit for each dot time, most significant first. -/
def morsecode_codes : List UInt16 :=
  [0xB800, 0xEA80, 0xEBA0, 0xEA00, 0x8000, 0xAE80, 0xEE80, 0xAA00, 0xA000, 0xBBB8, 0xEB80, 0xBA80,
   0xEE00, 0xE800, 0xEEE0, 0xBBA0, 0xEEB8, 0xBA00, 0xA800, 0xE000, 0xAE00, 0xAB80, 0xBB80, 0xEAE0,
   0xEBB8, 0xEEA0]

def charToMorse (c : UInt8) : UInt16 :=
  if chA ≤ c && c ≤ chZ then morsecode_codes.getD (c - chA).toNat 0
  else if cha ≤ c && c ≤ chz then morsecode_codes.getD (c - cha).toNat 0
  else if c = blank then 1
  else 0

/-! ## `flash_leds` -/

/-- The `while (morse)` loop, at most `n` rounds. -/
def flashLoop : Nat → UInt16 → Drv Int
  | 0, _ => return 0
  | n + 1, morse =>
    if morse = 0 then return 0
    else if morse &&& 0xE000 = 0xE000 then do
      led_trigger_event true
      msleep (LED_DOT_TIME * 3)
      if ← kfifo_put dash then flashLoop n (morse <<< 3) else return -EFAULT
    else if morse &&& 0x8000 = 0x8000 then do
      led_trigger_event true
      msleep LED_DOT_TIME
      if ← kfifo_put dot then flashLoop n (morse <<< 1) else return -EFAULT
    else do
      led_trigger_event false
      msleep LED_DOT_TIME
      flashLoop n (morse <<< 1)

def flash_leds (morse : UInt16) : Drv Int := flashLoop 16 morse

/-- If the word runs empty in `n + 1` rounds, it does in `n` after a dot or a pause. -/
theorem rounds_dot {n : Nat} {morse : UInt16} (h : morse.toNat * 2 ^ (n + 1) % 65536 = 0) :
    (morse <<< 1).toNat * 2 ^ n % 65536 = 0 := by
  have ht : (morse <<< 1).toNat = morse.toNat * 2 % 65536 := by
    simp [UInt16.toNat_shiftLeft, Nat.shiftLeft_eq]
  rw [ht, Nat.mod_mul_mod, Nat.mul_assoc, ← pow_succ']
  exact h

theorem rounds_dash {n : Nat} {morse : UInt16} (h : morse.toNat * 2 ^ (n + 1) % 65536 = 0) :
    (morse <<< 3).toNat * 2 ^ n % 65536 = 0 := by
  have ht : (morse <<< 3).toNat = morse.toNat * 8 % 65536 := by
    simp [UInt16.toNat_shiftLeft, Nat.shiftLeft_eq]
  have h8 : morse.toNat * 8 * 2 ^ n = morse.toNat * 2 ^ (n + 1) * 4 := by ring
  rw [ht, Nat.mod_mul_mod, h8, Nat.mul_mod, h]

theorem rounds_empty {morse : UInt16} (h : morse.toNat * 2 ^ 0 % 65536 = 0) : morse = 0 := by
  have := morse.toNat_lt
  apply UInt16.toNat_inj.mp
  rw [UInt16.toNat_zero]
  omega

/-- Rounds that a word has no bits left for make no difference. -/
theorem flashLoop_rounds {n m : Nat} {morse : UInt16} (h : morse.toNat * 2 ^ n % 65536 = 0)
    (hnm : n ≤ m) : flashLoop m morse = flashLoop n morse := by
  induction n generalizing m morse with
  | zero =>
    cases m with
    | zero => rfl
    | succ m => rw [flashLoop, flashLoop, if_pos (rounds_empty h)]
  | succ n ih =>
    obtain ⟨m, rfl⟩ : ∃ k, m = k + 1 := ⟨m - 1, by omega⟩
    rw [flashLoop, flashLoop, ih (rounds_dot h) (by omega), ih (rounds_dash h) (by omega)]

/-- **The 16 rounds are the whole `while` loop**: it ends for every word. -/
theorem flash_leds_eq (morse : UInt16) {n : Nat} (h : 16 ≤ n) : flashLoop n morse = flash_leds morse :=
  flashLoop_rounds (Nat.mul_mod_left _ _) h

/-! ## `trim_spaces` -/

/-- The first loop: step forward from `curr_idx`, whose byte is `c`, to a letter. -/
def trimFront (u : UserBuf) (c : UInt8) (curr_idx : Int) : Drv (Option Int) :=
  if isSpace c || !isAlpha c then
    .act (.copy_from_user (curr_idx + 1)) fun _ =>
      match h : u.mem (curr_idx + 1) with
      | none => .ret none
      | some c => trimFront u c (curr_idx + 1)
  else .ret (some curr_idx)
termination_by (u.hi - curr_idx).toNat
decreasing_by have := u.mem_bound _ _ h; omega

/-- The second loop: step back from `end_idx`, `c` being the byte before it, to a letter. -/
def trimBack (u : UserBuf) (c : UInt8) (end_idx : Int) : Drv (Option Int) :=
  if isSpace c || !isAlpha c then
    .act (.copy_from_user (end_idx - 1 - 1)) fun _ =>
      match h : u.mem (end_idx - 1 - 1) with
      | none => .ret none
      | some c => trimBack u c (end_idx - 1)
  else .ret (some end_idx)
termination_by (end_idx - u.lo).toNat
decreasing_by have := u.mem_bound _ _ h; omega

/-- The new `*curr` and `*end`; `none` when it returns `-EFAULT` and writes neither. -/
def trim_spaces (u : UserBuf) (c : UInt8) (curr end_ : Int) : Drv (Option (Int × Int)) := do
  match ← trimFront u c curr with
  | none => return none
  | some curr_idx =>
    match ← copy_from_user u (end_ - 1) with
    | none => return none
    | some c =>
      match ← trimBack u c end_ with
      | none => return none
      | some end_idx => return some (curr_idx, end_idx)

/-! ## `my_write` -/

/-- The inner `while`: skip the bytes that are no letters, flagging a blank. -/
def skipIgnored (u : UserBuf) (morseValue : UInt16) (curr : Int) (spaceFlag : Bool) :
    Drv (Option (UInt16 × Int × Bool)) :=
  if morseValue = 1 ∨ morseValue = 0 then
    .act (.copy_from_user (curr + 1)) fun _ =>
      match h : u.mem (curr + 1) with
      | none => .ret none
      | some c => skipIgnored u (charToMorse c) (curr + 1) (spaceFlag || morseValue == 1)
  else .ret (some (morseValue, curr, spaceFlag))
termination_by (u.hi - curr).toNat
decreasing_by have := u.mem_bound _ _ h; omega

/-- Between two letters with no blank between them. -/
def letterGap : Drv Bool := do
  led_trigger_event false
  msleep (LED_DOT_TIME * 3)
  kfifo_put blank

/-- Between two letters with a blank between them. -/
def wordGap : Drv Bool := do
  led_trigger_event false
  msleep (LED_DOT_TIME * 7)
  if ← kfifo_put blank then
    if ← kfifo_put blank then kfifo_put blank else return false
  else return false

/-- The two `if`s before a letter is flashed.  At most one of them waits. -/
def gap (notFirst spaceFlag : Bool) : Drv Bool := do
  if ← (if notFirst && !spaceFlag then letterGap else pure true) then
    if spaceFlag then wordGap else return true
  else return false

/-- The `for` loop over the characters, `n` rounds at most; `false` is `return -EFAULT`. -/
def writeLoop (u : UserBuf) (start end_ : Int) : Nat → Int → Bool → Drv Bool
  | 0, _, _ => return true
  | n + 1, curr, spaceFlag =>
    if curr < end_ then do
      match ← copy_from_user u curr with
      | none => return false
      | some c =>
        match ← skipIgnored u (charToMorse c) curr spaceFlag with
        | none => return false
        | some (morseValue, curr, spaceFlag) =>
          if ← gap (curr != start && morseValue != 1 && morseValue != 0) spaceFlag then
            -- the result of `flash_leds` is dropped
            let _ ← flash_leds morseValue
            writeLoop u start end_ n (curr + 1) false
          else return false
    else return true

/-- The value returned and the new `*ppos`. -/
def my_write (u : UserBuf) (ppos : Int) : Drv (Int × Int) := do
  -- `int end = count`
  let end₀ := Int.bmod u.count (2 ^ 32)
  match ← copy_from_user u 0 with
  | none => return (-EFAULT, ppos)
  | some c =>
    -- the result of `trim_spaces` is dropped: after a fault both ends stay as they were
    let (start, end_) := (← trim_spaces u c 0 end₀).getD (0, end₀)
    if ← writeLoop u start end_ (end_ - start).toNat start false then
      led_trigger_event false
      if ← kfifo_put newline then return (u.count, ppos + u.count) else return (-EFAULT, ppos)
    else return (-EFAULT, ppos)

end Morse
