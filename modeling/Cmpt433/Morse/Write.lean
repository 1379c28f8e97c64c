import Cmpt433.Lib.BoundedQueue
import Cmpt433.Morse.Scan

/-!
# `my_write` writes the encoding of the buffer

`Does p os a`: when every put is accepted, `p` performs the LED, clock and FIFO actions `os`
and returns `a`.  One lemma for each function of the driver builds up `my_write_does`: on a
readable buffer with a letter, `my_write` performs `writeOuts (script bytes)` and returns
`count`.  By `Trace.agree` every other trace follows this one up to the first refused put, and
that is all a bounded FIFO needs to know (`my_write_run`).
-/

set_option autoImplicit false

namespace Morse

open Interaction

variable {α β : Type}

/-! ## LED, clock and FIFO actions -/

/-- An action on the LED, the clock or the FIFO. -/
inductive Out where
  | led (full : Bool)
  | sleep (ms : Nat)
  | put (c : UInt8) (ok : Bool)
  deriving DecidableEq

def out : Event Call Call.Answer → Option Out
  | ⟨.copy_from_user _, _⟩ => none
  | ⟨.led_trigger_event full, _⟩ => some (.led full)
  | ⟨.msleep ms, _⟩ => some (.sleep ms)
  | ⟨.kfifo_put c, ok⟩ => some (.put c ok)

def outs (evs : List (Event Call Call.Answer)) : List Out := evs.filterMap out

@[simp] theorem outs_append (xs ys : List (Event Call Call.Answer)) :
    outs (xs ++ ys) = outs xs ++ outs ys := List.filterMap_append

/-- `p` can return `a` after the actions `os`. -/
def Does (p : Drv α) (os : List Out) (a : α) : Prop := ∃ evs, Trace p evs a ∧ outs evs = os

theorem Does.ret (a : α) : Does (.ret a) [] a := ⟨[], .ret a, rfl⟩

theorem Does.pure (a : α) : Does (Pure.pure a) [] a := .ret a

theorem Does.bind {p : Drv α} {f : α → Drv β} {xs ys : List Out} {a : α} {b : β}
    (h : Does p xs a) (hf : Does (f a) ys b) : Does (p >>= f) (xs ++ ys) b := by
  obtain ⟨evs, ht, rfl⟩ := h
  obtain ⟨evs', ht', rfl⟩ := hf
  exact ⟨evs ++ evs', ht.bind ht', outs_append evs evs'⟩

/-- A program that does nothing visible may come first. -/
theorem Does.then_does {p : Drv α} {f : α → Drv β} {ys : List Out} {a : α} {b : β}
    (h : Does p [] a) (hf : Does (f a) ys b) : Does (p >>= f) ys b := h.bind hf

/-- A trace of a program that can run without putting anything has no other course. -/
theorem Does.silent {p : Drv α} {a : α} (h : Does p [] a) :
    ∃ head, outs head = [] ∧ ∀ evs b, Trace p evs b ↔ evs = head ∧ b = a := by
  obtain ⟨head, ht, ho⟩ := h
  refine ⟨head, ho, fun evs b => ⟨fun hb => ?_, ?_⟩⟩
  · rcases hb.agree ht with ⟨rfl, rfl⟩ | ⟨pre, e, r, r', xs, ys, hne, rfl, rfl⟩
    · exact ⟨rfl, rfl⟩
    · cases e with
      | kfifo_put c => simp [outs, out] at ho
      | copy_from_user i => exact absurd rfl hne
      | led_trigger_event full => exact absurd rfl hne
      | msleep ms => exact absurd rfl hne
  · rintro ⟨rfl, rfl⟩; exact ht

/-- What comes after such a program is all that its traces differ in. -/
theorem Does.silent_bind {p : Drv α} {a : α} (h : Does p [] a) :
    ∃ head, outs head = [] ∧ ∀ (f : α → Drv β) evs b,
      Trace (p >>= f) evs b ↔ ∃ ys, evs = head ++ ys ∧ Trace (f a) ys b := by
  obtain ⟨head, ho, hp⟩ := h.silent
  refine ⟨head, ho, fun f evs b => ?_⟩
  rw [trace_bind]
  constructor
  · rintro ⟨xs, ys, a', rfl, hx, hy⟩
    obtain ⟨rfl, rfl⟩ := (hp xs a').mp hx
    exact ⟨ys, rfl, hy⟩
  · rintro ⟨ys, rfl, hy⟩
    exact ⟨head, ys, a, rfl, (hp head a).mpr ⟨rfl, rfl⟩, hy⟩

theorem Does.copy (u : UserBuf) (i : Int) : Does (copy_from_user u i) [] (u.mem i) :=
  ⟨[⟨.copy_from_user i, ()⟩], .act (.ret _), rfl⟩

theorem Does.led (full : Bool) : Does (led_trigger_event full) [.led full] () :=
  ⟨[⟨.led_trigger_event full, ()⟩], .act (.ret _), rfl⟩

theorem Does.sleep (ms : Nat) : Does (msleep ms) [.sleep ms] () :=
  ⟨[⟨.msleep ms, ()⟩], .act (.ret _), rfl⟩

theorem Does.put (c : UInt8) (ok : Bool) : Does (kfifo_put c) [.put c ok] ok :=
  ⟨[⟨.kfifo_put c, ok⟩], .act (.ret _), rfl⟩

/-! ## One letter -/

/-- Flash one symbol and put it. -/
def symbolOuts (c : UInt8) : List Out :=
  [.led true, .sleep (if c = dash then LED_DOT_TIME * 3 else LED_DOT_TIME), .put c true]

/-- The pause inside a letter. -/
def symbolGapOuts : List Out := [.led false, .sleep LED_DOT_TIME]

def letterOuts (b : UInt8) : List Out :=
  symbolGapOuts.intercalate ((letterText b).map symbolOuts)

/-- A device that accepts every put. -/
def accept : (e : Call) → Unit → e.Answer × Unit
  | .kfifo_put _, s => (true, s)
  | .copy_from_user _, s => ((), s)
  | .led_trigger_event _, s => ((), s)
  | .msleep _, s => ((), s)

theorem flash_leds_outs {b : UInt8} (h : isAlpha b = true) :
    outs (run accept (flash_leds (charToMorse b)) ()).events = letterOuts b :=
  forall_letter (P := fun b => outs (run accept (flash_leds (charToMorse b)) ()).events =
    letterOuts b) (by decide) h

/-- **`flash_leds` flashes and puts the letter's text.** -/
theorem flash_leds_does {b : UInt8} (h : isAlpha b = true) :
    ∃ v, Does (flash_leds (charToMorse b)) (letterOuts b) v :=
  ⟨_, _, (run_trace accept (flash_leds (charToMorse b)) ()).1, flash_leds_outs h⟩

/-! ## Gaps -/

def gapOuts : Gap → List Out
  | .none => []
  | .letter => [.led false, .sleep (LED_DOT_TIME * 3), .put blank true]
  | .word => [.led false, .sleep (LED_DOT_TIME * 7), .put blank true, .put blank true,
      .put blank true]

theorem letterGap_does : Does letterGap (gapOuts .letter) true :=
  (Does.led _).bind ((Does.sleep _).bind (Does.put _ _))

theorem wordGap_does : Does wordGap (gapOuts .word) true :=
  (Does.led _).bind ((Does.sleep _).bind ((Does.put _ true).bind ((Does.put _ true).bind
    (Does.put _ true))))

/-- Which gap `my_write` waits for. -/
def gapOf (notFirst spaceFlag : Bool) : Gap :=
  if spaceFlag then .word else if notFirst then .letter else .none

theorem gap_does (notFirst spaceFlag : Bool) :
    Does (gap notFirst spaceFlag) (gapOuts (gapOf notFirst spaceFlag)) true := by
  cases spaceFlag
  · cases notFirst
    · exact (Does.pure true).bind (Does.pure true)
    · exact letterGap_does.bind (Does.pure true)
  · cases notFirst <;> exact (Does.pure true).bind wordGap_does

/-! ## Scanning loops on a readable buffer -/

/-- The bytes `bs` stand at `&buff[i]`, `&buff[i+1]`, … -/
def UserBuf.At (u : UserBuf) (i : Int) (bs : List UInt8) : Prop :=
  ∀ k (h : k < bs.length), u.mem (i + k) = some bs[k]

/-- The whole buffer is readable and holds `bytes`. -/
def UserBuf.Holds (u : UserBuf) (bytes : List UInt8) : Prop :=
  u.count = bytes.length ∧ u.At 0 bytes

/-- A buffer that is readable exactly on its own bytes. -/
def UserBuf.ofBytes (bytes : List UInt8) (h : bytes.length ≤ MAX_RW_COUNT) : UserBuf where
  count := bytes.length
  mem i := if 0 ≤ i then bytes[i.toNat]? else none
  lo := 0
  hi := bytes.length
  mem_bound := by
    intro i b hi
    split at hi
    · obtain ⟨hlt, -⟩ := List.getElem?_eq_some_iff.mp hi
      omega
    · cases hi
  count_le := h

theorem UserBuf.ofBytes_holds (bytes : List UInt8) (h : bytes.length ≤ MAX_RW_COUNT) :
    (UserBuf.ofBytes bytes h).Holds bytes := by
  refine ⟨rfl, fun k hk => ?_⟩
  simp [UserBuf.ofBytes, hk]

theorem UserBuf.At.head {u : UserBuf} {i : Int} {b : UInt8} {bs : List UInt8}
    (h : u.At i (b :: bs)) : u.mem i = some b := by
  have := h 0 (by simp)
  rwa [Nat.cast_zero, Int.add_zero] at this

theorem UserBuf.At.tail {u : UserBuf} {i : Int} {b : UInt8} {bs : List UInt8}
    (h : u.At i (b :: bs)) : u.At (i + 1) bs := by
  intro k hk
  have := h (k + 1) (by simpa using hk)
  rw [show i + 1 + (k : Int) = i + ((k + 1 : Nat) : Int) by push_cast; omega, this]
  rfl

theorem UserBuf.At.nil (u : UserBuf) (i : Int) : u.At i [] :=
  fun k hk => absurd hk (Nat.not_lt_zero k)

theorem UserBuf.At.cons {u : UserBuf} {i : Int} {b : UInt8} {bs : List UInt8}
    (hb : u.mem i = some b) (h : u.At (i + 1) bs) : u.At i (b :: bs) := by
  intro k hk
  cases k with
  | zero => rwa [Nat.cast_zero, Int.add_zero]
  | succ k =>
    have := h k (by simpa using hk)
    rw [show i + ((k + 1 : Nat) : Int) = i + 1 + k by push_cast; omega, this]
    rfl

theorem UserBuf.At.append {u : UserBuf} {i : Int} {as bs : List UInt8} (h : u.At i (as ++ bs)) :
    u.At i as ∧ u.At (i + as.length) bs := by
  constructor
  · intro k hk
    rw [h k (by simp; omega), List.getElem_append_left hk]
  · intro k hk
    have := h (as.length + k) (by simp; omega)
    rw [show i + (as.length : Int) + (k : Int) = i + ((as.length + k : Nat) : Int) by
      push_cast; omega, this, List.getElem_append_right (by omega)]
    simp

theorem UserBuf.At.along {u : UserBuf} {i : Int} {bs : List UInt8} (h : u.At i bs) :
    u.Along 1 i bs := by
  induction bs generalizing i with
  | nil => trivial
  | cons b bs ih => exact ⟨h.head, ih h.tail⟩

theorem UserBuf.At.along_reverse {u : UserBuf} {i : Int} {bs : List UInt8} (h : u.At i bs.reverse) :
    u.Along (-1) (i + bs.length - 1) bs := by
  induction bs with
  | nil => trivial
  | cons b bs ih =>
    rw [List.reverse_cons] at h
    obtain ⟨hbs, hlast⟩ := h.append
    rw [List.length_reverse] at hlast
    have h1 : i + ((b :: bs).length : Int) - 1 = i + bs.length := by simp; omega
    have h2 : i + (bs.length : Int) + -1 = i + bs.length - 1 := by omega
    rw [UserBuf.Along, h1, h2]
    exact ⟨hlast.head, ih hbs⟩

/-- A scan does nothing visible. -/
theorem Scans.does {σ : Type} {d : Int} {f : UserBuf → UInt8 → Int → σ → Drv (Option α)}
    {res : UInt8 → Int → σ → α} {upd : UInt8 → σ → σ} (h : Scans d f res upd) {u : UserBuf}
    {i : Int} {c l : UInt8} {pre : List UInt8} (hat : u.Along d i (pre ++ [l]))
    (hpre : ∀ b ∈ pre, isAlpha b = false) (hl : isAlpha l = true) (hc : u.mem i = some c) (s : σ) :
    Does (f u c i s) [] (some (res l (i + d * pre.length) (pre.foldl (fun s b => upd b s) s))) := by
  obtain ⟨evs, ht, hcopy⟩ := h.trace hat hpre hl hc s
  refine ⟨evs, ht, List.filterMap_eq_nil_iff.mpr fun ev hev => ?_⟩
  obtain ⟨j, hj⟩ := hcopy ev hev
  obtain ⟨e, r⟩ := ev
  cases hj
  rfl

section

variable {u : UserBuf} {i : Int} {c l : UInt8}

/-- The first trim loop stops at the first letter. -/
theorem trimFront_does {pre post : List UInt8} (hat : u.At i (pre ++ l :: post))
    (hpre : ∀ b ∈ pre, isAlpha b = false) (hl : isAlpha l = true) (hc : u.mem i = some c) :
    Does (trimFront u c i) [] (some (i + pre.length)) := by
  rw [List.append_cons] at hat
  simpa using trimFront_scans.does hat.append.1.along hpre hl hc ()

/-- The second trim loop stops after the last letter; `back` is what it steps over, last byte
first. -/
theorem trimBack_does {front back : List UInt8} (hat : u.At i (front ++ l :: back.reverse))
    (hback : ∀ b ∈ back, isAlpha b = false) (hl : isAlpha l = true)
    (hc : u.mem (i + front.length + back.length) = some c) :
    Does (trimBack u c (i + front.length + back.length + 1)) [] (some (i + front.length + 1)) := by
  have hrev : (back ++ [l]).reverse = l :: back.reverse := by simp
  have halong := (hrev ▸ hat.append.2 : u.At _ (back ++ [l]).reverse).along_reverse
  have hpos : i + front.length + ((back ++ [l]).length : Int) - 1 =
      i + front.length + back.length := by simp; omega
  rw [hpos] at halong
  have hdoes := trimBack_scans.does halong hback hl hc ()
  have hend : i + front.length + back.length + -1 * (back.length : Int) + 1 =
      i + front.length + 1 := by omega
  rwa [hend] at hdoes

/-- The inner loop stops at the next letter and has flagged whether it passed a blank. -/
theorem skipIgnored_does {pre post : List UInt8} (hat : u.At i (pre ++ l :: post))
    (hpre : ∀ b ∈ pre, isAlpha b = false) (hl : isAlpha l = true) (hc : u.mem i = some c)
    (spaceFlag : Bool) :
    Does (skipIgnored u (charToMorse c) i spaceFlag) []
      (some (charToMorse l, i + pre.length, spaceFlag || decide (blank ∈ pre))) := by
  have hflag : pre.foldl (fun s b => s || charToMorse b == 1) spaceFlag =
      (spaceFlag || decide (blank ∈ pre)) := by
    clear hat
    induction pre generalizing spaceFlag with
    | nil => simp
    | cons b pre ih =>
      rw [List.foldl_cons, ih fun b hb => hpre b (List.mem_cons_of_mem _ hb),
        charToMorse_ignored (hpre b List.mem_cons_self)]
      by_cases hbl : b = blank
      · simp [hbl]
      · simp [hbl, Ne.symm hbl]
  rw [List.append_cons] at hat
  have hdoes := skipIgnored_scans.does hat.append.1.along hpre hl hc spaceFlag
  rw [hflag, one_mul] at hdoes
  exact hdoes

end

/-! ## The whole write -/

def scriptOuts (s : List (Gap × UInt8)) : List Out :=
  s.flatMap fun p => gapOuts p.1 ++ letterOuts p.2

theorem scriptOuts_cons (g : Gap) (b : UInt8) (s : List (Gap × UInt8)) :
    scriptOuts ((g, b) :: s) = gapOuts g ++ (letterOuts b ++ scriptOuts s) := by
  simp [scriptOuts]

/-- All that a write does when every put is accepted. -/
def writeOuts (s : List (Gap × UInt8)) : List Out :=
  scriptOuts s ++ [.led false, .put newline true]

/-- The first letter of a list, and what is before it. -/
theorem split_first_letter {bs : List UInt8} (h : ∃ b ∈ bs, isAlpha b = true) :
    ∃ pre l post, bs = pre ++ l :: post ∧ (∀ b ∈ pre, isAlpha b = false) ∧ isAlpha l = true := by
  induction bs with
  | nil => obtain ⟨b, hb, -⟩ := h; cases hb
  | cons a bs ih =>
    by_cases ha : isAlpha a = true
    · exact ⟨[], a, bs, rfl, by simp, ha⟩
    · obtain ⟨b, hb, hbl⟩ := h
      rcases List.mem_cons.mp hb with rfl | hb
      · exact absurd hbl ha
      · obtain ⟨pre, l, post, rfl, hpre, hl⟩ := ih ⟨b, hb, hbl⟩
        refine ⟨a :: pre, l, post, rfl, ?_, hl⟩
        intro b hb
        rcases List.mem_cons.mp hb with rfl | hb
        · simpa using ha
        · exact hpre b hb

/-- The last letter of a list, and what is after it. -/
theorem split_last_letter {bs : List UInt8} (h : ∃ b ∈ bs, isAlpha b = true) :
    ∃ (front : List UInt8) (l : UInt8) (back : List UInt8), bs = front ++ l :: back.reverse ∧
      (∀ b ∈ back, isAlpha b = false) ∧ isAlpha l = true := by
  obtain ⟨pre, l, post, hsplit, hpre, hl⟩ := @split_first_letter bs.reverse
    (by simpa using h)
  refine ⟨post.reverse, l, pre, ?_, hpre, hl⟩
  rw [← List.reverse_reverse bs, hsplit]
  simp

/-- What a round of the `for` loop does once it has found its letter. -/
def writeLetter (u : UserBuf) (start end_ : Int) (n : Nat) (notFirst spaceFlag : Bool)
    (morseValue : UInt16) (next : Int) : Drv Bool := do
  if ← gap notFirst spaceFlag then
    let _ ← flash_leds morseValue
    writeLoop u start end_ n next false
  else return false

/-- One round of the `for` loop, from `curr` with the bytes `rest` ahead: it finds the letter `l`,
whose script entry is the next one, and goes on at `next` with the bytes `post` ahead. -/
structure Round (u : UserBuf) (start curr : Int) (rest : List UInt8) (l : UInt8)
    (post : List UInt8) (next : Int) (notFirst spaceFlag : Bool)
    (head : List (Event Call Call.Answer)) : Prop where
  silent : outs head = []
  letter : isAlpha l = true
  script : scriptFrom (if curr = start then .none else .letter) rest =
    (gapOf notFirst spaceFlag, l) :: scriptFrom .letter post
  at_next : u.At next post
  after : start < next
  shorter : post.length < rest.length
  end_eq : curr + rest.length = next + post.length
  last : ∀ x ∈ post.getLast?, isAlpha x = true
  trace : ∀ n evs ok, Trace (writeLoop u start (curr + rest.length) (n + 1) curr false) evs ok ↔
    ∃ ys, evs = head ++ ys ∧ Trace (writeLetter u start (next + post.length) n notFirst spaceFlag
      (charToMorse l) next) ys ok

/-- The gap that is waited for before the letter `l` is the one the script has there. -/
theorem gapOf_before {start curr : Int} {pre : List UInt8} {l : UInt8} (hl : isAlpha l = true)
    (hstart : start ≤ curr) (hfirst : curr = start → pre = []) :
    gapOf (curr + pre.length != start && charToMorse l != 1 && charToMorse l != 0)
      (false || decide (blank ∈ pre)) =
    if blank ∈ pre then (if curr = start then Gap.none else Gap.letter).spaced
    else if curr = start then Gap.none else Gap.letter := by
  have hne := charToMorse_letter hl
  by_cases hs : curr = start
  · obtain rfl := hfirst hs
    simp [gapOf, hs]
  · have hpos : curr + (pre.length : Int) ≠ start := by omega
    by_cases hbl : blank ∈ pre <;> simp [gapOf, hs, hpos, hne, hbl, Gap.spaced]

/-- `rest` is not empty and ends with a letter, and starts with one when it is the whole trimmed
text. -/
theorem writeLoop_round {u : UserBuf} {start : Int} {rest : List UInt8} {curr : Int}
    (hat : u.At curr rest) (hne : rest ≠ []) (hstart : start ≤ curr)
    (hlast : ∀ x ∈ rest.getLast?, isAlpha x = true)
    (hfirst : curr = start → ∀ x ∈ rest.head?, isAlpha x = true) :
    ∃ l post next notFirst spaceFlag head,
      Round u start curr rest l post next notFirst spaceFlag head := by
  obtain ⟨pre, l, post, hsplit, hpre, hl⟩ := @split_first_letter rest
    ⟨rest.getLast hne, List.getLast_mem _, hlast _ (List.getLast?_eq_some_getLast _)⟩
  obtain ⟨c, hc⟩ : ∃ c, u.mem curr = some c := by
    cases rest with
    | nil => exact absurd rfl hne
    | cons c _ => exact ⟨c, hat.head⟩
  have hat' : u.At curr (pre ++ l :: post) := hsplit ▸ hat
  have hnone : curr = start → pre = [] := by
    intro hs
    cases pre with
    | nil => rfl
    | cons b pre =>
      have h1 := hfirst hs b (by simp [hsplit])
      rw [hpre b List.mem_cons_self] at h1
      cases h1
  have hend : curr + (rest.length : Int) = curr + pre.length + 1 + post.length := by
    rw [hsplit]; simp; omega
  obtain ⟨head₁, ho₁, h₁⟩ := @Does.silent_bind _ Bool _ _ (Does.copy u curr)
  obtain ⟨head₂, ho₂, h₂⟩ := @Does.silent_bind _ Bool _ _ (skipIgnored_does hat' hpre hl hc false)
  refine ⟨l, post, curr + pre.length + 1,
    curr + pre.length != start && charToMorse l != 1 && charToMorse l != 0,
    false || decide (blank ∈ pre), head₁ ++ head₂, by rw [outs_append, ho₁, ho₂]; rfl,
    hl, ?_, hat'.append.2.tail, by omega, by rw [hsplit]; simp; omega, hend, ?_,
    fun n evs ok => ?_⟩
  · rw [hsplit, scriptFrom_skip hpre _ hl, ← gapOf_before hl hstart hnone]
  · intro x hx
    exact hlast x (by
      rw [hsplit, List.getLast?_append, List.getLast?_cons, Option.mem_def.mp hx]; rfl)
  · have hlt : curr < curr + (rest.length : Int) := by
      have := List.length_pos_of_ne_nil hne
      omega
    rw [writeLoop, if_pos hlt, h₁]
    simp only [hc, h₂]
    rw [← hend]
    constructor
    · rintro ⟨_, rfl, ys, rfl, h⟩
      exact ⟨ys, (List.append_assoc _ _ _).symm, h⟩
    · rintro ⟨ys, rfl, h⟩
      exact ⟨head₂ ++ ys, List.append_assoc _ _ _, ys, rfl, h⟩

/-- **The `for` loop** performs the script of what it walks over. -/
theorem writeLoop_does {u : UserBuf} {start : Int} {rest : List UInt8} {n : Nat} {curr : Int}
    (hat : u.At curr rest) (hn : rest.length ≤ n) (hstart : start ≤ curr)
    (hlast : ∀ x ∈ rest.getLast?, isAlpha x = true)
    (hfirst : curr = start → ∀ x ∈ rest.head?, isAlpha x = true) :
    Does (writeLoop u start (curr + rest.length) n curr false)
      (scriptOuts (scriptFrom (if curr = start then .none else .letter) rest)) true := by
  induction n generalizing rest curr with
  | zero =>
    obtain rfl : rest = [] := List.length_eq_zero_iff.mp (by omega)
    exact Does.pure true
  | succ n ih =>
    by_cases hne : rest = []
    · subst hne
      rw [writeLoop, if_neg (by simp)]
      exact Does.pure true
    · obtain ⟨l, post, next, notFirst, spaceFlag, head, round⟩ :=
        writeLoop_round hat hne hstart hlast hfirst
      have hafter := round.after
      obtain ⟨v, hflash⟩ := flash_leds_does round.letter
      have hrest := @ih post next round.at_next (by have := round.shorter; omega) (by omega)
        round.last (fun h => absurd h (by omega))
      rw [if_neg (by omega)] at hrest
      have hletter : Does (writeLetter u start (next + post.length) n notFirst spaceFlag
          (charToMorse l) next) _ true := (gap_does _ _).bind (hflash.bind hrest)
      obtain ⟨ys, ht, ho⟩ := hletter
      refine ⟨head ++ ys, (round.trace n _ _).mpr ⟨ys, rfl, ht⟩, ?_⟩
      rw [outs_append, round.silent, ho, round.script, scriptOuts_cons]
      rfl

theorem int_end {u : UserBuf} : Int.bmod u.count (2 ^ 32) = u.count := by
  have h := u.count_le
  simp only [MAX_RW_COUNT] at h
  simp only [Int.bmod]
  omega

/-- Where the trim loops leave a readable buffer with a letter: at its first and last letter. -/
theorem trim_spaces_does {u : UserBuf} {bytes : List UInt8} (h : u.Holds bytes)
    (hletter : ∃ b ∈ bytes, isAlpha b = true) {c : UInt8} (hc : u.mem 0 = some c) :
    ∃ (start : Int) (rest : List UInt8), 0 ≤ start ∧
      Does (trim_spaces u c 0 u.count) [] (some (start, start + rest.length)) ∧
      u.At start rest ∧ (∀ x ∈ rest.getLast?, isAlpha x = true) ∧
      (∀ x ∈ rest.head?, isAlpha x = true) ∧ scriptFrom .none rest = script bytes := by
  obtain ⟨hcount, hat⟩ := h
  obtain ⟨pre, l, post, hbytes, hpre, hl⟩ := split_first_letter hletter
  obtain ⟨front, l', back, hpost, hback, hl'⟩ := @split_last_letter (l :: post)
    ⟨l, List.mem_cons_self, hl⟩
  have hall : bytes = (pre ++ front) ++ l' :: back.reverse := by rw [hbytes, hpost]; simp
  have hlen : (u.count : Int) = 0 + (pre ++ front).length + back.length + 1 := by
    rw [hcount, hall]; simp; omega
  obtain ⟨z, hz⟩ : ∃ z, u.mem (0 + (pre ++ front).length + back.length) = some z := by
    have := hat ((pre ++ front).length + back.length) (by rw [hall]; simp; omega)
    exact ⟨_, by simpa [Int.add_assoc] using this⟩
  have hfront := trimFront_does (hbytes ▸ hat) hpre hl hc
  have hlast := trimBack_does (hall ▸ hat) hback hl' hz
  refine ⟨pre.length, front ++ [l'], by omega, ?_, ?_, by simp [hl'], ?_, ?_⟩
  · unfold trim_spaces
    refine hfront.then_does ?_
    simp only
    refine (Does.copy u _).then_does ?_
    rw [hlen, Int.add_sub_cancel, hz]
    simp only
    refine hlast.then_does ?_
    simp only [List.length_append, List.length_singleton]
    convert Does.pure _ using 3
    · omega
    · push_cast; omega
  · have hat' : u.At 0 (pre ++ ((front ++ [l']) ++ back.reverse)) := by
      rw [hall] at hat; simpa using hat
    simpa using hat'.append.2.append.1
  · intro x hx
    cases front with
    | nil => cases hx; exact hl'
    | cons f front =>
      obtain rfl : l = f := (List.cons.inj hpost).1
      cases hx; exact hl
  · rw [script, hbytes, scriptFrom_skip hpre _ hl]
    have hlp : l :: post = (front ++ [l']) ++ back.reverse := by rw [hpost]; simp
    rw [← @scriptFrom_append_ignored back.reverse (by simpa using hback), ← hlp, scriptFrom,
      if_pos hl]
    simp [Gap.spaced]

/-- **What `my_write` does on a readable buffer with a letter, when every put is accepted.** -/
theorem my_write_does {u : UserBuf} {bytes : List UInt8} (h : u.Holds bytes)
    (hletter : ∃ b ∈ bytes, isAlpha b = true) (ppos : Int) :
    Does (my_write u ppos) (writeOuts (script bytes)) (u.count, ppos + u.count) := by
  obtain ⟨c, hc⟩ : ∃ c, u.mem 0 = some c := by
    obtain ⟨b, hb, -⟩ := hletter
    exact ⟨_, h.2 0 (List.length_pos_of_mem hb)⟩
  obtain ⟨start, rest, h0, htrim, hat, hlast, hfirst, hscript⟩ := trim_spaces_does h hletter hc
  have hloop := writeLoop_does hat (le_refl rest.length) le_rfl hlast fun _ => hfirst
  rw [if_pos rfl, hscript] at hloop
  rw [my_write, int_end]
  refine (Does.copy u 0).then_does ?_
  rw [hc]
  refine htrim.then_does ?_
  simp only [Option.getD_some, add_sub_cancel_left, Int.toNat_natCast]
  refine hloop.bind ?_
  rw [if_pos rfl]
  exact (Does.led false).bind ((Does.put newline true).bind (Does.pure _))

/-! ## Puts -/

/-- The characters offered to the FIFO, each with the answer. -/
def puts (os : List Out) : List (UInt8 × Bool) :=
  os.filterMap fun
    | .put c ok => some (c, ok)
    | _ => none

@[simp] theorem puts_append (xs ys : List Out) : puts (xs ++ ys) = puts xs ++ puts ys :=
  List.filterMap_append

@[simp] theorem puts_led (full : Bool) (os : List Out) : puts (.led full :: os) = puts os := rfl

@[simp] theorem puts_sleep (ms : Nat) (os : List Out) : puts (.sleep ms :: os) = puts os := rfl

@[simp] theorem puts_put (c : UInt8) (ok : Bool) (os : List Out) :
    puts (.put c ok :: os) = (c, ok) :: puts os := rfl

@[simp] theorem puts_nil : puts [] = [] := rfl

theorem puts_gapOuts (g : Gap) : puts (gapOuts g) = g.text.map (·, true) := by
  cases g <;> rfl

/-- The pauses inside a letter put nothing. -/
theorem puts_symbols (cs : List UInt8) :
    puts (symbolGapOuts.intercalate (cs.map symbolOuts)) = cs.map (·, true) := by
  induction cs with
  | nil => rfl
  | cons c cs ih =>
    cases cs with
    | nil => simp [symbolOuts]
    | cons d cs =>
      rw [List.map_cons, List.map_cons] at ih ⊢
      rw [List.intercalate_cons_cons, puts_append, puts_append, ih]
      simp [symbolOuts, symbolGapOuts]

/-- **The accepted puts of a write are the encoding of the buffer.** -/
theorem puts_writeOuts (bytes : List UInt8) :
    puts (writeOuts (script bytes)) = (encoding bytes).map (·, true) := by
  have hscript : ∀ s : List (Gap × UInt8), puts (scriptOuts s) = (scriptText s).map (·, true) := by
    intro s
    induction s with
    | nil => rfl
    | cons p s ih =>
      obtain ⟨g, b⟩ := p
      rw [scriptOuts_cons, puts_append, puts_append, puts_gapOuts, letterOuts, puts_symbols, ih]
      simp [scriptText]
  simp [writeOuts, encoding, hscript]

/-! ## Every other trace -/

theorem trace_copy {u : UserBuf} {i : Int} {evs : List (Event Call Call.Answer)}
    {a : Option UInt8} :
    Trace (copy_from_user u i) evs a ↔ evs = [⟨.copy_from_user i, ()⟩] ∧ a = u.mem i := by
  constructor
  · intro h
    obtain ⟨r, evs', rfl, hret⟩ := trace_act.mp h
    obtain ⟨rfl, rfl⟩ := trace_ret.mp hret
    exact ⟨rfl, rfl⟩
  · rintro ⟨rfl, rfl⟩; exact .act (.ret _)

theorem trace_led {full : Bool} {evs : List (Event Call Call.Answer)} {a : Unit} :
    Trace (led_trigger_event full) evs a ↔ evs = [⟨.led_trigger_event full, ()⟩] := by
  constructor
  · intro h
    obtain ⟨r, evs', rfl, hret⟩ := trace_act.mp h
    obtain ⟨rfl, -⟩ := trace_ret.mp hret
    rfl
  · rintro rfl; exact .act (.ret _)

theorem trace_put {c : UInt8} {evs : List (Event Call Call.Answer)} {ok : Bool} :
    Trace (kfifo_put c) evs ok ↔ evs = [⟨.kfifo_put c, ok⟩] := by
  constructor
  · intro h
    obtain ⟨r, evs', rfl, hret⟩ := trace_act.mp h
    obtain ⟨rfl, rfl⟩ := trace_ret.mp hret
    rfl
  · rintro rfl; exact .act (.ret _)

/-- **How a write ends**, whatever the FIFO answers: with an error and `*ppos` as it was, or with
`count` after the newline was accepted. -/
theorem my_write_end {u : UserBuf} {ppos : Int} {evs : List (Event Call Call.Answer)}
    {r : Int × Int} (h : Trace (my_write u ppos) evs r) :
    r = (-EFAULT, ppos) ∨
      r = ((u.count : Int), ppos + u.count) ∧ ∃ init, outs evs = init ++ [.led false, .put newline true] := by
  unfold my_write at h
  obtain ⟨xs, _, c, rfl, -, h₁⟩ := trace_bind.mp h
  cases c with
  | none => exact .inl (trace_ret.mp h₁).2
  | some c =>
    obtain ⟨xs', _, t, rfl, -, h₂⟩ := trace_bind.mp h₁
    obtain ⟨xs'', _, ok, rfl, -, h₃⟩ := trace_bind.mp h₂
    cases ok with
    | false => exact .inl (trace_ret.mp h₃).2
    | true =>
      rw [if_pos rfl] at h₃
      obtain ⟨_, _, _, rfl, hled, h₄⟩ := trace_bind.mp h₃
      obtain ⟨_, ys, ok, rfl, hput, h₅⟩ := trace_bind.mp h₄
      rw [trace_led] at hled
      rw [trace_put] at hput
      subst hled hput
      cases ok with
      | false => exact .inl (trace_ret.mp h₅).2
      | true =>
        obtain ⟨rfl, rfl⟩ := trace_ret.mp h₅
        refine .inr ⟨rfl, outs (xs ++ (xs' ++ xs'')), ?_⟩
        simp only [outs_append, List.append_assoc]
        rfl

/-- **A write follows its plan up to the first refused put.** -/
theorem my_write_follows {u : UserBuf} {bytes : List UInt8} (h : u.Holds bytes)
    (hletter : ∃ b ∈ bytes, isAlpha b = true) {ppos : Int}
    {evs : List (Event Call Call.Answer)} {r : Int × Int} (ht : Trace (my_write u ppos) evs r) :
    (outs evs = writeOuts (script bytes) ∧ r = ((u.count : Int), ppos + u.count)) ∨
      ∃ pre c post post', outs evs = pre ++ .put c false :: post ∧
        writeOuts (script bytes) = pre ++ .put c true :: post' := by
  obtain ⟨plan, hplan, houts⟩ := my_write_does h hletter ppos
  rcases ht.agree hplan with ⟨rfl, rfl⟩ | ⟨pre, e, a, a', xs, ys, hne, rfl, rfl⟩
  · exact .inl ⟨houts, rfl⟩
  · cases e with
    | kfifo_put c =>
      have ha' : a' = true := by
        have hmem : (c, a') ∈ puts (writeOuts (script bytes)) := by
          rw [← houts]
          simp only [outs_append, puts_append]
          exact List.mem_append_right _ List.mem_cons_self
        rw [puts_writeOuts] at hmem
        obtain ⟨_, _, h⟩ := List.mem_map.mp hmem
        exact (Prod.mk.inj h).2.symm
      have ha : a = false := by
        cases a with
        | false => rfl
        | true => exact absurd ha'.symm hne
      subst ha ha'
      refine .inr ⟨outs pre, c, outs xs, outs ys, by rw [outs_append]; rfl, ?_⟩
      rw [← houts, outs_append]; rfl
    | copy_from_user i => exact absurd rfl hne
    | led_trigger_event full => exact absurd rfl hne
    | msleep ms => exact absurd rfl hne

end Morse
