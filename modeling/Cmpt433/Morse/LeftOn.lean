import Cmpt433.Morse.Led

/-!
# When `my_write` leaves the LED on (`work/morsecode/morsedriver.c`)

A letter is flashed with the LED on at its end, and it is switched off before the next pause or
after the last letter.  A `copy_from_user` that fails in between makes `my_write` return at once.

* `ends` — a program of the driver on a device of which only the LED and the free places of the
  FIFO are left; `lamp_run` says that nothing else decides what a run does.
* `writeLoop_fault` — the `for` loop on the way to an unreadable byte.
* `writeLoop_reads` — the loop where there is always a letter to be read.
* `led_off_iff` — which buffers and fill levels leave the LED off.
-/

set_option autoImplicit false

namespace Morse

open Interaction

variable {α β : Type}

/-! ## The LED and the free places -/

structure Lamp where
  led : Bool
  free : Nat
  deriving DecidableEq

def lamp : (e : Call) → Lamp → e.Answer × Lamp
  | .kfifo_put _, s => (decide (0 < s.free), { s with free := s.free - 1 })
  | .led_trigger_event full, s => ((), { s with led := full })
  | .copy_from_user _, s => ((), s)
  | .msleep _, s => ((), s)

/-- What a program returns, and how it leaves the device. -/
def ends (p : Drv α) (s : Lamp) : α × Lamp := ((run lamp p s).value, (run lamp p s).state)

/-- **A run against a FIFO**, seen from the LED and the free places. -/
theorem lamp_run (p : Drv α) (led : Bool) (q : Fifo) :
    ends p ⟨led, q.free⟩ = ((run fifo p q).value,
      ⟨ledAfter led (outs (run fifo p q).events), (run fifo p q).state.free⟩) := by
  induction p generalizing led q with
  | ret a => rfl
  | act e k ih =>
    cases e with
    | kfifo_put c =>
      have hput : lamp (.kfifo_put c) ⟨led, q.free⟩ = ((q.put c).1, ⟨led, (q.put c).2.free⟩) := by
        rw [BoundedQueue.put_fst, BoundedQueue.put_free]
        rfl
      change ends (k (lamp (.kfifo_put c) ⟨led, q.free⟩).1) (lamp (.kfifo_put c) ⟨led, q.free⟩).2 =
        _
      rw [hput]
      exact ih (q.put c).1 led (q.put c).2
    | led_trigger_event full => exact ih () full q
    | copy_from_user i => exact ih () led q
    | msleep ms => exact ih () led q

@[simp] theorem ends_pure (a : α) (s : Lamp) : ends (pure a : Drv α) s = (a, s) := rfl

@[simp] theorem ends_bind (p : Drv α) (f : α → Drv β) (s : Lamp) :
    ends (p >>= f) s = ends (f (ends p s).1) (ends p s).2 := by
  unfold ends
  rw [run_bind]

@[simp] theorem ends_copy (u : UserBuf) (i : Int) (s : Lamp) :
    ends (copy_from_user u i) s = (u.mem i, s) := rfl

@[simp] theorem ends_led (full : Bool) (s : Lamp) :
    ends (led_trigger_event full) s = ((), { s with led := full }) := rfl

@[simp] theorem ends_sleep (ms : Nat) (s : Lamp) : ends (msleep ms) s = ((), s) := rfl

@[simp] theorem ends_put (c : UInt8) (s : Lamp) :
    ends (kfifo_put c) s = (decide (0 < s.free), { s with free := s.free - 1 }) := rfl

/-- The device is left as it was if nothing but copies is made. -/
theorem lamp_silent (p : Drv α) (s : Lamp) (h : outs (run lamp p s).events = []) :
    (ends p s).2 = s := by
  induction p generalizing s with
  | ret a => rfl
  | act e k ih =>
    cases e with
    | copy_from_user i => exact ih () s h
    | kfifo_put c => cases h
    | led_trigger_event full => cases h
    | msleep ms => cases h

theorem Does.ends {p : Drv α} {a : α} (h : Does p [] a) (s : Lamp) : ends p s = (a, s) := by
  obtain ⟨head, ho, hp⟩ := h.silent
  obtain ⟨hevents, hvalue⟩ := (hp _ _).mp (run_trace lamp p s).1
  exact Prod.ext hvalue (lamp_silent p s (by rw [hevents, ho]))

theorem ends_of_always {p : Drv α} {Q : α → Prop} (h : Always (fun ev => out ev = none) p Q)
    (s : Lamp) : ∃ a, ends p s = (a, s) ∧ Q a := by
  obtain ⟨hevs, hq⟩ := h _ _ (run_trace lamp p s).1
  exact ⟨_, Prod.ext rfl (lamp_silent p s (List.filterMap_eq_nil_iff.mpr hevs)), hq⟩

/-! ## Letters and gaps -/

/-- A pause comes before another bit. -/
theorem shift_ne_zero {morse : UInt16} (hne : morse ≠ 0) (hbit : ¬ morse &&& 0x8000 = 0x8000) :
    morse <<< 1 ≠ 0 := by
  intro h
  have ht : (morse <<< 1).toNat = morse.toNat * 2 % 65536 := by
    simp [UInt16.toNat_shiftLeft, Nat.shiftLeft_eq]
  have hlt := morse.toNat_lt
  rw [h, UInt16.toNat_zero] at ht
  rcases (show morse.toNat = 0 ∨ morse.toNat = 32768 by omega) with h0 | h0
  · exact hne (UInt16.toNat_inj.mp h0)
  · obtain rfl : morse = 0x8000 := UInt16.toNat_inj.mp h0
    exact hbit (by decide)

/-- A symbol that the FIFO refuses ends the letter, with the LED on. -/
theorem symbol_ends (ms : Nat) (c : UInt8) (p : Drv Int) (s : Lamp) :
    ends (do led_trigger_event true; msleep ms; if ← kfifo_put c then p else return -EFAULT) s =
      if 0 < s.free then ends p ⟨true, s.free - 1⟩ else (-EFAULT, ⟨true, 0⟩) := by
  by_cases hfree : 0 < s.free
  · simp [hfree]
  · simp [Nat.eq_zero_of_not_pos hfree]

theorem flashLoop_zero (n : Nat) : flashLoop n 0 = return 0 := by
  cases n <;> rfl

/-- **A word is flashed with the LED on at the end**, whether the FIFO takes it or not. -/
theorem flashLoop_led {n : Nat} {morse : UInt16} (hne : morse ≠ 0)
    (h : morse.toNat * 2 ^ n % 65536 = 0) (s : Lamp) :
    (ends (flashLoop n morse) s).2.led = true := by
  induction n generalizing morse s with
  | zero => exact absurd (rounds_empty h) hne
  | succ n ih =>
    -- after a symbol the rest is empty, or ends with the LED on
    have hrest : ∀ (m : UInt16) (s : Lamp), m.toNat * 2 ^ n % 65536 = 0 → s.led = true →
        (ends (flashLoop n m) s).2.led = true := by
      intro m s hm hs
      by_cases hzero : m = 0
      · rw [hzero, flashLoop_zero]
        exact hs
      · exact ih hzero hm s
    unfold flashLoop
    rw [if_neg hne]
    split
    · rw [symbol_ends]
      split
      · exact hrest _ _ (rounds_dash h) rfl
      · rfl
    · split
      · rw [symbol_ends]
        split
        · exact hrest _ _ (rounds_dot h) rfl
        · rfl
      · rename_i hbit
        simp only [ends_bind, ends_led, ends_sleep]
        exact ih (shift_ne_zero hne hbit) (rounds_dot h) _

/-- A word takes as many places as it has symbols, or all that are left. -/
theorem flashLoop_free (n : Nat) (morse : UInt16) (s : Lamp) :
    (ends (flashLoop n morse) s).2.free =
      s.free - (puts (outs (run accept (flashLoop n morse) ()).events)).length := by
  induction n generalizing morse s with
  | zero => rfl
  | succ n ih =>
    have hsymbol : ∀ (c : UInt8) (m : UInt16),
        (if 0 < s.free then ends (flashLoop n m) ⟨true, s.free - 1⟩
          else (-EFAULT, ⟨true, 0⟩)).2.free =
        s.free - ((c, true) :: puts (outs (run accept (flashLoop n m) ()).events)).length := by
      intro c m
      rw [List.length_cons]
      split
      · rw [ih]
        dsimp only
        omega
      · dsimp only
        omega
    unfold flashLoop
    split
    · rfl
    · split
      · rw [symbol_ends]
        exact hsymbol dash _
      · split
        · rw [symbol_ends]
          exact hsymbol dot _
        · simp only [ends_bind, ends_led, ends_sleep]
          exact ih _ _

theorem flash_ends {l : UInt8} (hl : isAlpha l = true) (s : Lamp) :
    (ends (flash_leds (charToMorse l)) s).2 = ⟨true, s.free - (letterText l).length⟩ := by
  have hled := flashLoop_led (charToMorse_letter hl).2 (n := 16) (by omega) s
  have hfree := flashLoop_free 16 (charToMorse l) s
  have houts := flash_leds_outs hl
  unfold flash_leds at houts
  rw [houts, letterOuts, puts_symbols, List.length_map] at hfree
  exact congrArg₂ Lamp.mk hled hfree

/-- **A pause**: it needs its places in the FIFO, and switches the LED off. -/
theorem gap_ends (notFirst spaceFlag : Bool) (s : Lamp) :
    ends (gap notFirst spaceFlag) s =
      (decide ((gapOf notFirst spaceFlag).text.length ≤ s.free),
        ⟨s.led && gapOf notFirst spaceFlag = .none,
          s.free - (gapOf notFirst spaceFlag).text.length⟩) := by
  have hletter : ends letterGap s = (decide (1 ≤ s.free), ⟨false, s.free - 1⟩) := rfl
  have hword : ends wordGap s = (decide (3 ≤ s.free), ⟨false, s.free - 3⟩) := by
    obtain ⟨led, free⟩ := s
    rcases free with - | - | - | free <;> simp [wordGap]
  cases spaceFlag
  · cases notFirst
    · simp [gap, gapOf, Gap.text]
    · by_cases hroom : 1 ≤ s.free <;> simp [gap, gapOf, Gap.text, hletter, hroom]
  · cases notFirst <;> simp [gap, gapOf, Gap.text, hword]

/-! ## Scans that meet an unreadable byte -/

theorem Does.copy_act {i : Int} {k : (Call.copy_from_user i).Answer → Drv α} {os : List Out} {a : α}
    (h : Does (k ()) os a) : Does (.act (.copy_from_user i) k) os a := by
  obtain ⟨evs, ht, ho⟩ := h
  exact ⟨⟨.copy_from_user i, ()⟩ :: evs, .act ht, ho⟩

theorem Scans.fault {σ : Type} {d : Int} {f : UserBuf → UInt8 → Int → σ → Drv (Option α)}
    {res : UInt8 → Int → σ → α} {upd : UInt8 → σ → σ} (h : Scans d f res upd) {u : UserBuf}
    {i : Int} {c : UInt8} {pre : List UInt8} (hat : u.Along d i (c :: pre))
    (hpre : ∀ b ∈ c :: pre, isAlpha b = false)
    (hfault : u.mem (i + d * (c :: pre).length) = none) (s : σ) : Does (f u c i s) [] none := by
  induction pre generalizing i c s with
  | nil =>
    have hnext : i + d * (([c] : List UInt8).length : Int) = i + d := by simp
    rw [hnext] at hfault
    rw [h.next (hpre c List.mem_cons_self)]
    refine .copy_act ?_
    rw [hfault]
    exact .ret none
  | cons b pre ih =>
    have hlen : i + d * ((c :: b :: pre).length : Int) = i + d + d * (b :: pre).length := by
      rw [List.length_cons]
      push_cast
      ring
    rw [h.next (hpre c List.mem_cons_self)]
    refine .copy_act ?_
    rw [hat.2.1]
    exact ih hat.2 (fun b hb => hpre b (List.mem_cons_of_mem _ hb)) (hlen ▸ hfault) (upd c s)

section

variable {u : UserBuf} {i : Int} {c : UInt8} {bs : List UInt8}

theorem trimFront_fault (hat : u.At i (c :: bs)) (hbs : ∀ b ∈ c :: bs, isAlpha b = false)
    (hfault : u.mem (i + (c :: bs).length) = none) : Does (trimFront u c i) [] none :=
  trimFront_scans.fault hat.along hbs (by rwa [one_mul]) ()

theorem skipIgnored_fault (hat : u.At i (c :: bs)) (hbs : ∀ b ∈ c :: bs, isAlpha b = false)
    (hfault : u.mem (i + (c :: bs).length) = none) (spaceFlag : Bool) :
    Does (skipIgnored u (charToMorse c) i spaceFlag) [] none :=
  skipIgnored_scans.fault hat.along hbs (by rwa [one_mul]) spaceFlag

end

/-- From `&buff[n-1]` back to the first byte that cannot be read there is a letter. -/
def UserBuf.lastLetter (u : UserBuf) : Nat → Bool
  | 0 => false
  | n + 1 =>
    match u.mem n with
    | none => false
    | some b => isAlpha b || u.lastLetter n

section

variable {u : UserBuf} {n : Nat} {c : UInt8}

theorem lastLetter_succ (hc : u.mem n = some c) :
    u.lastLetter (n + 1) = (isAlpha c || u.lastLetter n) := by
  rw [UserBuf.lastLetter, hc]

/-- A letter with readable bytes after it is found. -/
theorem lastLetter_of_letter {j : Nat} (hj : j < n) (hl : ∃ l, u.mem j = some l ∧ isAlpha l = true)
    (hread : ∀ i : Nat, j ≤ i → i < n → ∃ b, u.mem i = some b) : u.lastLetter n = true := by
  induction n with
  | zero => omega
  | succ n ih =>
    obtain ⟨c, hc⟩ := hread n (by omega) (by omega)
    rw [lastLetter_succ hc, Bool.or_eq_true]
    rcases Nat.lt_succ_iff_lt_or_eq.mp hj with hlt | rfl
    · exact .inr (ih hlt fun i h1 h2 => hread i h1 (by omega))
    · obtain ⟨l, hmem, hl⟩ := hl
      obtain rfl := Option.some.inj (hc.symm.trans hmem)
      exact .inl hl

theorem lastLetter_byte (h : u.lastLetter n = true) : ∃ b, u.mem (n - 1) = some b := by
  cases n with
  | zero => cases h
  | succ n =>
    rw [Nat.cast_succ, Int.add_sub_cancel]
    cases hmem : u.mem n with
    | none =>
      rw [UserBuf.lastLetter, hmem] at h
      cases h
    | some b => exact ⟨b, rfl⟩

/-- The second trim loop stops after the last letter. -/
theorem trimBack_letter (hc : u.mem (n - 1) = some c) (h : u.lastLetter n = true) :
    ∃ e : Nat, e < n ∧ (∃ l, u.mem e = some l ∧ isAlpha l = true) ∧
      (∀ i : Nat, e ≤ i → i < n → ∃ b, u.mem i = some b) ∧
      Does (trimBack u c n) [] (some (e + 1)) := by
  induction n generalizing c with
  | zero => cases h
  | succ n ih =>
    rw [Nat.cast_succ, Int.add_sub_cancel] at hc
    rw [lastLetter_succ hc] at h
    rw [Nat.cast_succ]
    by_cases hl : isAlpha c = true
    · refine ⟨n, by omega, ⟨c, hc, hl⟩, fun i h1 h2 => ?_, ?_⟩
      · obtain rfl : i = n := by omega
        exact ⟨c, hc⟩
      · rw [trimBack_scans.stop (s := ()) hl]
        exact .ret _
    · have hn : u.lastLetter n = true := by simpa [hl] using h
      obtain ⟨b, hb⟩ := lastLetter_byte hn
      obtain ⟨e, hlt, hletter, hread, hdoes⟩ := ih hb hn
      refine ⟨e, by omega, hletter, fun i h1 h2 => ?_, ?_⟩
      · rcases Nat.lt_succ_iff_lt_or_eq.mp h2 with h2 | rfl
        · exact hread i h1 h2
        · exact ⟨c, hc⟩
      · rw [trimBack_scans.next (s := ()) (by simpa using hl)]
        refine .copy_act ?_
        rw [← Int.sub_eq_add_neg, hb]
        simpa using hdoes

/-- Without a letter on the way it meets an unreadable byte of the buffer. -/
theorem trimBack_fault (hc : u.mem (n - 1) = some c) (h : u.lastLetter n = false)
    (hfault : ∃ i : Nat, i < n ∧ u.mem i = none) : Does (trimBack u c n) [] none := by
  induction n generalizing c with
  | zero =>
    obtain ⟨i, hi, -⟩ := hfault
    omega
  | succ n ih =>
    rw [Nat.cast_succ, Int.add_sub_cancel] at hc
    rw [lastLetter_succ hc, Bool.or_eq_false_iff] at h
    rw [Nat.cast_succ, trimBack_scans.next (s := ()) h.1]
    refine .copy_act ?_
    rw [← Int.sub_eq_add_neg]
    cases hb : u.mem (n - 1) with
    | none => exact .ret none
    | some b =>
      have hfault' : ∃ i : Nat, i < n ∧ u.mem i = none := by
        obtain ⟨i, hi, hnone⟩ := hfault
        rcases Nat.lt_succ_iff_lt_or_eq.mp hi with hi | rfl
        · exact ⟨i, hi, hnone⟩
        · rw [hc] at hnone
          cases hnone
      simpa using ih hb h.2 hfault'

end

/-- Whatever the second trim loop finds, it only copies, and does not move the end forward. -/
theorem trimBack_always (u : UserBuf) (c : UInt8) (e : Int) :
    Always (fun ev => out ev = none) (trimBack u c e) fun r => ∀ e' ∈ r, e' ≤ e := by
  obtain ⟨m, hm⟩ : ∃ m, (e - u.lo).toNat = m := ⟨_, rfl⟩
  induction m using Nat.strong_induction_on generalizing c e with
  | _ m ih =>
    have hsplit : e = e - 1 + 1 := by omega
    rw [hsplit]
    cases hl : isAlpha c with
    | true =>
      rw [trimBack_scans.stop (s := ()) hl]
      refine .ret ?_
      rintro _ ⟨⟩
      exact le_rfl
    | false =>
      rw [trimBack_scans.next (s := ()) hl]
      refine .act (fun _ => rfl) fun _ => ?_
      cases hb : u.mem (e - 1 + -1) with
      | none => exact .ret nofun
      | some b =>
        have hbound := u.mem_bound _ _ hb
        refine (ih _ (by omega) b (e - 1 + -1 + 1) rfl).mono fun r hr e' he' => ?_
        have := hr e' he'
        omega

/-! ## The loop on the way to an unreadable byte -/

/-- The text up to the last letter, with the pause before it. -/
def beforeLast : List (Gap × UInt8) → List UInt8
  | [] => []
  | [(g, _)] => g.text
  | (g, b) :: p :: rest => g.text ++ letterText b ++ beforeLast (p :: rest)

theorem gap_length_le (g : Gap) (b : UInt8) (rest : List (Gap × UInt8)) :
    g.text.length ≤ (beforeLast ((g, b) :: rest)).length := by
  cases rest with
  | nil => exact le_rfl
  | cons p rest =>
    rw [beforeLast, List.append_assoc, List.length_append]
    omega

/-- The pause before any letter but the first needs a place. -/
theorem beforeLast_pos {s : List (Gap × UInt8)} (hne : s ≠ []) (hg : ∀ p ∈ s, p.1 ≠ .none) :
    0 < (beforeLast s).length := by
  obtain ⟨⟨g, b⟩, rest, rfl⟩ := List.exists_cons_of_ne_nil hne
  refine Nat.lt_of_lt_of_le ?_ (gap_length_le g b rest)
  have hgap := hg (g, b) List.mem_cons_self
  cases g with
  | none => exact absurd rfl hgap
  | letter | word => decide

/-- The gap in front of the first letter: none if the loop starts with it. -/
def firstGap (start curr : Int) (rest : List UInt8) : Gap :=
  if curr = start ∧ rest.head?.any isAlpha then .none else .letter

theorem gapOf_first {start curr : Int} {pre : List UInt8} {l : UInt8} (post : List UInt8)
    (hpre : ∀ b ∈ pre, isAlpha b = false) (hl : isAlpha l = true) (hstart : start ≤ curr) :
    gapOf (curr + pre.length != start && charToMorse l != 1 && charToMorse l != 0)
      (false || decide (blank ∈ pre)) =
    if blank ∈ pre then (firstGap start curr (pre ++ l :: post)).spaced
    else firstGap start curr (pre ++ l :: post) := by
  have hne := charToMorse_letter hl
  unfold firstGap gapOf
  cases pre with
  | nil => by_cases hs : curr = start <;> simp [hs, hl, hne]
  | cons b pre =>
    have hb := hpre b List.mem_cons_self
    have hpos : ¬ curr + ((pre.length : Int) + 1) = start := by omega
    by_cases hbl : blank ∈ b :: pre
    · simp [hbl, hb, Gap.spaced]
    · simp [hbl, hb, hpos, hne]

section

variable {u : UserBuf} {start end_ curr : Int} {rest : List UInt8} {n : Nat} {s : Lamp}

/-- With no letter ahead the loop flashes nothing. -/
theorem writeLoop_ignored (hat : u.At curr rest) (hrest : ∀ b ∈ rest, isAlpha b = false)
    (hfault : u.mem (curr + rest.length) = none) :
    ends (writeLoop u start end_ n curr false) s = (decide (n = 0 ∨ end_ ≤ curr), s) := by
  cases n with
  | zero => simp [writeLoop]
  | succ n =>
    unfold writeLoop
    split
    · rename_i hend
      rw [decide_eq_false (by omega), ends_bind, ends_copy]
      cases rest with
      | nil =>
        rw [List.length_nil, Nat.cast_zero, Int.add_zero] at hfault
        rw [hfault]
        rfl
      | cons c rest =>
        rw [hat.head]
        simp only [ends_bind]
        rw [(skipIgnored_fault hat hrest hfault false).ends]
        rfl
    · rename_i hend
      rw [decide_eq_true (by omega), ends_pure]

/-- One round: the pause, the letter, and the rest of the loop. -/
theorem writeLoop_letter {pre post : List UInt8} {l : UInt8}
    (hat : u.At curr (pre ++ l :: post)) (hpre : ∀ b ∈ pre, isAlpha b = false)
    (hl : isAlpha l = true) (hstart : start ≤ curr) (hend : curr < end_) :
    ∃ g, scriptFrom (firstGap start curr (pre ++ l :: post)) (pre ++ l :: post) =
        (g, l) :: scriptFrom .letter post ∧
      ends (writeLoop u start end_ (n + 1) curr false) s =
        if g.text.length ≤ s.free then
          ends (writeLoop u start end_ n (curr + pre.length + 1) false)
            ⟨true, s.free - g.text.length - (letterText l).length⟩
        else (false, ⟨false, 0⟩) := by
  obtain ⟨c, hc⟩ : ∃ c, u.mem curr = some c := by
    cases pre with
    | nil => exact ⟨l, hat.head⟩
    | cons b pre => exact ⟨b, hat.head⟩
  refine ⟨_, scriptFrom_skip hpre _ hl post, ?_⟩
  rw [writeLoop, if_pos hend, ends_bind, ends_copy, hc]
  simp only [ends_bind]
  rw [(skipIgnored_does hat hpre hl hc false).ends]
  simp only [ends_bind]
  rw [gap_ends, gapOf_first post hpre hl hstart]
  generalize (if blank ∈ pre then (firstGap start curr (pre ++ l :: post)).spaced
    else firstGap start curr (pre ++ l :: post)) = g
  by_cases hroom : g.text.length ≤ s.free
  · simp only [hroom, decide_true, if_true, ends_bind]
    rw [flash_ends hl]
  · have hgap : g ≠ .none := by
      rintro rfl
      exact hroom (Nat.zero_le _)
    simp [hroom, hgap]
    omega

/-- How the LED is left where a script is flashed and not ended: on, if its last letter is
reached. -/
def litAfter (script : List (Gap × UInt8)) (s : Lamp) : Bool :=
  if script = [] then s.led else decide ((beforeLast script).length ≤ s.free)

/-- A letter is flashed with the LED on, and needs no place in the FIFO. -/
theorem litAfter_letter {g : Gap} {l : UInt8} {post : List UInt8}
    (hroom : g.text.length ≤ s.free) :
    litAfter (scriptFrom .letter post)
        ⟨true, s.free - g.text.length - (letterText l).length⟩ =
      litAfter ((g, l) :: scriptFrom .letter post) s := by
  unfold litAfter
  cases hs : scriptFrom .letter post with
  | nil => simp [beforeLast, hroom]
  | cons p script =>
    -- where the letter does not fit, the pause after it does not
    have hpos := beforeLast_pos (List.cons_ne_nil p script) (hs ▸ scriptFrom_gap (by decide))
    simp only [List.cons_ne_nil, if_false, beforeLast, List.length_append, decide_eq_decide]
    omega

/-- **A loop that comes to an unreadable byte** leaves the LED on, if it comes to the last letter
before it. -/
theorem writeLoop_fault (hat : u.At curr rest) (hfault : u.mem (curr + rest.length) = none)
    (hend : curr + rest.length < end_) (hn : rest.length < n) (hstart : start ≤ curr) :
    (ends (writeLoop u start end_ n curr false) s).1 = false ∧
      (ends (writeLoop u start end_ n curr false) s).2.led =
        litAfter (scriptFrom (firstGap start curr rest) rest) s := by
  induction n generalizing curr rest s with
  | zero => omega
  | succ n ih =>
    by_cases hletter : ∃ b ∈ rest, isAlpha b = true
    · obtain ⟨pre, l, post, rfl, hpre, hl⟩ := split_first_letter hletter
      rw [List.length_append, List.length_cons] at hend hn hfault
      have hnow : curr < end_ := by omega
      obtain ⟨g, hscript, hround⟩ := @writeLoop_letter _ _ _ _ n s _ _ _ hat hpre hl hstart hnow
      rw [hscript, hround]
      by_cases hroom : g.text.length ≤ s.free
      · rw [if_pos hroom, ← litAfter_letter hroom]
        have hnext : firstGap start (curr + pre.length + 1) post = .letter :=
          if_neg fun h => by omega
        rw [← hnext]
        refine ih hat.append.2.tail ?_ ?_ ?_ ?_
        · rw [← hfault]
          congr 1
          push_cast
          ring
        all_goals push_cast at hend; omega
      · have hlong := gap_length_le g l (scriptFrom .letter post)
        rw [if_neg hroom, litAfter, if_neg (List.cons_ne_nil _ _), decide_eq_false (by omega)]
        exact ⟨rfl, rfl⟩
    · have hnone : ∀ b ∈ rest, isAlpha b = false := by simpa using hletter
      rw [writeLoop_ignored hat hnone hfault, scriptFrom_ignored hnone, decide_eq_false (by omega)]
      exact ⟨rfl, rfl⟩

/-- From the index `i` on there is a letter, and what is before it can be read. -/
def LetterAhead (u : UserBuf) (i : Int) : Prop :=
  ∃ pre l, u.At i (pre ++ [l]) ∧ (∀ b ∈ pre, isAlpha b = false) ∧ isAlpha l = true

/-- **A loop that always finds a letter** comes to its end, or stops in a pause. -/
theorem writeLoop_reads (hahead : ∀ i, curr ≤ i → i < end_ → LetterAhead u i)
    (hstart : start ≤ curr) :
    (ends (writeLoop u start end_ n curr false) s).1 = true ∨
      (ends (writeLoop u start end_ n curr false) s).2.led = false := by
  induction n generalizing curr s with
  | zero => exact .inl rfl
  | succ n ih =>
    by_cases hend : curr < end_
    · obtain ⟨pre, l, hat, hpre, hl⟩ := hahead curr le_rfl hend
      obtain ⟨g, -, hround⟩ := writeLoop_letter hat hpre hl hstart hend
      rw [hround]
      split
      · exact ih (fun i h1 h2 => hahead i (by omega) h2) (by omega)
      · exact .inr rfl
    · rw [writeLoop, if_neg hend]
      exact .inl rfl

end

/-! ## The readable bytes -/

/-- The bytes from `&buff[i]` up to the first one that cannot be read, `n` at most. -/
def UserBuf.bytesFrom (u : UserBuf) : Nat → Int → List UInt8
  | 0, _ => []
  | n + 1, i =>
    match u.mem i with
    | none => []
    | some b => b :: u.bytesFrom n (i + 1)

/-- The bytes at `buff` up to the first one that cannot be read. -/
def UserBuf.readable (u : UserBuf) : List UInt8 := u.bytesFrom u.hi.toNat 0

theorem bytesFrom_at (u : UserBuf) (n : Nat) (i : Int) : u.At i (u.bytesFrom n i) := by
  induction n generalizing i with
  | zero => exact .nil u i
  | succ n ih =>
    unfold UserBuf.bytesFrom
    cases hmem : u.mem i with
    | none => exact .nil u i
    | some b => exact .cons hmem (ih (i + 1))

theorem bytesFrom_fault (u : UserBuf) {n : Nat} {i : Int} (hn : u.hi ≤ i + n) :
    u.mem (i + (u.bytesFrom n i).length) = none := by
  induction n generalizing i with
  | zero =>
    cases hmem : u.mem (i + (u.bytesFrom 0 i).length) with
    | none => rfl
    | some b =>
      have hbound := u.mem_bound _ _ hmem
      simp only [UserBuf.bytesFrom, List.length_nil] at hbound
      omega
  | succ n ih =>
    unfold UserBuf.bytesFrom
    cases hmem : u.mem i with
    | none => simpa using hmem
    | some b =>
      have hnext := @ih (i + 1) (by push_cast at hn; omega)
      rw [← hnext]
      congr 1
      simp
      ring

theorem readable_at (u : UserBuf) : u.At 0 u.readable := bytesFrom_at u _ 0

theorem readable_fault (u : UserBuf) : u.mem u.readable.length = none := by
  have hfault := @bytesFrom_fault u u.hi.toNat 0 (by omega)
  rwa [Int.zero_add] at hfault

theorem readable_byte (u : UserBuf) {i : Int} (h0 : 0 ≤ i) (hi : i < u.readable.length) :
    ∃ b, u.mem i = some b := by
  have hmem := readable_at u i.toNat (by omega)
  rw [Int.zero_add, Int.toNat_of_nonneg h0] at hmem
  exact ⟨_, hmem⟩

/-- Up to a letter a letter is ahead. -/
theorem letterAhead {u : UserBuf} {i e : Int} (hle : i ≤ e)
    (hread : ∀ j, i ≤ j → j < e → ∃ b, u.mem j = some b)
    (hl : ∃ l, u.mem e = some l ∧ isAlpha l = true) : LetterAhead u i := by
  obtain ⟨m, hm⟩ : ∃ m, (e - i).toNat = m := ⟨_, rfl⟩
  induction m generalizing i with
  | zero =>
    obtain rfl : i = e := by omega
    obtain ⟨l, hmem, hl⟩ := hl
    exact ⟨[], l, .cons hmem (.nil u _), nofun, hl⟩
  | succ m ih =>
    obtain ⟨b, hb⟩ := hread i le_rfl (by omega)
    cases hbl : isAlpha b with
    | true => exact ⟨[], b, .cons hb (.nil u _), nofun, hbl⟩
    | false =>
      obtain ⟨pre, l, hat, hpre, hl⟩ := @ih (i + 1) (by omega)
        (fun j h1 h2 => hread j (by omega) h2) (by omega)
      exact ⟨b :: pre, l, .cons hb hat, List.forall_mem_cons.mpr ⟨hbl, hpre⟩, hl⟩

/-! ## The whole write -/

section

variable {u : UserBuf} {c : UInt8} {f : Int}

theorem trim_spaces_ends (hfront : Does (trimFront u c 0) [] (some f)) (s : Lamp) :
    ends (trim_spaces u c 0 u.count) s =
      match u.mem (u.count - 1) with
      | none => (none, s)
      | some b =>
        ((ends (trimBack u b u.count) s).1.map (f, ·), (ends (trimBack u b u.count) s).2) := by
  unfold trim_spaces
  rw [ends_bind, hfront.ends, ends_bind, ends_copy]
  cases u.mem (u.count - 1) with
  | none => rfl
  | some b =>
    simp only [ends_bind]
    cases (ends (trimBack u b u.count) s).1 <;> rfl

/-- The trim ends at the first letter and after the last one. -/
theorem trim_spaces_last (hfront : Does (trimFront u c 0) [] (some f))
    (hlast : u.lastLetter u.count = true) (s : Lamp) :
    ∃ e : Nat, e < u.count ∧ (∃ l, u.mem e = some l ∧ isAlpha l = true) ∧
      (∀ i : Nat, e ≤ i → i < u.count → ∃ b, u.mem i = some b) ∧
      ends (trim_spaces u c 0 u.count) s = (some (f, (e : Int) + 1), s) := by
  obtain ⟨b, hb⟩ := lastLetter_byte hlast
  obtain ⟨e, hlt, hletter, hread, hback⟩ := trimBack_letter hb hlast
  refine ⟨e, hlt, hletter, hread, ?_⟩
  rw [trim_spaces_ends hfront, hb]
  simp only [hback.ends]
  rfl

/-- It fails at an unreadable byte behind all letters. -/
theorem trim_spaces_fault (hfront : Does (trimFront u c 0) [] (some f))
    (hlast : u.lastLetter u.count = false) (hfault : ∃ i : Nat, i < u.count ∧ u.mem i = none)
    (s : Lamp) : ends (trim_spaces u c 0 u.count) s = (none, s) := by
  rw [trim_spaces_ends hfront]
  cases hb : u.mem (u.count - 1) with
  | none => rfl
  | some b =>
    simp only [(trimBack_fault hb hlast hfault).ends]
    rfl

/-- Whatever it finds, it does not move the end forward. -/
theorem trim_spaces_le (hfront : Does (trimFront u c 0) [] (some f)) (s : Lamp) :
    ∃ r, ends (trim_spaces u c 0 u.count) s = (r, s) ∧ ∀ e ∈ r, e.1 = f ∧ e.2 ≤ u.count := by
  rw [trim_spaces_ends hfront]
  cases u.mem (u.count - 1) with
  | none => exact ⟨none, rfl, nofun⟩
  | some b =>
    obtain ⟨r, hr, hle⟩ := ends_of_always (trimBack_always u b u.count) s
    simp only [hr]
    refine ⟨_, rfl, fun e he => ?_⟩
    obtain ⟨e', he', rfl⟩ := Option.mem_map.mp he
    exact ⟨rfl, hle e' he'⟩

end

/-- After the trim the LED is left as the loop leaves it, if it does not come to its end. -/
theorem my_write_ends {u : UserBuf} {c : UInt8} (hc : u.mem 0 = some c) {s : Lamp}
    {r : Option (Int × Int)} (htrim : ends (trim_spaces u c 0 u.count) s = (r, s)) (ppos : Int) :
    let ends_ := r.getD (0, u.count)
    let loop := ends (writeLoop u ends_.1 ends_.2 (ends_.2 - ends_.1).toNat ends_.1 false) s
    (ends (my_write u ppos) s).2.led = (!loop.1 && loop.2.led) := by
  intro ends_ loop
  unfold my_write
  rw [int_end, ends_bind, ends_copy, hc]
  simp only [ends_bind, htrim]
  change (ends (if loop.1 then _ else _) loop.2).2.led = _
  cases loop.1 with
  | false => rfl
  | true =>
    rw [if_pos rfl, ends_bind, ends_led, ends_bind, ends_put]
    split <;> rfl

/-- The letters before the first unreadable byte, with their pauses.  There is a pause before the
first one if the trim fails and the buffer does not start with a letter. -/
def walked (u : UserBuf) : List (Gap × UInt8) :=
  scriptFrom (if u.lastLetter u.count || u.readable.head?.any isAlpha then .none else .letter)
    u.readable

/-- **The LED is left on**: a byte of the buffer cannot be read, there is a letter before it, and
the FIFO has room for the text up to the last such letter. -/
def LeavesLit (u : UserBuf) (free : Nat) : Prop :=
  u.readable.length < u.count ∧ walked u ≠ [] ∧ (beforeLast (walked u)).length ≤ free

theorem not_leavesLit {u : UserBuf} (h : u.count ≤ u.readable.length) (free : Nat) :
    ¬ LeavesLit u free := fun hlit => absurd hlit.1 (by omega)

section

variable {u : UserBuf} {c : UInt8} {s : Lamp}

/-- A buffer without a letter before the first unreadable byte. -/
theorem my_write_ignored (hc : u.mem 0 = some c) (hnone : ∀ b ∈ u.readable, isAlpha b = false)
    (ppos : Int) (hs : s.led = false) : (ends (my_write u ppos) s).2.led = false := by
  have htrim : Does (trim_spaces u c 0 u.count) [] none := by
    have hat := readable_at u
    have hfault := readable_fault u
    cases hr : u.readable with
    | nil =>
      rw [hr, List.length_nil, Nat.cast_zero, hc] at hfault
      cases hfault
    | cons b bs =>
      rw [hr] at hat hfault hnone
      obtain rfl : b = c := Option.some.inj (hat.head.symm.trans hc)
      exact (trimFront_fault hat hnone (by rwa [Int.zero_add])).then_does (.ret none)
  rw [my_write_ends hc (htrim.ends s), Option.getD_none,
    writeLoop_ignored (readable_at u) hnone (by simpa using readable_fault u)]
  simp [hs]

/-- A buffer all of which can be read, or that is read no further than it has letters. -/
theorem my_write_reads (hc : u.mem 0 = some c) {r : Option (Int × Int)}
    (htrim : ends (trim_spaces u c 0 u.count) s = (r, s))
    (hahead : ∀ i, (r.getD (0, u.count)).1 ≤ i → i < (r.getD (0, u.count)).2 → LetterAhead u i)
    (ppos : Int) : (ends (my_write u ppos) s).2.led = false := by
  rw [my_write_ends hc htrim]
  rcases writeLoop_reads hahead le_rfl with h | h <;> rw [h] <;> simp

/-- A buffer whose letters come before an unreadable byte. -/
theorem my_write_fault (hc : u.mem 0 = some c) {r : Option (Int × Int)} {rest : List UInt8}
    (htrim : ends (trim_spaces u c 0 u.count) s = (r, s))
    (hat : u.At (r.getD (0, u.count)).1 rest)
    (hfault : u.mem ((r.getD (0, u.count)).1 + rest.length) = none)
    (hend : (r.getD (0, u.count)).1 + rest.length < (r.getD (0, u.count)).2) (ppos : Int) :
    (ends (my_write u ppos) s).2.led =
      litAfter (scriptFrom (if rest.head?.any isAlpha then .none else .letter) rest) s := by
  have hn : rest.length < ((r.getD (0, u.count)).2 - (r.getD (0, u.count)).1).toNat := by omega
  obtain ⟨hvalue, hled⟩ := @writeLoop_fault _ _ _ _ _ _ s hat hfault hend hn le_rfl
  rw [my_write_ends hc htrim, hvalue, hled, firstGap]
  simp

end

section

variable {u : UserBuf} {c l : UInt8} {pre post : List UInt8}

/-- All bytes of the buffer can be read: there is a letter ahead wherever the loop is. -/
theorem my_write_long (hsplit : u.readable = pre ++ l :: post) (hl : isAlpha l = true)
    (hc : u.mem 0 = some c) (hfront : Does (trimFront u c 0) [] (some (pre.length : Int)))
    (hlong : u.count ≤ u.readable.length) (ppos : Int) (s : Lamp) :
    (ends (my_write u ppos) s).2.led = false := by
  cases hlast : u.lastLetter u.count with
  | true =>
    obtain ⟨e, hlt, hletter, -, htrim⟩ := trim_spaces_last hfront hlast s
    refine my_write_reads hc htrim (fun i h1 h2 => ?_) ppos
    simp only [Option.getD_some] at h1 h2
    exact letterAhead (by omega) (fun j h3 h4 => readable_byte u (by omega) (by omega)) hletter
  | false =>
    have hmem : u.mem pre.length = some l := by
      have hat := (hsplit ▸ readable_at u).append.2.head
      rwa [Int.zero_add] at hat
    -- the first letter is behind the buffer
    have hbehind : u.count ≤ pre.length := by
      by_contra hlt
      have := lastLetter_of_letter (by omega : pre.length < u.count) ⟨l, hmem, hl⟩
        fun i _ hi => readable_byte u (by omega) (by omega)
      rw [hlast] at this
      cases this
    obtain ⟨r, htrim, hr⟩ := trim_spaces_le hfront s
    refine my_write_reads hc htrim (fun i h1 h2 => ?_) ppos
    cases r with
    | none =>
      simp only [Option.getD_none] at h1 h2
      rw [hsplit, List.length_append] at hlong
      refine letterAhead (by omega) (fun j h3 h4 => readable_byte u (by omega) ?_) ⟨l, hmem, hl⟩
      rw [hsplit, List.length_append, List.length_cons]
      omega
    | some e =>
      obtain ⟨hstart, hend⟩ := hr e rfl
      rw [Option.getD_some] at h1 h2
      omega

/-- An unreadable byte of the buffer comes after the first letter. -/
theorem my_write_short (hsplit : u.readable = pre ++ l :: post)
    (hpre : ∀ b ∈ pre, isAlpha b = false) (hl : isAlpha l = true) (hc : u.mem 0 = some c)
    (hfront : Does (trimFront u c 0) [] (some (pre.length : Int)))
    (hshort : u.readable.length < u.count) (ppos : Int) (s : Lamp) :
    (ends (my_write u ppos) s).2.led = litAfter (walked u) s := by
  have hat := readable_at u
  have hfault := readable_fault u
  cases hlast : u.lastLetter u.count with
  | true =>
    obtain ⟨e, hlt, hletter, hread, htrim⟩ := trim_spaces_last hfront hlast s
    have hbefore : u.readable.length < e := by
      by_contra hle
      obtain ⟨b, hb⟩ := hread u.readable.length (by omega) hshort
      rw [hb] at hfault
      cases hfault
    have hrest : u.At pre.length (l :: post) := by
      have := (hsplit ▸ hat).append.2
      rwa [Int.zero_add] at this
    have hlen : (pre.length : Int) + (l :: post).length = u.readable.length := by
      rw [hsplit, List.length_append]
      push_cast
      rfl
    have hled := my_write_fault hc htrim hrest (by rwa [Option.getD_some, hlen])
      (by rw [Option.getD_some, hlen]; omega) ppos
    -- what stands before the first letter leaves no gap
    rw [hled, walked, hlast, hsplit, scriptFrom_skip hpre _ hl]
    simp [scriptFrom, hl, Gap.spaced]
  | false =>
    have htrim := trim_spaces_fault hfront hlast ⟨_, hshort, hfault⟩ s
    rw [my_write_fault hc htrim hat (by simpa using hfault) (by simpa using hshort) ppos, walked,
      hlast, Bool.false_or]

end

/-- **When the LED is left off**: exactly when `LeavesLit` does not hold. -/
theorem led_off_iff (u : UserBuf) (ppos : Int) (q : Fifo) :
    ledAfter false (outs (run fifo (my_write u ppos) q).events) = false ↔ ¬ LeavesLit u q.free := by
  have hrun := congrArg (·.2.led) (lamp_run (my_write u ppos) false q)
  simp only at hrun
  rw [← hrun]
  by_cases hletter : ∃ b ∈ u.readable, isAlpha b = true
  · obtain ⟨pre, l, post, hsplit, hpre, hl⟩ := split_first_letter hletter
    obtain ⟨c, hc⟩ := readable_byte u le_rfl (by rw [hsplit]; simp; omega)
    have hfront : Does (trimFront u c 0) [] (some (pre.length : Int)) := by
      simpa using trimFront_does (hsplit ▸ readable_at u) hpre hl hc
    by_cases hlong : u.count ≤ u.readable.length
    · exact iff_of_true (my_write_long hsplit hl hc hfront hlong ppos _) (not_leavesLit hlong _)
    · have hne : walked u ≠ [] := by
        rw [walked, hsplit, scriptFrom_skip hpre _ hl]
        exact List.cons_ne_nil _ _
      rw [my_write_short hsplit hpre hl hc hfront (by omega) ppos, litAfter, if_neg hne,
        decide_eq_false_iff_not, LeavesLit]
      simp [hne, not_le.mp hlong]
  · have hnone : ∀ b ∈ u.readable, isAlpha b = false := by simpa using hletter
    refine iff_of_true ?_ fun hlit => hlit.2.1 (scriptFrom_ignored hnone _)
    cases hc : u.mem 0 with
    | none =>
      unfold my_write
      rw [ends_bind, ends_copy, hc]
      rfl
    | some c => exact my_write_ignored hc hnone ppos rfl

/-- One letter, and a byte that cannot be read. -/
def tornBuf : UserBuf where
  count := 2
  mem i := if i = 0 then some chA else none
  lo := 0
  hi := 1
  mem_bound i b h := by
    split at h
    · omega
    · cases h
  count_le := by decide

/-- **The LED is left on** by a buffer whose second byte cannot be read. -/
theorem left_on :
    ledAfter false (outs (run fifo (my_write tornBuf 0) ⟨[], by decide⟩).events) = true := by
  decide +kernel

end Morse
