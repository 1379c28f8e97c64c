import Cmpt433.Lib.Interference
import Cmpt433.Morse.Encode

/-!
# A write with concurrent reads

`my_read` drains the FIFO in one step; any number of reads may come between any two actions of
one `my_write`.  The gaps and the newline are checked puts, but the result of `flash_leds` is
dropped: a dot or dash refused while the FIFO is full is lost, and `my_write` still returns
`count` when a reader has made room by the time of the next checked put.

* `conservation` — what was in the FIFO and what it accepted is what was drained and what is left.
* `my_write_puts` — a write never makes more puts than its encoding has characters.
* `no_loss_iff` — nothing is lost exactly when every symbol found room and no read faulted after
  it had drained something.
-/

set_option autoImplicit false

namespace Morse

open Interaction Runs

/-! ## `my_read` -/

/-- One `read` request: `count` bytes, of which `writable` can be copied to user memory. -/
structure Read where
  count : Nat
  writable : Nat

/-- Whether the copy faulted, the bytes copied, and the FIFO without them. -/
def kfifo_to_user (count writable : Nat) (q : Fifo) : Bool × List UInt8 × Fifo :=
  let len := min count q.content.length
  let copied := min len writable
  (copied < len, q.drain copied)

/-- The value returned, the bytes it returns to the reader, and the FIFO after it. -/
def my_read (count writable : Nat) (q : Fifo) : Int × List UInt8 × Fifo :=
  let (fault, bytes, q') := kfifo_to_user count writable q
  if fault then (-EFAULT, [], q') else (bytes.length, bytes, q')

theorem my_read_bytes (count writable : Nat) (q : Fifo) :
    (my_read count writable q).2.1 =
      if (kfifo_to_user count writable q).1 then [] else (kfifo_to_user count writable q).2.1 := by
  simp only [my_read]
  split <;> rfl

theorem my_read_fifo (count writable : Nat) (q : Fifo) :
    (my_read count writable q).2.2 = (kfifo_to_user count writable q).2.2 := by
  simp only [my_read]
  split <;> rfl

/-! ## Interleaved runs -/

/-- A step of the whole system: an action of the write, or a read. -/
abbrev Move := Label Call Call.Answer Read

/-- The effect of a read on the FIFO. -/
def readMove (q : Fifo) (r : Read) : Fifo := (my_read r.count r.writable q).2.2

abbrev fifoStep : Fifo → Move → Fifo := labelStep fifo readMove

/-- A run of a driver function between reads. -/
abbrev Shared {α : Type} (p : Drv α) (q : Fifo) (tr : List Move) (p' : Drv α) (q' : Fifo) : Prop :=
  Interfered fifo readMove p q tr p' q'

/-- The bytes that a step takes out of the FIFO. -/
def drainedBy (q : Fifo) : Move → List UInt8
  | .act _ => []
  | .env r => (kfifo_to_user r.count r.writable q).2.1

/-- The bytes that a step returns to a reader. -/
def returnedBy (q : Fifo) : Move → List UInt8
  | .act _ => []
  | .env r => (my_read r.count r.writable q).2.1

/-- All bytes returned by the reads of a run, in order. -/
def returned (q : Fifo) (tr : List Move) : List UInt8 := collect fifoStep returnedBy q tr

/-- The characters that the FIFO accepted. -/
def accepted (evs : List (Event Call Call.Answer)) : List UInt8 :=
  ((puts (outs evs)).filter (·.2)).map (·.1)

/-- Nothing gets lost in this step: a symbol finds room, and a read does not fault after it has
drained something. -/
def Lossless (q : Fifo) : Move → Prop
  | .act ⟨.kfifo_put c, _⟩ => c = dot ∨ c = dash → 0 < q.free
  | .act _ => True
  | .env r => min r.count q.content.length ≤ r.writable ∨ r.writable = 0

variable {α β : Type} {p p' : Drv α} {q q' : Fifo} {tr : List Move}

/-- What the FIFO held and accepted is what was drained and what it holds. -/
theorem conservation (h : Shared p q tr p' q') :
    q.content ++ accepted (acts tr) = collect fifoStep drainedBy q tr ++ q'.content := by
  induction h with
  | refl => simp [accepted, acts, outs, collect]
  | @act e k p' a q q₁ q' tr ha _ ih =>
    have hq : fifoStep q (.act ⟨e, a⟩) = q₁ := congrArg Prod.snd ha
    rw [collect_cons, hq, drainedBy, List.nil_append, ← ih]
    cases e with
    | kfifo_put c =>
      obtain rfl : (q.put c).1 = a := congrArg Prod.fst ha
      have hput := BoundedQueue.put_content c q
      rw [← show fifoStep q (.act ⟨.kfifo_put c, (q.put c).1⟩) = (q.put c).2 from rfl, hq] at hput
      rw [hput]
      cases (q.put c).1 <;> simp [accepted, acts, outs, out]
    | copy_from_user i => cases ha; rfl
    | led_trigger_event full => cases ha; rfl
    | msleep ms => cases ha; rfl
  | @env p p' r q q₁ q' tr hr _ ih =>
    have hd : drainedBy q (.env r) ++ q₁.content = q.content := by
      rw [← hr, drainedBy, readMove, my_read_fifo]
      exact BoundedQueue.drain_content _ q
    have hq : fifoStep q (.env r) = q₁ := hr
    rw [collect_cons, hq, List.append_assoc, ← ih, ← List.append_assoc, hd]
    rfl

theorem returnedBy_sublist (q : Fifo) (l : Move) : (returnedBy q l).Sublist (drainedBy q l) := by
  cases l with
  | act ev => exact List.Sublist.refl _
  | env r =>
    rw [returnedBy, drainedBy, my_read_bytes]
    split
    · exact List.nil_sublist _
    · exact List.Sublist.refl _

theorem returned_sublist (q : Fifo) (tr : List Move) :
    (returned q tr).Sublist (collect fifoStep drainedBy q tr) := by
  induction tr generalizing q with
  | nil => exact List.Sublist.refl _
  | cons l tr ih => exact (returnedBy_sublist q l).append (ih _)

/-- A read returns all that it drains exactly when it loses nothing. -/
theorem lossless_read (q : Fifo) (r : Read) :
    Lossless q (.env r) ↔ (returnedBy q (.env r)).length = (drainedBy q (.env r)).length := by
  rw [Lossless, returnedBy, drainedBy, my_read_bytes]
  simp only [kfifo_to_user, BoundedQueue.drain, decide_eq_true_eq]
  split <;> simp <;> omega

/-- **Loss in a run**: nothing is lost exactly when no symbol was refused and every drained byte
was returned. -/
theorem lossless_iff (h : Shared p q tr p' q') :
    Throughout fifoStep Lossless q tr ↔
      (∀ c, (c, false) ∈ puts (outs (acts tr)) → ¬ (c = dot ∨ c = dash)) ∧
        (returned q tr).length = (collect fifoStep drainedBy q tr).length := by
  induction h with
  | refl => simp [acts, outs, returned]
  | @act e k p' a q q₁ q' tr ha _ ih =>
    have hq : fifoStep q (.act ⟨e, a⟩) = q₁ := congrArg Prod.snd ha
    rw [throughout_cons, returned, collect_cons, collect_cons, ← returned, hq, ih]
    cases e with
    | kfifo_put c =>
      obtain rfl : (q.put c).1 = a := congrArg Prod.fst ha
      have hfree := BoundedQueue.put_fst c q
      have houts : puts (outs (acts (.act ⟨.kfifo_put c, (q.put c).1⟩ :: tr))) =
          (c, (q.put c).1) :: puts (outs (acts tr)) := rfl
      rw [houts, hfree]
      simp only [Lossless, returnedBy, drainedBy, List.nil_append, List.mem_cons, Prod.mk.injEq]
      by_cases hpos : 0 < q.free
      · simp [hpos]
      · simp only [hpos, decide_false, and_true, imp_false]
        constructor
        · rintro ⟨hc, hrest, hlen⟩
          exact ⟨by rintro c' (rfl | hm) <;> [exact hc; exact hrest c' hm], hlen⟩
        · rintro ⟨hall, hlen⟩
          exact ⟨hall c (.inl rfl), fun c' hm => hall c' (.inr hm), hlen⟩
    | copy_from_user i => exact ⟨fun h => h.2, fun h => ⟨trivial, h⟩⟩
    | led_trigger_event full => exact ⟨fun h => h.2, fun h => ⟨trivial, h⟩⟩
    | msleep ms => exact ⟨fun h => h.2, fun h => ⟨trivial, h⟩⟩
  | @env p p' r q q₁ q' tr hr _ ih =>
    have h1 := (returnedBy_sublist q (.env r)).length_le
    have h2 := (returned_sublist q₁ tr).length_le
    have hq : fifoStep q (.env r) = q₁ := hr
    rw [throughout_cons, returned, collect_cons, collect_cons, ← returned, hq, ih, lossless_read, List.length_append,
      List.length_append]
    constructor
    · rintro ⟨h, hall, hlen⟩; exact ⟨hall, by omega⟩
    · rintro ⟨hall, hlen⟩; exact ⟨by omega, hall, by omega⟩

/-! ## The puts of a write -/

/-- `p` makes at most `n` puts, and when its result satisfies `Q` only symbols were refused. -/
def Puts (n : Nat) (p : Drv α) (Q : α → Prop) : Prop :=
  ∀ evs a, Trace p evs a → (puts (outs evs)).length ≤ n ∧
    (Q a → ∀ c, (c, false) ∈ puts (outs evs) → c = dot ∨ c = dash)

theorem Puts.ret (a : α) (Q : α → Prop) : Puts 0 (.ret a) Q := by
  intro evs b ht
  obtain ⟨rfl, rfl⟩ := trace_ret.mp ht
  exact ⟨le_rfl, fun _ c hc => by cases hc⟩

theorem Puts.led (full : Bool) : Puts 0 (led_trigger_event full) fun _ => True := by
  intro evs a ht
  obtain rfl := trace_led.mp ht
  exact ⟨le_rfl, fun _ c hc => by cases hc⟩

theorem Puts.sleep (ms : Nat) : Puts 0 (msleep ms) fun _ => True := by
  intro evs a ht
  obtain ⟨r, evs', rfl, ht'⟩ := trace_act.mp ht
  obtain ⟨rfl, -⟩ := trace_ret.mp ht'
  exact ⟨le_rfl, fun _ c hc => by cases hc⟩

/-- A put is checked by whoever goes on only after `true`. -/
theorem Puts.checked (c : UInt8) : Puts 1 (kfifo_put c) (· = true) := by
  intro evs ok ht
  obtain rfl := trace_put.mp ht
  refine ⟨le_rfl, ?_⟩
  rintro rfl c' hc'
  rcases List.mem_singleton.mp hc' with ⟨⟩

/-- A refused symbol is never an objection. -/
theorem Puts.symbol {c : UInt8} (hc : c = dot ∨ c = dash) :
    Puts 1 (kfifo_put c) fun _ => True := by
  intro evs ok ht
  obtain rfl := trace_put.mp ht
  refine ⟨le_rfl, fun _ c' hc' => ?_⟩
  cases List.mem_singleton.mp hc'
  exact hc

/-- Sequential composition: where the first part fails, the second one returns a failure. -/
theorem Puts.bind {m n : Nat} {f : α → Drv β} {Q : α → Prop} {Q' : β → Prop} (hp : Puts m p Q)
    (hf : ∀ a, Q a → Puts n (f a) Q') (hfail : ∀ a, ¬ Q a → ∃ b, f a = .ret b ∧ ¬ Q' b) :
    Puts (m + n) (p >>= f) Q' := by
  intro evs b ht
  obtain ⟨xs, ys, a, rfl, hx, hy⟩ := trace_bind.mp ht
  obtain ⟨h1, h2⟩ := hp _ _ hx
  rw [outs_append, puts_append, List.length_append]
  by_cases ha : Q a
  · obtain ⟨h3, h4⟩ := hf a ha _ _ hy
    refine ⟨by omega, fun hb c hc => ?_⟩
    exact (List.mem_append.mp hc).elim (h2 ha c) (h4 hb c)
  · obtain ⟨b', hb', hQ⟩ := hfail a ha
    rw [hb'] at hy
    obtain ⟨rfl, rfl⟩ := trace_ret.mp hy
    exact ⟨by simpa [outs] using h1.trans (Nat.le_add_right m n), fun hb => absurd hb hQ⟩

/-- Sequential composition after a part that cannot fail. -/
theorem Puts.seq {m n : Nat} {f : α → Drv β} {Q' : β → Prop} (hp : Puts m p fun _ => True)
    (hf : ∀ a, Puts n (f a) Q') : Puts (m + n) (p >>= f) Q' :=
  hp.bind (fun a _ => hf a) fun _ h => absurd trivial h

theorem Puts.mono {m n : Nat} {Q : α → Prop} (hp : Puts m p Q) (h : m ≤ n) : Puts n p Q :=
  fun evs a ht => ⟨(hp evs a ht).1.trans h, (hp evs a ht).2⟩

/-- A program that can run without a put makes none. -/
theorem Puts.silent_bind {n : Nat} {a : α} {f : α → Drv β} {Q : β → Prop} (hp : Does p [] a)
    (hf : Puts n (f a) Q) : Puts n (p >>= f) Q := by
  intro evs b ht
  obtain ⟨head, ho, hiff⟩ := @Does.silent_bind _ β _ _ hp
  obtain ⟨ys, rfl, hy⟩ := (hiff f evs b).mp ht
  rw [outs_append, ho]
  exact hf ys b hy

/-- The puts of a program when all are accepted. -/
def acceptPuts (p : Drv α) : List (UInt8 × Bool) := puts (outs (run accept p ()).events)

/-- A refusal ends a letter, so it never makes more puts than when all are accepted. -/
theorem flashLoop_puts (n : Nat) (morse : UInt16) :
    Puts (acceptPuts (flashLoop n morse)).length (flashLoop n morse) fun _ => True := by
  have hsymbol : ∀ (ms : Nat) {c : UInt8}, c = dot ∨ c = dash → ∀ k : Drv Int,
      Puts (acceptPuts k).length k (fun _ => True) →
      Puts ((acceptPuts k).length + 1) (do
        led_trigger_event true
        msleep ms
        if ← kfifo_put c then k else return -EFAULT) fun _ => True := by
    intro ms c hc k hk
    refine ((Puts.led true).seq fun _ => (Puts.sleep ms).seq fun _ =>
      (Puts.symbol hc).seq fun ok => (?_ : Puts (acceptPuts k).length _ _)).mono (by omega)
    split
    · exact hk
    · exact (Puts.ret _ _).mono (Nat.zero_le _)
  induction n generalizing morse with
  | zero => exact Puts.ret 0 _
  | succ n ih =>
    unfold flashLoop
    split
    · exact Puts.ret 0 _
    · split
      · exact hsymbol _ (.inr rfl) _ (ih _)
      · split
        · exact hsymbol _ (.inl rfl) _ (ih _)
        · exact ((Puts.led false).seq fun _ => (Puts.sleep _).seq fun _ => ih _).mono
            (by rw [Nat.zero_add, Nat.zero_add]; exact le_rfl)

theorem flash_leds_puts {b : UInt8} (h : isAlpha b = true) :
    Puts (letterText b).length (flash_leds (charToMorse b)) fun _ => True := by
  have hputs : acceptPuts (flash_leds (charToMorse b)) = (letterText b).map (·, true) := by
    rw [acceptPuts, flash_leds_outs h]
    exact puts_symbols _
  have hloop := flashLoop_puts 16 (charToMorse b)
  rw [show flashLoop 16 (charToMorse b) = flash_leds (charToMorse b) from rfl, hputs,
    List.length_map] at hloop
  exact hloop

/-- `if ← p then k else return false`: a failure of `p` is passed on. -/
theorem Puts.then_else {m n : Nat} {p k : Drv Bool} (hp : Puts m p (· = true))
    (hk : Puts n k (· = true)) :
    Puts (m + n) (do if ← p then k else return false) (· = true) :=
  hp.bind (fun ok hok => by rw [if_pos hok]; exact hk)
    fun ok hok => ⟨false, by rw [if_neg hok]; rfl, by simp⟩

theorem gap_puts (notFirst spaceFlag : Bool) :
    Puts (gapOf notFirst spaceFlag).text.length (gap notFirst spaceFlag) (· = true) := by
  have hnone : Puts 0 (pure true : Drv Bool) (· = true) := .ret _ _
  have hletter : Puts 1 letterGap (· = true) :=
    ((Puts.led false).seq fun _ => (Puts.sleep _).seq fun _ => Puts.checked _).mono (by decide)
  have hword : Puts 3 wordGap (· = true) :=
    ((Puts.led false).seq fun _ => (Puts.sleep _).seq fun _ =>
      (Puts.checked _).then_else ((Puts.checked _).then_else (Puts.checked _))).mono (by decide)
  cases spaceFlag
  · cases notFirst
    · exact hnone.then_else hnone
    · exact hletter.then_else hnone
  · cases notFirst <;> exact (hnone.then_else hword).mono (by decide)

/-- The `for` loop never makes more puts than the script of what it walks over. -/
theorem writeLoop_puts {u : UserBuf} {start : Int} {rest : List UInt8} {n : Nat} {curr : Int}
    (hat : u.At curr rest) (hstart : start ≤ curr)
    (hlast : ∀ x ∈ rest.getLast?, isAlpha x = true)
    (hfirst : curr = start → ∀ x ∈ rest.head?, isAlpha x = true) :
    Puts (scriptText (scriptFrom (if curr = start then .none else .letter) rest)).length
      (writeLoop u start (curr + rest.length) n curr false) (· = true) := by
  induction n generalizing rest curr with
  | zero => exact (Puts.ret _ _).mono (Nat.zero_le _)
  | succ n ih =>
    by_cases hne : rest = []
    · subst hne
      have hend : writeLoop u start (curr + ([] : List UInt8).length) (n + 1) curr false =
          .ret true := by rw [writeLoop, if_neg (by simp)]; rfl
      rw [hend]
      exact (Puts.ret _ _).mono (Nat.zero_le _)
    · obtain ⟨l, post, next, notFirst, spaceFlag, head, round⟩ :=
        writeLoop_round hat hne hstart hlast hfirst
      have hafter := round.after
      have hrest := @ih post next round.at_next (by omega) round.last
        (fun h => absurd h (by omega))
      rw [if_neg (by omega)] at hrest
      have hletter : Puts _ (writeLetter u start (next + post.length) n notFirst spaceFlag
          (charToMorse l) next) (· = true) :=
        (gap_puts _ _).then_else ((flash_leds_puts round.letter).seq fun _ => hrest)
      intro evs ok ht
      obtain ⟨ys, rfl, hy⟩ := (round.trace n _ _).mp ht
      rw [outs_append, round.silent, round.script, List.nil_append]
      refine hletter.mono ?_ ys ok hy
      simp [scriptText]

/-- **A write never makes more puts than its encoding has characters**, and when it returns
`count` only symbols were refused. -/
theorem my_write_puts {u : UserBuf} {bytes : List UInt8} (h : u.Holds bytes)
    (hletter : ∃ b ∈ bytes, isAlpha b = true) (ppos : Int) :
    Puts (encoding bytes).length (my_write u ppos) fun r => r.1 = u.count := by
  obtain ⟨c, hc⟩ : ∃ c, u.mem 0 = some c := by
    obtain ⟨b, hb, -⟩ := hletter
    exact ⟨_, h.2 0 (List.length_pos_of_mem hb)⟩
  obtain ⟨start, rest, h0, htrim, hat, hlast, hfirst, hscript⟩ := trim_spaces_does h hletter hc
  have hloop := @writeLoop_puts u start rest rest.length start hat le_rfl hlast fun _ => hfirst
  rw [if_pos rfl, hscript] at hloop
  have herr : ¬ (-EFAULT : Int) = u.count := by simp only [EFAULT]; omega
  rw [my_write, int_end, encoding, List.length_append]
  refine Puts.silent_bind (Does.copy u 0) ?_
  rw [hc]
  refine Puts.silent_bind htrim ?_
  simp only [Option.getD_some, add_sub_cancel_left, Int.toNat_natCast]
  refine hloop.bind (fun ok hok => ?_) fun ok hok => ⟨_, by rw [if_neg hok]; rfl, herr⟩
  rw [if_pos hok]
  refine Puts.seq (Puts.led false) (n := 1) fun _ => ?_
  refine Puts.bind (Puts.checked newline) (n := 0) (fun ok hok => ?_) fun ok hok => ?_
  · rw [if_pos hok]
    exact Puts.ret _ _
  · exact ⟨_, by rw [if_neg hok]; rfl, herr⟩

/-! ## What the readers get -/

theorem accepted_length_le (evs : List (Event Call Call.Answer)) :
    (accepted evs).length ≤ (puts (outs evs)).length := by
  rw [accepted, List.length_map]
  exact List.length_filter_le _ _

/-- When nothing was refused, the whole encoding was accepted. -/
theorem accepted_all {u : UserBuf} {bytes : List UInt8} (h : u.Holds bytes)
    (hletter : ∃ b ∈ bytes, isAlpha b = true) {ppos : Int}
    {evs : List (Event Call Call.Answer)} {r : Int × Int} (ht : Trace (my_write u ppos) evs r)
    (hall : ∀ c, (c, false) ∉ puts (outs evs)) : accepted evs = encoding bytes := by
  rcases my_write_follows h hletter ht with ⟨houts, -⟩ | ⟨pre, c, post, post', houts, -⟩
  · rw [accepted, houts, puts_writeOuts, List.filter_eq_self.mpr (by simp)]
    simp [Function.comp_def]
  · exact absurd (by rw [houts, puts_append, puts_put]; simp) (hall c)

/-- **No silent loss**: when `my_write` returns `count`, the readers and the FIFO together hold
the old content and the whole encoding exactly when no symbol met a full FIFO and no read faulted
after it had drained something. -/
theorem no_loss_iff {u : UserBuf} {bytes : List UInt8} (h : u.Holds bytes)
    (hletter : ∃ b ∈ bytes, isAlpha b = true) {ppos : Int} {q q' : Fifo} {tr : List Move}
    {r : Int × Int} (hrun : Shared (my_write u ppos) q tr (.ret r) q') (hr : r.1 = u.count) :
    returned q tr ++ q'.content = q.content ++ encoding bytes ↔
      Throughout fifoStep Lossless q tr := by
  have ht := hrun.trace rfl
  have hcons := conservation hrun
  obtain ⟨hmost, hsymbols⟩ := my_write_puts h hletter ppos _ _ ht
  have hsub := returned_sublist q tr
  have hacc := accepted_length_le (acts tr)
  rw [lossless_iff hrun]
  constructor
  · intro heq
    have h1 := congrArg List.length heq
    have h2 := congrArg List.length hcons
    have h3 := hsub.length_le
    simp only [List.length_append] at h1 h2
    refine ⟨fun c hc _ => ?_, by omega⟩
    have hfull : (accepted (acts tr)).length = (puts (outs (acts tr))).length := by omega
    rw [accepted, List.length_map, List.length_filter_eq_length_iff] at hfull
    exact absurd (hfull _ hc) (by simp)
  · rintro ⟨hnone, hlen⟩
    rw [hsub.eq_of_length hlen, ← hcons,
      accepted_all h hletter ht fun c hc => hnone c hc (hsymbols hr c hc)]

instance : (q : Fifo) → (l : Move) → Decidable (Lossless q l)
  | q, .act ⟨.kfifo_put c, _⟩ => inferInstanceAs (Decidable (c = dot ∨ c = dash → 0 < q.free))
  | _, .act ⟨.copy_from_user _, _⟩ => inferInstanceAs (Decidable True)
  | _, .act ⟨.led_trigger_event _, _⟩ => inferInstanceAs (Decidable True)
  | _, .act ⟨.msleep _, _⟩ => inferInstanceAs (Decidable True)
  | q, .env r =>
    inferInstanceAs (Decidable (min r.count q.content.length ≤ r.writable ∨ r.writable = 0))

/-- Run a write, the reads `ms[i]` coming before its `i`-th action. -/
def readAmid (u : UserBuf) (ms : List (List Read)) (q : Fifo) :
    Interleaved Call Call.Answer Fifo Read (Int × Int) :=
  runAmid fifo readMove (my_write u 0) ms q

theorem readAmid_shared (u : UserBuf) (ms : List (List Read)) (q : Fifo) :
    Shared (my_write u 0) q (readAmid u ms q).labels (.ret (readAmid u ms q).value)
      (readAmid u ms q).state :=
  runAmid_interfered _ _ _ ms q

/-- Eighteen reads of one character each while ` ab C1` is written. -/
theorem no_loss_iff_sample :
    returned sampleFifo (readAmid sampleBuf ([] :: [] :: List.replicate 18 [⟨1, 1⟩]) sampleFifo).labels ++
        (readAmid sampleBuf ([] :: [] :: List.replicate 18 [⟨1, 1⟩]) sampleFifo).state.content =
      sampleFifo.content ++ encoding [32, 97, 98, 32, 67, 49, 10] :=
  (no_loss_iff sampleBuf_holds (by decide) (readAmid_shared _ _ _) (by decide +kernel)).mpr
    (by decide +kernel)

/-- The buffer `E`: a single dot. -/
def letterE : UserBuf := UserBuf.ofBytes [69] (by decide)

/-- A FIFO of 256 newlines. -/
def fullFifo : Fifo := ⟨List.replicate FIFO_SIZE newline, by rw [List.length_replicate]⟩

/-- The dot of `E` meets a full FIFO; then a reader takes one character, so the newline is
accepted and the write reports success. -/
theorem full_fifo_loses_dot :
    ¬ ∀ (u : UserBuf) (bytes : List UInt8), u.Holds bytes → (∃ b ∈ bytes, isAlpha b = true) →
      ∀ (ppos : Int) (q q' : Fifo) (tr : List Move) (r : Int × Int),
        Shared (my_write u ppos) q tr (.ret r) q' → r.1 = u.count →
          returned q tr ++ q'.content = q.content ++ encoding bytes := by
  intro hall
  have hrun := hall letterE [69] (UserBuf.ofBytes_holds _ _) (by decide) 0 fullFifo _ _ _
    (readAmid_shared letterE (List.replicate 7 [] ++ [[⟨1, 1⟩]]) fullFifo) (by decide +kernel)
  exact absurd (congrArg List.length hrun) (by decide +kernel)

end Morse
