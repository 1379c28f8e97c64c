import Cmpt433.Morse.Write

/-!
# The driver as an encoder with a bounded FIFO

The one thread case: nobody reads while `my_write` runs.  `fifo` answers the puts from a queue
of 256 characters.

* `my_write_run` — the queue ends up with as much of the encoding as fitted, and the call
  succeeds exactly when all of it did.
* `appended_eq_iff_message_eq` — two texts are the same exactly when the messages are.
-/

set_option autoImplicit false

namespace Morse

open Interaction

abbrev Fifo := BoundedQueue UInt8 FIFO_SIZE

/-- `echo_fifo` answers the puts; the other services do not touch it. -/
def fifo : (e : Call) → Fifo → e.Answer × Fifo
  | .kfifo_put c, q => q.put c
  | .copy_from_user _, q => ((), q)
  | .led_trigger_event _, q => ((), q)
  | .msleep _, q => ((), q)

/-- The characters offered in a run go through the queue in order. -/
theorem answered_fifo {q q' : Fifo} {evs : List (Event Call Call.Answer)}
    (h : Answered fifo q evs q') :
    BoundedQueue.offer ((puts (outs evs)).map (·.1)) q = ((puts (outs evs)).map (·.2), q') := by
  induction h with
  | nil q => rfl
  | @cons q q' e evs _ ih =>
    cases e with
    | kfifo_put c =>
      change BoundedQueue.offer (c :: (puts (outs evs)).map (·.1)) q =
        ((q.put c).1 :: (puts (outs evs)).map (·.2), q')
      rw [BoundedQueue.offer, show (q.put c).2 = (fifo (.kfifo_put c) q).2 from rfl, ih]
    | copy_from_user i => exact ih
    | led_trigger_event full => exact ih
    | msleep ms => exact ih

/-- What a run offers decides the queue it leaves and the answers it gets. -/
theorem run_fifo {u : UserBuf} {ppos : Int} (q : Fifo) {ps : List (UInt8 × Bool)}
    (h : puts (outs (run fifo (my_write u ppos) q).events) = ps) :
    (run fifo (my_write u ppos) q).state.content = q.content ++ (ps.map (·.1)).take q.free ∧
      ∀ i (hi : i < ps.length), ps[i].2 = decide (i < q.free) := by
  have hoff := answered_fifo (run_trace fifo (my_write u ppos) q).2
  rw [h] at hoff
  constructor
  · rw [← BoundedQueue.offer_content, hoff]
  · intro i hi
    have hans := BoundedQueue.offer_answers (ps.map (·.1)) q
    rw [hoff] at hans
    have hi' := List.getElem_of_eq hans (by simpa using hi : i < _)
    simpa using hi'

/-- **`my_write` as an encoder with a bounded FIFO**: the queue keeps the first `free` characters
of the encoding, and the call returns `count` exactly when they are all of it. -/
theorem my_write_run {u : UserBuf} {bytes : List UInt8} (h : u.Holds bytes)
    (hletter : ∃ b ∈ bytes, isAlpha b = true) (ppos : Int) (q : Fifo) :
    (run fifo (my_write u ppos) q).state.content = q.content ++ (encoding bytes).take q.free ∧
      (run fifo (my_write u ppos) q).value =
        if (encoding bytes).length ≤ q.free then ((u.count : Int), ppos + u.count)
        else (-EFAULT, ppos) := by
  have ht := (run_trace fifo (my_write u ppos) q).1
  have hplan := puts_writeOuts bytes
  rcases my_write_follows h hletter ht with ⟨houts, hval⟩ | ⟨pre, c, post, post', houts, hw⟩
  · -- nothing was refused, so everything fitted
    obtain ⟨hcontent, hans⟩ := run_fifo q (by rw [houts, hplan])
    have hfit : (encoding bytes).length ≤ q.free := by
      by_contra hlt
      have hlast := hans q.free (by simpa using hlt)
      simp at hlast
    rw [if_pos hfit]
    exact ⟨by simpa [Function.comp_def] using hcontent, hval⟩
  · -- the first refusal came after `free` accepted puts, and every later put is refused too
    have hps : puts (outs (run fifo (my_write u ppos) q).events) =
        puts pre ++ (c, false) :: puts post := by rw [houts, puts_append, puts_put]
    obtain ⟨hcontent, hans⟩ := run_fifo q hps
    have hfull : q.free ≤ (puts pre).length := by
      have := hans (puts pre).length (by simp)
      simpa using this
    have henc : encoding bytes = (puts pre).map (·.1) ++ c :: (puts post').map (·.1) := by
      have := congrArg (List.map Prod.fst) hplan
      rw [hw, puts_append, puts_put] at this
      simpa [Function.comp_def] using this.symm
    have hlong : ¬ (encoding bytes).length ≤ q.free := by rw [henc]; simp; omega
    rw [if_neg hlong, henc]
    constructor
    · rw [hcontent, List.map_append, List.take_append_of_le_length (by simpa using hfull),
        List.take_append_of_le_length (by simpa using hfull)]
    · rcases my_write_end ht with hval | ⟨-, init, hend⟩
      · exact hval
      · exfalso
        have hps' : puts (outs (run fifo (my_write u ppos) q).events) =
            puts init ++ [(newline, true)] := by rw [hend, puts_append]; rfl
        have hlen : (puts init).length + 1 = (puts pre).length + (puts post).length + 1 := by
          have := congrArg List.length (hps'.symm.trans hps)
          simpa [Nat.add_assoc] using this
        have hlast := (run_fifo q hps').2 (puts init).length (by simp)
        simp at hlast
        omega

/-- The buffer ` ab C1` with a newline. -/
def sampleBuf : UserBuf := UserBuf.ofBytes [32, 97, 98, 32, 67, 49, 10] (by decide)

theorem sampleBuf_holds : sampleBuf.Holds [32, 97, 98, 32, 67, 49, 10] :=
  UserBuf.ofBytes_holds _ _

/-- A FIFO that holds one newline. -/
def sampleFifo : Fifo := ⟨[newline], by decide⟩

/-- **`my_write` encodes the buffer into the FIFO**: whatever the fill level, the FIFO then holds
its old content and as much of the encoding as fitted; the call returns `count` and advances
`*ppos` by it when everything fitted, and otherwise returns `-EFAULT` and leaves `*ppos`. -/
theorem my_write_encodes {u : UserBuf} {bytes : List UInt8} (h : u.Holds bytes)
    (hletter : ∃ b ∈ bytes, isAlpha b = true) (ppos : Int) (q : Fifo) :
    (run fifo (my_write u ppos) q).state.content = q.content ++ (encoding bytes).take q.free ∧
      ((encoding bytes).length ≤ q.free →
        (run fifo (my_write u ppos) q).value = ((u.count : Int), ppos + u.count)) ∧
      (q.free < (encoding bytes).length →
        (run fifo (my_write u ppos) q).value = (-EFAULT, ppos)) := by
  obtain ⟨hcontent, hval⟩ := my_write_run h hletter ppos q
  refine ⟨hcontent, fun hfit => ?_, fun hlong => ?_⟩
  · rw [hval, if_pos hfit]
  · rw [hval, if_neg (by omega)]

/-- ` ab C1` becomes `.- -...   -.-.`. -/
theorem my_write_encodes_sample :
    (run fifo (my_write sampleBuf 3) sampleFifo).state.content = sampleFifo.content ++
        [dot, dash, blank, dash, dot, dot, dot, blank, blank, blank, dash, dot, dash, dot, newline] ∧
      (run fifo (my_write sampleBuf 3) sampleFifo).value = (7, 10) :=
  have h := my_write_encodes sampleBuf_holds (by decide) 3 sampleFifo
  ⟨h.1, h.2.1 (by decide)⟩

/-- When everything fits, the write goes as planned. -/
theorem my_write_outs {u : UserBuf} {bytes : List UInt8} (h : u.Holds bytes)
    (hletter : ∃ b ∈ bytes, isAlpha b = true) (ppos : Int) (q : Fifo)
    (hfit : (encoding bytes).length ≤ q.free) :
    outs (run fifo (my_write u ppos) q).events = writeOuts (script bytes) := by
  have ht := (run_trace fifo (my_write u ppos) q).1
  rcases my_write_follows h hletter ht with ⟨houts, -⟩ | ⟨pre, c, post, post', houts, hw⟩
  · exact houts
  · exfalso
    have hlong := congrArg List.length (puts_writeOuts bytes)
    have hfull := (@run_fifo u ppos q _ rfl).2 (puts pre).length (by rw [houts]; simp)
    simp only [houts, hw] at hfull hlong
    simp at hfull hlong
    omega

/-! ## Unique decodability -/

/-- **The appended text is uniquely decodable**: two writes whose texts fit append the same text
exactly when the buffers have the same message; the text decodes to the message, and
re-encoding that gives the text again. -/
theorem appended_text_decodes {u₁ u₂ : UserBuf} {b₁ b₂ : List UInt8} (h₁ : u₁.Holds b₁)
    (h₂ : u₂.Holds b₂) (hl₁ : ∃ b ∈ b₁, isAlpha b = true) (hl₂ : ∃ b ∈ b₂, isAlpha b = true)
    (ppos₁ ppos₂ : Int) (q₁ q₂ : Fifo) (hfit₁ : (encoding b₁).length ≤ q₁.free)
    (hfit₂ : (encoding b₂).length ≤ q₂.free) :
    ∃ t₁ t₂, (run fifo (my_write u₁ ppos₁) q₁).state.content = q₁.content ++ t₁ ∧
      (run fifo (my_write u₂ ppos₂) q₂).state.content = q₂.content ++ t₂ ∧
      (t₁ = t₂ ↔ message b₁ = message b₂) ∧
      decode t₁ = message b₁ ∧ encodeMessage (decode t₁) = t₁ := by
  have hc₁ := (my_write_run h₁ hl₁ ppos₁ q₁).1
  have hc₂ := (my_write_run h₂ hl₂ ppos₂ q₂).1
  rw [List.take_of_length_le hfit₁] at hc₁
  rw [List.take_of_length_le hfit₂] at hc₂
  refine ⟨encoding b₁, encoding b₂, hc₁, hc₂, ⟨fun h => ?_, fun h => ?_⟩, decode_encoding b₁, ?_⟩
  · rw [← decode_encoding b₁, h, decode_encoding b₂]
  · rw [← encodeMessage_message b₁, h, encodeMessage_message b₂]
  · rw [decode_encoding, encodeMessage_message]

/-- `AB c` and ` ab C1` have the same message. -/
theorem appended_text_decodes_sample :
    ∃ t₁ t₂, (run fifo (my_write sampleBuf 0) sampleFifo).state.content =
        sampleFifo.content ++ t₁ ∧
      (run fifo (my_write (.ofBytes [65, 66, 32, 99] (by decide)) 0) sampleFifo).state.content =
        sampleFifo.content ++ t₂ ∧ (t₁ = t₂ ↔ message [32, 97, 98, 32, 67, 49, 10] =
          message [65, 66, 32, 99]) ∧
      decode t₁ = message [32, 97, 98, 32, 67, 49, 10] ∧ encodeMessage (decode t₁) = t₁ :=
  appended_text_decodes sampleBuf_holds (UserBuf.ofBytes_holds _ _) (by decide) (by decide) 0 0 sampleFifo
    sampleFifo (by decide) (by decide)

end Morse
