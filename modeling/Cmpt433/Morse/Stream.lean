import Cmpt433.Lib.Lines
import Cmpt433.Morse.Readers

/-!
# The device as a stream of messages

A process writes one buffer after the other to the device; readers read from it at any time, also
in the middle of a write.

* `writeAll` — the writes of the process; it goes on whatever they return.
* `decodeStream` — what a reader makes of the text: a message for each complete line.
* `stream_decodes` — at every moment of every run in which the FIFO has room, the readers have the
  first of the messages, and all of them in the end.
* `stream_lossless_iff` — for runs in which all writes succeed, exactly when nothing is lost.
* `writes_fill` — where nobody reads, what the FIFO keeps, and which writes succeed.
-/

set_option autoImplicit false

namespace Morse

open Interaction Runs Lines

/-- A `write` whose buffer is readable and has a letter. -/
structure Written where
  buf : UserBuf
  bytes : List UInt8
  holds : buf.Holds bytes
  letter : ∃ b ∈ bytes, isAlpha b = true

/-- One write after the other: the values returned, and the new `*ppos`. -/
def writeAll : Int → List Written → Drv (List Int × Int)
  | ppos, [] => return ([], ppos)
  | ppos, w :: ws => do
    let (n, ppos) ← my_write w.buf ppos
    let (ns, ppos) ← writeAll ppos ws
    return (n :: ns, ppos)

/-- The text for all of them. -/
def encodings (ws : List Written) : List UInt8 := ws.flatMap fun w => encoding w.bytes

/-- A reader splits the text at the newlines, and decodes the lines. -/
def decodeStream (text : List UInt8) : List (List (List UInt8)) := (lines newline text).map decode

/-- What the writes return when they succeed. -/
def counts (ws : List Written) : List Int := ws.map fun w => (w.buf.count : Int)

/-! ## The text -/

theorem decode_script (bytes : List UInt8) : decode (scriptText (script bytes)) = message bytes := by
  have hline : (scriptText (script bytes)).takeWhile (· ≠ newline) = scriptText (script bytes) := by
    rw [List.takeWhile_eq_self_iff]
    intro c hc
    exact decide_eq_true (newline_notMem_scriptText scriptFrom_isAlpha c hc)
  rw [← decode_encoding, decode, decode, hline, takeWhile_encoding]

/-- **The messages can be read off the text.** -/
theorem decodeStream_encodings (ws : List Written) :
    decodeStream (encodings ws) = ws.map fun w => message w.bytes := by
  have hlines : lines newline (encodings ws) = ws.map fun w => scriptText (script w.bytes) :=
    lines_frames (fun w hc => newline_notMem_scriptText scriptFrom_isAlpha newline hc rfl) ws
  rw [decodeStream, hlines, List.map_map]
  exact List.map_congr_left fun w _ => decode_script w.bytes

/-! ## The writes -/

variable {ws : List Written} {ppos : Int} {evs : List (Event Call Call.Answer)}
  {r : List Int × Int}

theorem accepted_append (xs ys : List (Event Call Call.Answer)) :
    accepted (xs ++ ys) = accepted xs ++ accepted ys := by
  simp [accepted]

/-- The first write, and the others. -/
theorem writeAll_cons {w : Written} (ht : Trace (writeAll ppos (w :: ws)) evs r) :
    ∃ xs ys r₁ r₂, evs = xs ++ ys ∧ Trace (my_write w.buf ppos) xs r₁ ∧
      Trace (writeAll r₁.2 ws) ys r₂ ∧ r = (r₁.1 :: r₂.1, r₂.2) := by
  obtain ⟨xs, ys, r₁, rfl, hx, hy⟩ := trace_bind.mp ht
  obtain ⟨ys', zs, r₂, rfl, hy', hz⟩ := trace_bind.mp hy
  obtain ⟨rfl, rfl⟩ := trace_ret.mp hz
  exact ⟨xs, ys', r₁, r₂, by rw [List.append_nil], hx, hy', rfl⟩

/-- When nothing was refused, all writes succeed and the whole text was accepted. -/
theorem writeAll_accepted (ht : Trace (writeAll ppos ws) evs r)
    (hall : ∀ c, (c, false) ∉ puts (outs evs)) :
    accepted evs = encodings ws ∧ r = (counts ws, ppos + (counts ws).sum) := by
  induction ws generalizing ppos evs r with
  | nil =>
    obtain ⟨rfl, rfl⟩ := trace_ret.mp ht
    exact ⟨rfl, by simp [counts]⟩
  | cons w ws ih =>
    obtain ⟨xs, ys, r₁, r₂, rfl, hx, hy, rfl⟩ := writeAll_cons ht
    rw [outs_append, puts_append] at hall
    have hx' : ∀ c, (c, false) ∉ puts (outs xs) :=
      fun c hc => hall c (List.mem_append_left _ hc)
    have hfirst := accepted_all w.holds w.letter hx hx'
    have hr₁ : r₁ = ((w.buf.count : Int), ppos + w.buf.count) := by
      rcases my_write_follows w.holds w.letter hx with ⟨-, hr⟩ | ⟨pre, c, post, post', houts, -⟩
      · exact hr
      · refine absurd ?_ (hx' c)
        rw [houts, puts_append, puts_put]
        exact List.mem_append_right _ List.mem_cons_self
    obtain ⟨hrest, rfl⟩ := ih hy fun c hc => hall c (List.mem_append_right _ hc)
    subst hr₁
    refine ⟨?_, ?_⟩
    · rw [accepted_append, hfirst, hrest]
      rfl
    · simp [counts, add_assoc]

/-- The writes make no more puts than the text has characters, and when all of them succeed only
symbols were refused. -/
theorem writeAll_puts (ht : Trace (writeAll ppos ws) evs r) :
    (puts (outs evs)).length ≤ (encodings ws).length ∧
      (r.1 = counts ws → ∀ c, (c, false) ∈ puts (outs evs) → c = dot ∨ c = dash) := by
  induction ws generalizing ppos evs r with
  | nil =>
    obtain ⟨rfl, rfl⟩ := trace_ret.mp ht
    exact ⟨le_rfl, fun _ c hc => by cases hc⟩
  | cons w ws ih =>
    obtain ⟨xs, ys, r₁, r₂, rfl, hx, hy, rfl⟩ := writeAll_cons ht
    obtain ⟨hlength, hsymbols⟩ := my_write_puts w.holds w.letter ppos xs r₁ hx
    obtain ⟨hrest, hrestSymbols⟩ := ih hy
    rw [outs_append, puts_append]
    refine ⟨?_, fun hcounts c hc => ?_⟩
    · rw [List.length_append, encodings, List.flatMap_cons, List.length_append]
      exact Nat.add_le_add hlength hrest
    · obtain ⟨hcount, hcounts⟩ := List.cons_eq_cons.mp hcounts
      rcases List.mem_append.mp hc with hc | hc
      · exact hsymbols hcount c hc
      · exact hrestSymbols hcounts c hc

theorem lossless_text {q q' : Fifo} {tr : List Move}
    (hrun : Shared (writeAll ppos ws) q tr (.ret r) q') (hr : r.1 = counts ws)
    (h : Throughout fifoStep Lossless q tr) :
    returned q tr ++ q'.content = q.content ++ encodings ws := by
  obtain ⟨hnone, hlen⟩ := (lossless_iff hrun).mp h
  have ht := hrun.trace rfl
  obtain ⟨haccepted, -⟩ := writeAll_accepted ht fun c hc =>
    hnone c hc ((writeAll_puts ht).2 hr c hc)
  rw [(returned_sublist q tr).eq_of_length hlen, ← conservation hrun, haccepted]

/-- **No silent loss in a history of writes**: when all of them succeed, the readers and the FIFO
together hold the old content and the whole text exactly when no symbol met a full FIFO and no read
faulted after it had drained something. -/
theorem stream_lossless_iff {q q' : Fifo} {tr : List Move}
    (hrun : Shared (writeAll ppos ws) q tr (.ret r) q') (hr : r.1 = counts ws) :
    returned q tr ++ q'.content = q.content ++ encodings ws ↔
      Throughout fifoStep Lossless q tr := by
  refine ⟨fun heq => ?_, lossless_text hrun hr⟩
  have hmost := (writeAll_puts (hrun.trace rfl)).1
  have hsub := (returned_sublist q tr).length_le
  have hacc := accepted_length_le (acts tr)
  have h1 := congrArg List.length heq
  have h2 := congrArg List.length (conservation hrun)
  simp only [List.length_append] at h1 h2
  rw [lossless_iff hrun]
  refine ⟨fun c hc _ => ?_, by omega⟩
  have hfull : (accepted (acts tr)).length = (puts (outs (acts tr))).length := by omega
  rw [accepted, List.length_map, List.length_filter_eq_length_iff] at hfull
  exact absurd (hfull _ hc) Bool.false_ne_true

/-- ` ab C1` and `E`, one after the other. -/
def twoWrites : List Written :=
  [⟨sampleBuf, [32, 97, 98, 32, 67, 49, 10], sampleBuf_holds, by decide⟩,
    ⟨letterE, [69], UserBuf.ofBytes_holds _ _, by decide⟩]

/-- They run, the reads `ms[i]` coming before their `i`-th action. -/
def writesAmid (ms : List (List Read)) (q : Fifo) :
    Interleaved Call Call.Answer Fifo Read (List Int × Int) :=
  runAmid fifo readMove (writeAll 0 twoWrites) ms q

theorem writesAmid_shared (ms : List (List Read)) (q : Fifo) :
    Shared (writeAll 0 twoWrites) q (writesAmid ms q).labels (.ret (writesAmid ms q).value)
      (writesAmid ms q).state :=
  runAmid_interfered _ _ _ ms q

theorem stream_lossless_iff_two :
    returned sampleFifo (writesAmid [[], [⟨1, 1⟩]] sampleFifo).labels ++
        (writesAmid [[], [⟨1, 1⟩]] sampleFifo).state.content =
      sampleFifo.content ++ encodings twoWrites :=
  (stream_lossless_iff (writesAmid_shared _ _) (by decide +kernel)).mpr (by decide +kernel)

/-! ## Every moment of a run -/

/-- The step finds room for its character, and a read does not fault after it has drained
something. -/
def Kept (q : Fifo) : Move → Prop
  | .act ⟨.kfifo_put _, _⟩ => 0 < q.free
  | .act _ => True
  | .env r => min r.count q.content.length ≤ r.writable ∨ r.writable = 0

variable {α : Type} {p p' : Drv α} {q q' : Fifo} {tr : List Move}

instance : (q : Fifo) → (l : Move) → Decidable (Kept q l)
  | q, .act ⟨.kfifo_put _, _⟩ => inferInstanceAs (Decidable (0 < q.free))
  | _, .act ⟨.copy_from_user _, _⟩ => inferInstanceAs (Decidable True)
  | _, .act ⟨.led_trigger_event _, _⟩ => inferInstanceAs (Decidable True)
  | _, .act ⟨.msleep _, _⟩ => inferInstanceAs (Decidable True)
  | q, .env r =>
    inferInstanceAs (Decidable (min r.count q.content.length ≤ r.writable ∨ r.writable = 0))

theorem Kept.lossless {l : Move} (h : Kept q l) : Lossless q l := by
  cases l with
  | env r => exact h
  | act ev =>
    obtain ⟨e, a⟩ := ev
    cases e with
    | kfifo_put c => exact fun _ => h
    | copy_from_user i | led_trigger_event full | msleep ms => trivial

theorem kept_lossless (h : Throughout fifoStep Kept q tr) : Throughout fifoStep Lossless q tr := by
  induction tr generalizing q with
  | nil => trivial
  | cons l tr ih => exact ⟨h.1.lossless, ih h.2⟩

/-- Nothing is refused. -/
theorem kept_puts (h : Shared p q tr p' q') (hkept : Throughout fifoStep Kept q tr) (c : UInt8) :
    (c, false) ∉ puts (outs (acts tr)) := by
  induction h with
  | refl => exact List.not_mem_nil
  | @act e k p' a q q₁ q' tr ha _ ih =>
    have hq : fifoStep q (.act ⟨e, a⟩) = q₁ := congrArg Prod.snd ha
    rw [throughout_cons, hq] at hkept
    have hrest := ih hkept.2
    cases e with
    | kfifo_put c' =>
      obtain rfl : (q.put c').1 = a := congrArg Prod.fst ha
      have haccepted : (q.put c').1 = true := by
        rw [BoundedQueue.put_fst]
        exact decide_eq_true hkept.1
      have houts : puts (outs (acts (.act ⟨.kfifo_put c', (q.put c').1⟩ :: tr))) =
          (c', (q.put c').1) :: puts (outs (acts tr)) := rfl
      rw [houts, haccepted, List.mem_cons]
      rintro (heq | hmem)
      · cases heq
      · exact hrest hmem
    | copy_from_user i | led_trigger_event full | msleep ms => exact hrest
  | @env p p' r q q₁ q' tr hr _ ih =>
    have hq : fifoStep q (.env r) = q₁ := hr
    rw [throughout_cons, hq] at hkept
    exact ih hkept.2

/-- A reader that reads before every step keeps the FIFO empty. -/
theorem read_all (q : Fifo) :
    Kept q (.env ⟨FIFO_SIZE, FIFO_SIZE⟩) ∧ 0 < (readMove q ⟨FIFO_SIZE, FIFO_SIZE⟩).free := by
  have hlength : q.content.length ≤ FIFO_SIZE := q.length_le
  have hmin : min (min FIFO_SIZE q.content.length) FIFO_SIZE = q.content.length := by omega
  have hempty : (readMove q ⟨FIFO_SIZE, FIFO_SIZE⟩).content = [] := by
    rw [readMove, my_read_fifo]
    change q.content.drop (min (min FIFO_SIZE q.content.length) FIFO_SIZE) = []
    rw [hmin, List.drop_length]
  refine ⟨.inl (Nat.min_le_left ..), ?_⟩
  rw [BoundedQueue.free, hempty]
  exact Nat.succ_pos _

/-- **Every run can be completed with nothing lost.** -/
theorem completes (p : Drv α) (q : Fifo) :
    ∃ tr a q', Shared p q tr (.ret a) q' ∧ Throughout fifoStep Kept q tr := by
  induction p generalizing q with
  | ret a => exact ⟨[], a, q, .refl _ _, trivial⟩
  | act e k ih =>
    obtain ⟨hkept, hroom⟩ := read_all q
    obtain ⟨a, q₁, ha⟩ : ∃ a q₁, fifo e (readMove q ⟨FIFO_SIZE, FIFO_SIZE⟩) = (a, q₁) := ⟨_, _, rfl⟩
    obtain ⟨tr, r, q', hrun, hrest⟩ := ih a q₁
    refine ⟨.env ⟨FIFO_SIZE, FIFO_SIZE⟩ :: .act ⟨e, a⟩ :: tr, r, q', .env rfl (.act ha hrun), hkept,
      ?_, ?_⟩
    · cases e with
      | kfifo_put c => exact hroom
      | copy_from_user i | led_trigger_event full | msleep ms => trivial
    · have hq : fifoStep (readMove q ⟨FIFO_SIZE, FIFO_SIZE⟩) (.act ⟨e, a⟩) = q₁ :=
        congrArg Prod.snd ha
      change Throughout fifoStep Kept (fifoStep (readMove q _) (.act ⟨e, a⟩)) tr
      rw [hq]
      exact hrest

/-- What the readers and the FIFO hold is always a beginning of the whole text. -/
theorem stream_begins {p' : Drv (List Int × Int)} (hrun : Shared (writeAll ppos ws) q tr p' q')
    (hkept : Throughout fifoStep Kept q tr) :
    returned q tr ++ q'.content <+: q.content ++ encodings ws := by
  obtain ⟨tr', r, q'', hrun', hkept'⟩ := completes p' q'
  have hfull := hrun.trans hrun'
  have hkeptAll : Throughout fifoStep Kept q (tr ++ tr') := by
    rw [throughout_append, ← hrun.after]
    exact ⟨hkept, hkept'⟩
  obtain ⟨haccepted, -⟩ := writeAll_accepted (hfull.trace rfl) (kept_puts hfull hkeptAll)
  rw [acts_append, accepted_append] at haccepted
  have hlen := ((lossless_iff hrun).mp (kept_lossless hkept)).2
  rw [(returned_sublist q tr).eq_of_length hlen, ← conservation hrun, ← haccepted]
  exact ⟨accepted (acts tr'), by rw [List.append_assoc]⟩

/-- The FIFO of a new device. -/
def emptyFifo : Fifo := ⟨[], Nat.zero_le _⟩

/-- **A reader decodes the messages in order, and nothing else.**  At every moment of every run in
which the FIFO has room, the lines read so far are the first of the messages; when the writes are
done, all of them succeeded, and what is left in the FIFO completes the messages. -/
theorem stream_decodes {p' : Drv (List Int × Int)}
    (hrun : Shared (writeAll ppos ws) emptyFifo tr p' q')
    (hkept : Throughout fifoStep Kept emptyFifo tr) :
    decodeStream (returned emptyFifo tr) <+: ws.map (fun w => message w.bytes) ∧
      ∀ r, p' = .ret r → r = (counts ws, ppos + (counts ws).sum) ∧
        decodeStream (returned emptyFifo tr ++ q'.content) = ws.map fun w => message w.bytes := by
  refine ⟨?_, ?_⟩
  · have hprefix := (List.prefix_append _ _).trans (stream_begins hrun hkept)
    rw [← decodeStream_encodings]
    exact (lines_mono hprefix).map decode
  · rintro r rfl
    obtain ⟨-, hr⟩ := writeAll_accepted (hrun.trace rfl) (kept_puts hrun hkept)
    refine ⟨hr, ?_⟩
    have heq := lossless_text hrun (congrArg Prod.fst hr) (kept_lossless hkept)
    rw [heq]
    exact decodeStream_encodings ws

theorem stream_decodes_two :
    let o := writesAmid (List.replicate 40 [⟨2, 2⟩]) emptyFifo
    decodeStream (returned emptyFifo o.labels) <+: twoWrites.map (fun w => message w.bytes) ∧
      ∀ r, (.ret o.value : Drv (List Int × Int)) = .ret r →
        r = (counts twoWrites, 0 + (counts twoWrites).sum) ∧
          decodeStream (returned emptyFifo o.labels ++ o.state.content) =
            twoWrites.map fun w => message w.bytes :=
  stream_decodes (writesAmid_shared _ _) (by decide +kernel)

/-! ## Where nobody reads -/

theorem encodings_cons (w : Written) (ws : List Written) :
    (encodings (w :: ws)).length = (encoding w.bytes).length + (encodings ws).length := by
  rw [encodings, List.flatMap_cons, List.length_append]
  rfl

theorem encoding_pos (bytes : List UInt8) : 0 < (encoding bytes).length := by
  rw [encoding, List.length_append]
  exact Nat.succ_pos _

/-- The writes run one after the other. -/
theorem run_writeAll (w : Written) (ws : List Written) (ppos : Int) (q : Fifo) :
    let first := run fifo (my_write w.buf ppos) q
    let rest := run fifo (writeAll first.value.2 ws) first.state
    (run fifo (writeAll ppos (w :: ws)) q).state = rest.state ∧
      (run fifo (writeAll ppos (w :: ws)) q).value.1 = first.value.1 :: rest.value.1 := by
  simp only [writeAll, run_bind]
  exact ⟨rfl, rfl⟩

/-- **What a full FIFO keeps**: of the text, the first characters that there is room for.  A write
succeeds exactly when its text and all the text before it fit. -/
theorem writes_fill (ws : List Written) (ppos : Int) (q : Fifo) :
    let o := run fifo (writeAll ppos ws) q
    o.state.content = q.content ++ (encodings ws).take q.free ∧
      o.value.1.length = ws.length ∧
      ∀ i (hi : i < ws.length), o.value.1[i]? =
        some (if (encodings (ws.take (i + 1))).length ≤ q.free then (ws[i].buf.count : Int)
          else -EFAULT) := by
  induction ws generalizing ppos q with
  | nil =>
    refine ⟨?_, rfl, fun i hi => by cases hi⟩
    change q.content = q.content ++ List.take q.free []
    rw [List.take_nil, List.append_nil]
  | cons w ws ih =>
    obtain ⟨hstate, hvalue⟩ := run_writeAll w ws ppos q
    obtain ⟨hcontent, hreturned⟩ := my_write_run w.holds w.letter ppos q
    obtain ⟨q₁, hq₁⟩ : ∃ q₁, (run fifo (my_write w.buf ppos) q).state = q₁ := ⟨_, rfl⟩
    rw [hq₁] at hcontent hstate hvalue
    obtain ⟨hrest, hlength, hanswers⟩ := ih (run fifo (my_write w.buf ppos) q).value.2 q₁
    have hfree : q₁.free = q.free - (encoding w.bytes).length := by
      have hle := q.length_le
      simp only [BoundedQueue.free] at hcontent ⊢
      rw [hcontent, List.length_append, List.length_take]
      omega
    simp only [hstate, hvalue]
    refine ⟨?_, ?_, fun i hi => ?_⟩
    · have hsplit : encodings (w :: ws) = encoding w.bytes ++ encodings ws := rfl
      rw [hrest, hcontent, hfree, List.append_assoc, hsplit, List.take_append]
    · rw [List.length_cons, List.length_cons, hlength]
    · cases i with
      | zero =>
        have hone : (encodings ((w :: ws).take (0 + 1))).length = (encoding w.bytes).length :=
          encodings_cons w []
        have hroom : (encodings ((w :: ws).take (0 + 1))).length ≤ q.free ↔
            (encoding w.bytes).length ≤ q.free := by rw [hone]
        rw [List.getElem?_cons_zero, hreturned, if_congr hroom rfl rfl]
        split <;> rfl
      | succ i =>
        have hi' : i < ws.length := Nat.lt_of_succ_lt_succ hi
        have hpos : 0 < (encodings (ws.take (i + 1))).length := by
          cases ws with
          | nil => cases hi'
          | cons w' ws' =>
            rw [List.take_succ_cons, encodings_cons]
            exact Nat.add_pos_left (encoding_pos _) _
        -- after a write that did not fit there is no room for any other
        have hroom : (encodings (ws.take (i + 1))).length ≤ q₁.free ↔
            (encodings ((w :: ws).take (i + 1 + 1))).length ≤ q.free := by
          rw [List.take_succ_cons, encodings_cons, hfree]
          omega
        rw [List.getElem?_cons_succ, hanswers i hi', if_congr hroom rfl rfl]
        rfl

end Morse
