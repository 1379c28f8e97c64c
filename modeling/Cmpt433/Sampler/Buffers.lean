import Cmpt433.Sampler.GetRequest

/-!
# The buffers of the UDP thread keep their size (`work/as2/udpListen.c`)

Only the lists are composed against the end of `messageTx` in the model.  The other replies are
texts of at most a few hundred characters.

* `command_sized` — each of them fits in `messageTx`.
* `after_sized` — the three buffers have their `MSG_MAX_LEN` bytes in every state of every run.
-/

set_option autoImplicit false

namespace UdpListen

open CString Interaction Udp Sampler

/-- The counters are machine integers. -/
structure Counted {V : Type} (w : World V) : Prop where
  allTimeCount : w.allTimeCount.natAbs < 10 ^ 20
  dipCount : w.dipCount.natAbs < 10 ^ 20
  arraySize : w.mem.hist.arraySize.natAbs < 10 ^ 20
  historyCount : w.mem.hist.historyCount.natAbs < 10 ^ 20

section

variable {V : Type} {fmt : V → Bytes}

theorem strcpy_sized {tx s : Bytes} (htx : tx.length = MSG_MAX_LEN) (hs : s.length < MSG_MAX_LEN) :
    (strcpy tx s).length = MSG_MAX_LEN := by
  have hle := cstring_length_le s
  rw [strcpy_length (by omega), htx]

theorem putPiece_sized {tx tx' : Bytes} {p : Piece V} (htx : tx.length = MSG_MAX_LEN)
    (h : putPiece fmt tx p = some tx') : tx'.length = MSG_MAX_LEN := by
  unfold putPiece at h
  split at h
  · rename_i hroom
    obtain rfl := Option.some.inj h
    rw [← htx] at hroom ⊢
    cases p with
    | first v =>
      rw [withPiece, cstring_strcpy] at hroom
      exact strcpy_length hroom
    | item v =>
      rw [withPiece, cstring_strcat, List.length_append] at hroom
      exact strcat_length hroom
    | newline =>
      rw [withPiece, cstring_strcat, List.length_append] at hroom
      exact strcat_length hroom
  · cases h

theorem pieces_sized (pieces : List (Piece V)) :
    ∀ {tx tx' : Bytes}, tx.length = MSG_MAX_LEN → pieces.foldlM (putPiece fmt) tx = some tx' →
      tx'.length = MSG_MAX_LEN := by
  induction pieces with
  | nil =>
    intro tx tx' htx h
    obtain rfl := Option.some.inj h
    exact htx
  | cons p pieces ih =>
    intro tx tx' htx h
    rw [List.foldlM_cons] at h
    obtain ⟨tx₁, hput, hrest⟩ := Option.bind_eq_some_iff.mp h
    exact ih (putPiece_sized htx hput) hrest

/-- The texts among the messages are short. -/
theorem transmit_sized {evs : List (Event (Call V) Call.Answer)}
    (htexts : ∀ s, .text s ∈ messages evs → (lit s).length < MSG_MAX_LEN) :
    ∀ {tx tx' : Bytes}, tx.length = MSG_MAX_LEN → (transmit fmt tx evs).2 = some tx' →
      tx'.length = MSG_MAX_LEN := by
  induction evs with
  | nil =>
    intro tx tx' htx h
    obtain rfl := Option.some.inj h
    exact htx
  | cons ev evs ih =>
    intro tx tx' htx h
    obtain ⟨e, r⟩ := ev
    cases e with
    | sendto msg =>
      rw [messages_sendto] at htexts
      have ih := fun {tx tx'} => @ih (fun s hs => htexts s (List.mem_cons_of_mem _ hs)) tx tx'
      rw [transmit] at h
      cases hcompose : compose fmt tx msg with
      | none => simp [hcompose] at h
      | some tx₁ =>
        simp only [hcompose] at h
        refine ih ?_ h
        cases msg with
        | numbers pieces => exact pieces_sized pieces htx hcompose
        | text s =>
          obtain rfl := Option.some.inj hcompose
          exact strcpy_sized htx (htexts s List.mem_cons_self)
    | _ => exact ih htexts htx h

variable [Zero V] [DecidableEq V]

omit [DecidableEq V] in
/-- A list request sends one short text or none. -/
theorem listRequest_texts {w : World V} (wf : WellFormed w.mem.hist) (hc : Counted w)
    (request : Request) (s : String)
    (hs : .text s ∈ messages (run answer (Udp.handleRequest request) w.mem).events) :
    (lit s).length < MSG_MAX_LEN := by
  have hrows : ∀ l : List (List (Piece V)), Msg.text s ∉ l.map Msg.numbers := by simp
  cases request with
  | history =>
    rw [(run_history wf).2] at hs
    exact absurd hs (hrows _)
  | get n =>
    rcases lt_or_ge w.mem.hist.historyCount n with hrefused | hin
    · rw [(run_refused hrefused).2] at hs
      obtain rfl := Msg.text.inj (List.mem_singleton.mp hs)
      exact (lit_number_length "Please enter a number between 1 and " "\n"
        hc.historyCount).trans_lt (by decide)
    rcases lt_or_ge n 0 with hneg | h0
    · rw [(run_negative wf hneg).2] at hs
      cases hs
    · obtain ⟨n, rfl⟩ := Int.eq_ofNat_of_zero_le h0
      obtain ⟨ns, hns, -⟩ := get_N_length wf hin
      rw [(run_get wf hin hns).2] at hs
      exact absurd hs (hrows _)

theorem listRequest_sized {w : World V} (wf : WellFormed w.mem.hist) (hc : Counted w)
    (request : Request) {tx : Bytes} (htx : tx.length = MSG_MAX_LEN) :
    (listRequest fmt w request tx).messageTx.length = MSG_MAX_LEN := by
  unfold listRequest
  cases hlast : (transmit fmt tx (run answer (Udp.handleRequest request) w.mem).events).2 with
  | none => simpa [hlast] using htx
  | some tx' =>
    simpa [hlast] using transmit_sized (listRequest_texts wf hc request) htx hlast

/-- **Every reply leaves the reply buffer its size.** -/
theorem command_sized {w : World V} (wf : WellFormed w.mem.hist) (hc : Counted w) (n : Int)
    (rx : Bytes) {tx : Bytes} (htx : tx.length = MSG_MAX_LEN) (c : Command) :
    (c.serve fmt w n rx tx).messageTx.length = MSG_MAX_LEN := by
  cases c with
  | help =>
    have hfirst : (strcpy tx (lit "Accepted command examples:\n")).length = MSG_MAX_LEN :=
      strcpy_sized htx (by decide)
    refine (foldl_strcat_length _ _ ?_).trans hfirst
    rw [hfirst, cstring_strcpy]
    decide
  | count =>
    apply strcpy_sized htx
    exact (lit_number_length "Number of samples taken = " "\n" hc.allTimeCount).trans_lt (by decide)
  | get =>
    rw [Command.serve, getRequest]
    dsimp only
    split
    · exact listRequest_sized wf hc _ htx
    · exact strcpy_sized htx (by decide)
  | history => exact listRequest_sized wf hc _ htx
  | length =>
    apply strcpy_sized htx
    have hsize := lit_number_length "History can hold " " samples.\n" hc.arraySize
    have hcount := lit_number_length "Currently holding " " samples.\n" hc.historyCount
    rw [lit_append, List.length_append]
    exact (Nat.add_le_add hsize hcount).trans_lt (by decide)
  | dips =>
    apply strcpy_sized htx
    exact (lit_number_length "Dips: " "\n" hc.dipCount).trans_lt (by decide)
  | stop => exact strcpy_sized htx (by decide)

theorem handleRequest_sized {w : World V} (wf : WellFormed w.mem.hist) (hc : Counted w) (n : Int)
    (rx : Bytes) {tx : Bytes} (htx : tx.length = MSG_MAX_LEN) :
    (handleRequest fmt w n rx tx).messageTx.length = MSG_MAX_LEN := by
  unfold handleRequest
  split
  · exact command_sized wf hc n rx htx _
  · exact htx

/-- One datagram leaves all three buffers their size. -/
theorem serve_sized {b : Buffers} (hb : b.Sized) {a : Arrival V}
    (hlen : a.datagram.length < MSG_MAX_LEN) (wf : WellFormed a.world.mem.hist)
    (hc : Counted a.world) : (serve fmt b a).2.Sized := by
  have hrx : (terminated a.datagram b.messageRx).length = MSG_MAX_LEN := by
    rw [terminated_length (by rw [hb.messageRx]; exact hlen), hb.messageRx]
  unfold serve receive
  dsimp only
  split
  · exact ⟨hrx, handleRequest_sized wf hc _ _ hb.messageTx, hb.prevMsg⟩
  · refine ⟨hrx, handleRequest_sized wf hc _ _ hb.messageTx, ?_⟩
    have hcopy : (cstring (terminated a.datagram b.messageRx)).length < b.prevMsg.length := by
      have hle := cstring_length_le a.datagram
      rw [cstring_terminated, hb.prevMsg]
      omega
    exact (strcpy_length hcopy).trans hb.prevMsg

/-- **The buffers have their bytes in every state of every run.** -/
theorem after_sized {b : Buffers} (hb : b.Sized) {history : List (Arrival V)}
    (h : ∀ a ∈ history, a.datagram.length < MSG_MAX_LEN ∧ WellFormed a.world.mem.hist ∧
      Counted a.world) : (after fmt b history).Sized := by
  induction history generalizing b with
  | nil => exact hb
  | cons a history ih =>
    obtain ⟨⟨hlen, wf, hc⟩, hrest⟩ := List.forall_mem_cons.mp h
    exact ih (serve_sized hb hlen wf hc) hrest

end

end UdpListen
