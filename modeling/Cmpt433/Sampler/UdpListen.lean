import Cmpt433.Lib.CString
import Cmpt433.Sampler.Snapshot

/-!
# The buffers of the UDP thread (`work/as2/udpListen.c`)

`udpListenThread` keeps a receive buffer, a reply buffer and the previous message from one datagram
to the next, and `handleRequest` leaves its variable `n` to `sscanf`.  Here the request is its
bytes; what `history` and `get N` then do is `Udp.handleRequest`, run with nothing in between.

* A buffer is memory of `MSG_MAX_LEN` bytes at the start.  A list that is too long for `messageTx`
  is a fault, at the write that passes its end; the other texts are far shorter than the buffer.
  What an overflow leaves in the memory beside it is not known.
* `fmt` is what `sprintf` makes of a voltage with `%5.3f`.
* `reply_independent_iff` — for which requests the reply depends on nothing but the request and the
  sampler.
-/

set_option autoImplicit false

namespace UdpListen

open CString Interaction Udp Sampler

variable {V : Type}

def MSG_MAX_LEN : Nat := 1024

/-- What the handler reads of the sampler. -/
structure World (V : Type) where
  mem : Mem V
  allTimeCount : Int
  dipCount : Int

/-- What a request sends, the reply buffer it leaves, whether it made an invalid access, and
`running`. -/
structure Reply where
  sent : List Bytes
  messageTx : Bytes
  fault : Bool
  running : Bool
  deriving DecidableEq

/-- The `sendto` at the end of `handleRequest`. -/
def reply (messageTx : Bytes) : Reply :=
  { sent := [cstring messageTx], messageTx, fault := false, running := true }

section

variable (fmt : V → Bytes)

/-- What one `strcpy` or `strcat` of `sendNumList` writes into `messageTx`. -/
def withPiece (messageTx : Bytes) : Piece V → Bytes
  | .first v => strcpy messageTx (fmt v ++ lit "  ")
  | .item v => strcat messageTx (fmt v ++ lit ", ")
  | .newline => strcat messageTx (lit "\n")

/-- The same in the `MSG_MAX_LEN` bytes of the buffer: `none` where the string or its NUL would be
written past their end. -/
def putPiece (messageTx : Bytes) (p : Piece V) : Option Bytes :=
  if (cstring (withPiece fmt messageTx p)).length < MSG_MAX_LEN then
    some (withPiece fmt messageTx p)
  else none

/-- A message, composed in the reply buffer. -/
def compose (messageTx : Bytes) : Msg V → Option Bytes
  | .numbers pieces => pieces.foldlM (putPiece fmt) messageTx
  | .text s => some (strcpy messageTx (lit s))

/-- The datagrams sent by the events, and the reply buffer after them; `none` after an overflow. -/
def transmit : Bytes → List (Event (Call V) Call.Answer) → List Bytes × Option Bytes
  | messageTx, [] => ([], some messageTx)
  | messageTx, ev :: evs =>
    match ev.1 with
    | .sendto msg =>
      match compose fmt messageTx msg with
      | none => ([], none)
      | some messageTx =>
        let (sent, last) := transmit messageTx evs
        (cstring messageTx :: sent, last)
    | _ => transmit messageTx evs

/-- `history` or `get N`. -/
def listRequest [Zero V] [DecidableEq V] (w : World V) (request : Request) (messageTx : Bytes) :
    Reply :=
  let o := run answer (Udp.handleRequest request) w.mem
  let (sent, last) := transmit fmt messageTx o.events
  { sent, messageTx := last.getD messageTx, fault := o.value = .fault || last.isNone,
    running := true }

def helpLines : List String :=
  ["count -- display total number of samples taken.\n",
    "length -- display number of samples in history (both max, and current).\n",
    "history -- display the full sample history being saved.\n",
    "get N -- display the N most recent history values.\n",
    "dips -- display number of dips.\n",
    "stop -- cause the server program to end.\n",
    "<enter> -- repeat last command.\n"]

/-- The branch for `get`; `n` is what the variable of that name holds before `sscanf`. -/
def getRequest [Zero V] [DecidableEq V] (w : World V) (n : Int) (messageRx messageTx : Bytes) :
    Reply :=
  let (valid, n) := sscanf_d (messageRx.drop 4) n
  if valid ≠ 0 then listRequest fmt w (.get n) messageTx
  else reply (strcpy messageTx (lit "N is not a valid number"))

/-- The commands, in the order in which `handleRequest` tests for them. -/
inductive Command where
  | help
  | count
  | get
  | history
  | length
  | dips
  | stop
  deriving DecidableEq

def Command.all : List Command := [.help, .count, .get, .history, .length, .dips, .stop]

/-- The first argument of `strncmp`. -/
def Command.name : Command → String
  | help => "help"
  | count => "count"
  | get => "get"
  | history => "history"
  | length => "length"
  | dips => "dips"
  | stop => "stop"

/-- The string whose `strlen` is its third argument. -/
def Command.measured : Command → String
  | stop => "dips"
  | c => c.name

def Command.serve [Zero V] [DecidableEq V] (w : World V) (n : Int) (messageRx messageTx : Bytes) :
    Command → Reply
  | help =>
    reply ((helpLines.map lit).foldl strcat (strcpy messageTx (lit "Accepted command examples:\n")))
  | count => reply (strcpy messageTx (lit s!"Number of samples taken = {w.allTimeCount}\n"))
  | get => getRequest fmt w n messageRx messageTx
  | history => listRequest fmt w .history messageTx
  | length =>
    reply (strcpy messageTx (lit (s!"History can hold {w.mem.hist.arraySize} samples.\n" ++
      s!"Currently holding {w.mem.hist.historyCount} samples.\n")))
  | dips => reply (strcpy messageTx (lit s!"Dips: {w.dipCount}\n"))
  | stop =>
    { reply (strcpy messageTx (lit "Server has been shut down!")) with running := false }

/-- The chain of `if`s: the first command that the request starts with. -/
def handleRequest [Zero V] [DecidableEq V] (w : World V) (n : Int) (messageRx messageTx : Bytes) :
    Reply :=
  match dispatch (fun c => lit c.name) (fun c => (lit c.measured).length) Command.all messageRx with
  | some c => c.serve fmt w n messageRx messageTx
  | none => reply messageTx

/-! ## The thread -/

structure Buffers where
  messageRx : Bytes
  messageTx : Bytes
  prevMsg : Bytes
  enterPressed : Bool

structure Buffers.Sized (b : Buffers) : Prop where
  messageRx : b.messageRx.length = MSG_MAX_LEN
  messageTx : b.messageTx.length = MSG_MAX_LEN
  prevMsg : b.prevMsg.length = MSG_MAX_LEN

/-- A datagram, what the sampler holds when it is handled, and what is in the memory that becomes
`n`. -/
structure Arrival (V : Type) where
  datagram : Bytes
  world : World V
  n : Int

/-- The iteration that receives the datagram. -/
def receive [Zero V] [DecidableEq V] (b : Buffers) (a : Arrival V) : Reply × Buffers :=
  let messageRx := terminated a.datagram b.messageRx
  if a.datagram.length = 1 then
    let r := handleRequest fmt a.world a.n b.prevMsg b.messageTx
    (r, { b with messageRx, messageTx := r.messageTx, enterPressed := true })
  else
    let prevMsg := strcpy b.prevMsg messageRx
    let r := handleRequest fmt a.world a.n messageRx b.messageTx
    (r, { b with messageRx, messageTx := r.messageTx, prevMsg })

/-- An iteration that finds `enterPressed` set only resets it. -/
def serve [Zero V] [DecidableEq V] (b : Buffers) (a : Arrival V) : Reply × Buffers :=
  receive fmt { b with enterPressed := false } a

/-- The buffers after the datagrams of a history. -/
def after [Zero V] [DecidableEq V] (b : Buffers) (history : List (Arrival V)) : Buffers :=
  history.foldl (fun b a => (serve fmt b a).2) b

end

/-! ## What is composed does not depend on what the buffer held -/

/-- The message starts with a `strcpy`. -/
def Fresh : Msg V → Prop
  | .numbers pieces => ∃ v rest, pieces = .first v :: rest
  | .text _ => True

def SendsFresh (ev : Event (Call V) Call.Answer) : Prop := ∀ msg, ev.1 = .sendto msg → Fresh msg

theorem load_fresh {α : Type} {e : Call V} {k : e.Answer → Thread V α} {Q : α → Prop}
    (he : ∀ msg, e = .sendto msg → Fresh msg) (hk : ∀ r, Always SendsFresh (k r) Q) :
    Always SendsFresh (.act e k) Q :=
  .act (fun _ => he) hk

theorem sendNumList_fresh {N_list : NumList V}
    (h : ∀ i, Always SendsFresh (N_list i) fun _ => True) (n : Int) :
    Always SendsFresh (sendNumList N_list n) fun _ => True := by
  refine sendNumList_always h (fun v rest _ msg hmsg => ?_) n
  cases hmsg
  exact ⟨v, rest, rfl⟩

theorem getChecked_fresh (n c : Int) :
    Always SendsFresh (getChecked n c : Thread V Done) fun _ => True := by
  have hlist : Always SendsFresh (get_N_from n c : Thread V (Option (Option (List V))))
      fun _ => True := by
    unfold get_N_from
    split
    · exact .ret trivial
    split
    · exact .ret trivial
    · refine load_fresh (by simp) fun arraySize => load_fresh (by simp) fun recentIndex => ?_
      refine (getLoop_always (by simp [SendsFresh]) (by simp [SendsFresh])
        (by simp [SendsFresh]) _ _ _ _).bind fun N_list _ => ?_
      cases N_list <;> exact .ret trivial
  refine hlist.bind fun r _ => ?_
  cases r with
  | none => exact .ret trivial
  | some r =>
    cases r with
    | none => exact sendNumList_fresh (fun _ => .ret trivial) n
    | some N_list => exact sendNumList_fresh (fun _ => .ret trivial) n

/-- Every datagram of a list request is composed anew. -/
theorem handleRequest_fresh (request : Request) :
    Always SendsFresh (Udp.handleRequest request : Thread V Done) fun _ => True := by
  cases request with
  | history =>
    refine load_fresh (by simp) fun _ => load_fresh (by simp) fun hist =>
      load_fresh (by simp) fun length => load_fresh (by simp) fun _ => ?_
    exact sendNumList_fresh (fun i => load_fresh (by simp) fun _ => .ret trivial) length
  | get n =>
    rw [handle_get]
    refine load_fresh (by simp) fun (maxHistory : Int) => ?_
    change Always SendsFresh (if maxHistory < n then _ else _) _
    split
    · refine load_fresh (fun msg hm => ?_) fun _ => .ret trivial
      cases hm
      trivial
    · exact load_fresh (by simp) fun c => getChecked_fresh n c

section

variable {fmt : V → Bytes}

theorem withPiece_congr {tx tx' : Bytes} (h : cstring tx = cstring tx') (p : Piece V) :
    cstring (withPiece fmt tx p) = cstring (withPiece fmt tx' p) := by
  cases p <;> simp [withPiece, h]

/-- Both buffers have room for the piece, or neither has. -/
theorem putPiece_congr {tx tx' : Bytes} {p : Piece V}
    (h : cstring (withPiece fmt tx p) = cstring (withPiece fmt tx' p)) :
    (putPiece fmt tx p).map cstring = (putPiece fmt tx' p).map cstring := by
  unfold putPiece
  rw [h]
  split <;> simp [h]

theorem pieces_congr (rest : List (Piece V)) :
    ∀ {tx tx' : Bytes} {p : Piece V},
      cstring (withPiece fmt tx p) = cstring (withPiece fmt tx' p) →
        ((p :: rest).foldlM (putPiece fmt) tx).map cstring =
          ((p :: rest).foldlM (putPiece fmt) tx').map cstring := by
  induction rest with
  | nil =>
    intro tx tx' p h
    simpa using putPiece_congr h
  | cons q rest ih =>
    intro tx tx' p h
    have hput := putPiece_congr h
    rw [List.foldlM_cons, List.foldlM_cons]
    cases hp : putPiece fmt tx p with
    | none =>
      rw [hp, Option.map_none, eq_comm, Option.map_eq_none_iff] at hput
      rw [hput]
    | some tx₁ =>
      rw [hp, Option.map_some, eq_comm, Option.map_eq_some_iff] at hput
      obtain ⟨tx₁', hp', heq⟩ := hput
      rw [hp']
      exact ih (withPiece_congr heq.symm q)

theorem compose_congr {msg : Msg V} (h : Fresh msg) (tx tx' : Bytes) :
    (compose fmt tx msg).map cstring = (compose fmt tx' msg).map cstring := by
  cases msg with
  | text s => simp [compose]
  | numbers pieces =>
    obtain ⟨v, rest, rfl⟩ := h
    exact pieces_congr rest (by simp [withPiece])

variable (fmt) in
/-- What is sent of the messages, each composed anew, and whether one of them is too long. -/
def sendAll : List (Msg V) → List Bytes × Bool
  | [] => ([], false)
  | msg :: msgs =>
    match compose fmt [] msg with
    | none => ([], true)
    | some messageTx => (cstring messageTx :: (sendAll msgs).1, (sendAll msgs).2)

/-- What is sent does not depend on what the reply buffer held. -/
theorem transmit_messages {evs : List (Event (Call V) Call.Answer)}
    (h : ∀ ev ∈ evs, SendsFresh ev) (tx : Bytes) :
    ((transmit fmt tx evs).1, (transmit fmt tx evs).2.isNone) = sendAll fmt (messages evs) := by
  induction evs generalizing tx with
  | nil => rfl
  | cons ev evs ih =>
    have hrest := fun tx => ih (fun ev hev => h ev (List.mem_cons_of_mem _ hev)) tx
    have hev := h ev List.mem_cons_self
    obtain ⟨e, r⟩ := ev
    cases e with
    | sendto msg =>
      have hmsg := @compose_congr V fmt msg (hev msg rfl) tx []
      rw [messages_sendto, transmit, sendAll]
      cases hcompose : compose fmt [] msg with
      | none =>
        rw [hcompose, Option.map_none, Option.map_eq_none_iff] at hmsg
        simp [hmsg]
      | some tx₁ =>
        rw [hcompose, Option.map_some, Option.map_eq_some_iff] at hmsg
        obtain ⟨tx₁', hcompose', heq⟩ := hmsg
        simp only [hcompose', heq, ← hrest tx₁']
    | _ => exact hrest tx

end

/-! ## The reply -/

section

variable [Zero V] [DecidableEq V] (fmt : V → Bytes)

/-- What the client can observe. -/
def Reply.observed (r : Reply) : List Bytes × Bool := (r.sent, r.fault)

/-- What a list request sends, and when it is a fault. -/
theorem listRequest_eq (w : World V) (request : Request) (tx : Bytes) :
    let o := run answer (Udp.handleRequest request) w.mem
    (listRequest fmt w request tx).observed =
      ((sendAll fmt (messages o.events)).1,
        o.value = .fault || (sendAll fmt (messages o.events)).2) := by
  have ht := (run_trace answer (Udp.handleRequest request) w.mem).1
  have hsent := @transmit_messages V fmt _ (handleRequest_fresh request _ _ ht).1 tx
  dsimp only
  rw [← hsent]
  rfl

theorem listRequest_observed (w : World V) (request : Request) (tx tx' : Bytes) :
    (listRequest fmt w request tx).observed = (listRequest fmt w request tx').observed :=
  (listRequest_eq fmt w request tx).trans (listRequest_eq fmt w request tx').symm

/-- The reply to a request after some datagrams, from the buffers `b` on. -/
def repliesTo (b : Buffers) (history : List (Arrival V)) (a : Arrival V) : List Bytes × Bool :=
  (serve fmt (after fmt b history) a).1.observed

/-- Whatever the buffers and `n` held at the start, and whatever datagrams came before, the reply
to the request is the same if the sampler's state is. -/
def ReplyIndependent (request : Bytes) : Prop :=
  ∀ (w : World V) (b₁ b₂ : Buffers) (hist₁ hist₂ : List (Arrival V)) (n₁ n₂ : Int),
    b₁.Sized → b₂.Sized →
      repliesTo fmt b₁ hist₁ ⟨request, w, n₁⟩ = repliesTo fmt b₂ hist₂ ⟨request, w, n₂⟩

end

/-- The request starts with a command, and a `get` is followed by a text that is not blank. -/
def Determined (request : Bytes) : Prop :=
  (∃ c ∈ Command.all, lit c.name <+: request) ∧
    (lit "get" <+: request → afterBlanks (request.drop 4) ≠ [])

instance (request : Bytes) : Decidable (Determined request) :=
  inferInstanceAs (Decidable ((∃ c ∈ Command.all, _) ∧ (_ → _)))

theorem name_nonzero : ∀ c ∈ Command.all, ∀ b ∈ lit c.name, b ≠ 0 := by
  simp [Command.all, Command.name, lit]

theorem measured_length : ∀ c ∈ Command.all, (lit c.measured).length = (lit c.name).length := by
  decide +kernel

/-- Which command is found depends on the request only. -/
theorem find_command (request rx : Bytes) :
    dispatch (fun c => lit c.name) (fun c => (lit c.measured).length) Command.all
      (terminated request rx) = Command.all.find? fun c => lit c.name <+: request :=
  dispatch_terminated name_nonzero measured_length request rx

section

variable [Zero V] [DecidableEq V] (fmt : V → Bytes)

/-- `get`: what is scanned is part of the request. -/
theorem get_observed {request : Bytes} (hblank : afterBlanks (request.drop 4) ≠ []) (w : World V)
    (n n' : Int) (rx rx' tx tx' : Bytes) :
    (getRequest fmt w n (terminated request rx) tx).observed =
      (getRequest fmt w n' (terminated request rx') tx').observed := by
  have hlong : 4 ≤ request.length := by
    by_contra hshort
    exact hblank (by rw [List.drop_of_length_le (by omega)]; rfl)
  have hscan : ∀ rx, afterBlanks ((terminated request rx).drop 4) = afterBlanks (request.drop 4) :=
    fun rx => congrArg (List.dropWhile isspace) (cstring_drop_terminated hlong)
  rw [getRequest, getRequest, sscanf_d, sscanf_d, hscan, hscan, if_neg hblank, if_neg hblank]
  cases signed (afterBlanks (request.drop 4)) with
  | none => simp [Reply.observed, reply]
  | some v => exact listRequest_observed fmt w (.get v) tx tx'

/-- **A determined request composes its reply from nothing but itself and the sampler.** -/
theorem handleRequest_observed {request : Bytes} (hd : Determined request) (w : World V)
    (n n' : Int) (rx rx' tx tx' : Bytes) :
    (handleRequest fmt w n (terminated request rx) tx).observed =
      (handleRequest fmt w n' (terminated request rx') tx').observed := by
  obtain ⟨⟨c₀, hc₀, hprefix₀⟩, hget⟩ := hd
  rw [handleRequest, handleRequest, find_command, find_command]
  cases hfind : Command.all.find? fun c => lit c.name <+: request with
  | none => exact absurd (List.find?_eq_none.mp hfind c₀ hc₀) (by simpa using hprefix₀)
  | some c =>
    have hprefix : lit c.name <+: request := by simpa using List.find?_some hfind
    cases c with
    | get => exact get_observed fmt (hget hprefix) w n n' rx rx' tx tx'
    | history => exact listRequest_observed fmt w .history tx tx'
    | help => simp [Command.serve, Reply.observed, reply, cstring_foldl_strcat]
    | _ => simp [Command.serve, Reply.observed, reply]

/-- An unknown command is answered with whatever the reply buffer holds. -/
theorem handleRequest_unknown {request : Bytes} (h : ∀ c ∈ Command.all, ¬ lit c.name <+: request)
    (w : World V) (n : Int) (rx tx : Bytes) :
    handleRequest fmt w n (terminated request rx) tx = reply tx := by
  have hnone : (Command.all.find? fun c => lit c.name <+: request) = none :=
    List.find?_eq_none.mpr fun c hc hprefix => h c hc (by simpa using hprefix)
  rw [handleRequest, find_command, hnone]

/-- No other command's name starts like `get`. -/
theorem get_only : ∀ c ∈ Command.all, c ≠ .get → ¬ lit "get" <+: lit c.name := by decide +kernel

theorem three_le_name : ∀ c ∈ Command.all, 3 ≤ (lit c.name).length := by decide +kernel

theorem handleRequest_get {request : Bytes} (h : lit "get" <+: request) (w : World V) (n : Int)
    (rx tx : Bytes) :
    handleRequest fmt w n (terminated request rx) tx =
      getRequest fmt w n (terminated request rx) tx := by
  have hfind : (Command.all.find? fun c => lit c.name <+: request) = some .get := by
    cases hcase : Command.all.find? fun c => lit c.name <+: request with
    | none =>
      have hget : ¬ lit Command.get.name <+: request := by
        simpa using List.find?_eq_none.mp hcase .get (by decide)
      exact absurd h hget
    | some c =>
      have hprefix : lit c.name <+: request := by simpa using List.find?_some hcase
      have hc := List.mem_of_find?_eq_some hcase
      by_contra hne
      exact get_only c hc (fun heq => hne (by rw [heq]))
        (List.prefix_of_prefix_length_le h hprefix (three_le_name c hc))
  rw [handleRequest, find_command, hfind]
  rfl

/-- A blank text: `sscanf` is at the end of the string, and its value -1 is taken for success. -/
theorem getRequest_blank {request rx : Bytes} (hlen : 3 ≤ request.length)
    (hblank : afterBlanks (request.drop 4) = []) (hrx : ∀ b ∈ rx, b = 0) (w : World V) (n : Int)
    (tx : Bytes) :
    getRequest fmt w n (terminated request rx) tx = listRequest fmt w (.get n) tx := by
  have hscan : afterBlanks ((terminated request rx).drop 4) = [] := by
    rcases Nat.lt_or_ge request.length 4 with hshort | hlong
    · have hdrop : (terminated request rx).drop 4 = rx.drop 4 := by
        have h3 : request.length = 3 := by omega
        rw [terminated, List.drop_append, List.drop_of_length_le (by omega), h3]
        rfl
      have hnone : cstring (rx.drop 4) = [] := by
        rw [cstring, List.takeWhile_eq_nil_iff]
        intro h0
        simpa using hrx _ (List.mem_of_mem_drop (List.getElem_mem h0))
      rw [hdrop, afterBlanks, hnone]
      rfl
    · rw [afterBlanks, cstring_drop_terminated hlong]
      exact hblank
  rw [getRequest, sscanf_d, if_pos hscan]
  rfl

/-- A sampler that has taken no sample. -/
def freshWorld : World V := ⟨⟨init 1, 0, false⟩, 1, 0⟩

theorem fresh_get_zero (tx : Bytes) :
    (listRequest fmt (freshWorld : World V) (.get 0) tx).sent = [] := rfl

theorem fresh_get_one (tx : Bytes) :
    (listRequest fmt (freshWorld : World V) (.get 1) tx).sent.length = 1 := rfl

/-- Buffers that are filled with one byte. -/
def filledBuffers (b : UInt8) : Buffers :=
  { messageRx := List.replicate MSG_MAX_LEN 0
    messageTx := List.replicate MSG_MAX_LEN b
    prevMsg := List.replicate MSG_MAX_LEN 0
    enterPressed := false }

theorem filledBuffers_sized (b : UInt8) : (filledBuffers b).Sized :=
  ⟨List.length_replicate, List.length_replicate, List.length_replicate⟩

/-- **The reply depends on nothing but the request and the sampler exactly for the determined
requests.** -/
theorem reply_independent_iff {request : Bytes} (hlen : 2 ≤ request.length) :
    ReplyIndependent fmt request ↔ Determined request := by
  have hserve : ∀ (b : Buffers) (w : World V) (n : Int),
      (serve fmt b ⟨request, w, n⟩).1 =
        handleRequest fmt w n (terminated request b.messageRx) b.messageTx := by
    intro b w n
    rw [serve, receive, if_neg (by dsimp only; omega)]
  constructor
  · intro hind
    have hempty : ∀ (b b' : UInt8) (n n' : Int),
        (handleRequest fmt freshWorld n (terminated request (List.replicate MSG_MAX_LEN 0))
          (List.replicate MSG_MAX_LEN b)).observed =
        (handleRequest fmt freshWorld n' (terminated request (List.replicate MSG_MAX_LEN 0))
          (List.replicate MSG_MAX_LEN b')).observed := by
      intro b b' n n'
      have h := hind freshWorld (filledBuffers b) (filledBuffers b') [] [] n n'
        (filledBuffers_sized b) (filledBuffers_sized b')
      rwa [repliesTo, repliesTo, hserve, hserve] at h
    constructor
    · by_contra hno
      have hnone : ∀ c ∈ Command.all, ¬ lit c.name <+: request := fun c hc h => hno ⟨c, hc, h⟩
      have h := hempty 0 1 0 0
      rw [handleRequest_unknown fmt hnone, handleRequest_unknown fmt hnone] at h
      exact absurd h (by decide +kernel)
    · intro hget hblank
      have hlen3 : 3 ≤ request.length := hget.length_le
      have h := hempty 0 0 0 1
      rw [handleRequest_get fmt hget, handleRequest_get fmt hget,
        getRequest_blank fmt hlen3 hblank (fun b hb => List.eq_of_mem_replicate hb),
        getRequest_blank fmt hlen3 hblank (fun b hb => List.eq_of_mem_replicate hb)] at h
      -- with 0 in `n` no datagram is sent, with 1 the refusal
      have hcount := congrArg (fun o : List Bytes × Bool => o.1.length) h
      rw [Reply.observed, Reply.observed, fresh_get_zero, fresh_get_one] at hcount
      cases hcount
  · intro hd w b₁ b₂ hist₁ hist₂ n₁ n₂ _ _
    rw [repliesTo, repliesTo, hserve, hserve]
    exact handleRequest_observed fmt hd w n₁ n₂ _ _ _ _

end

end UdpListen
