import Cmpt433.Beatbox.Controls
import Cmpt433.Mixer.AudioMixer
import Cmpt433.Sampler.UdpListen

/-!
# The buffers of the beat box's UDP thread (`work/pcmExample/udpListener.c`)

`handleRequest` on the bytes of a request, with the buffers that the thread keeps from one datagram
to the next.

* `uptime` is what `sprintf` makes of the number in `/proc/uptime` with `%.2f`; `none` if the file
  cannot be opened.
* An `assert` of `AudioMixer_queueSound` that fails is a fault.
* `replies_independent_iff` — for which requests the reply of either program depends on nothing but
  the request and the program's state.
-/

set_option autoImplicit false

namespace UdpListener

open CString Beatbox Mixer

inductive SoundFile where
  | baseDrumFile
  | hiHatFile
  | snareFile
  deriving DecidableEq

/-- Both files have their own `static wavedata_t` of each sound. -/
inductive Owner where
  | beatbox
  | udpListener
  deriving DecidableEq

abbrev Sound := Owner × SoundFile

structure World where
  controls : Controls
  table : Table Sound
  sound : Sound → wavedata_t
  uptime : Option Bytes

structure Reply where
  sent : List Bytes
  messageTx : Bytes
  world : World
  fault : Bool
  running : Bool

/-- The `sendto` at the end of `handleRequest`. -/
def reply (world : World) (messageTx : Bytes) : Reply :=
  { sent := [cstring messageTx], messageTx, world, fault := false, running := true }

def modeRequest (m : beatMode) (text : String) (w : World) (messageTx : Bytes) : Reply :=
  reply { w with controls := AudioMixer_setMode m w.controls } (strcpy messageTx (lit text))

def volumeRequest (amount : Int) (w : World) (messageTx : Bytes) : Reply :=
  let c := AudioMixer_setVolume (AudioMixer_getVolume w.controls + amount) w.controls
  reply { w with controls := c }
    (strcpy messageTx (lit s!"new volume: {AudioMixer_getVolume c}\n"))

def tempoRequest (amount : Int) (w : World) (messageTx : Bytes) : Reply :=
  let c := AudioMixer_setTempo (AudioMixer_getTempo w.controls + amount) w.controls
  reply { w with controls := c } (strcpy messageTx (lit s!"new tempo: {AudioMixer_getTempo c}\n"))

def updatesRequest (w : World) (messageTx : Bytes) : Reply :=
  match w.uptime with
  | none => { reply w messageTx with sent := [] }
  | some uptime =>
    reply w (strcpy messageTx
      (lit (s!"update: {AudioMixer_getTempo w.controls} {AudioMixer_getVolume w.controls} " ++
        s!"{w.controls.currentMode} ") ++ uptime ++ lit "\n"))

def soundRequest (file : SoundFile) (text : String) (w : World) (messageTx : Bytes) : Reply :=
  match AudioMixer_queueSound w.sound (.udpListener, file) w.table with
  | none => { reply w messageTx with sent := [], fault := true }
  | some (_, table) => reply { w with table } (strcpy messageTx (lit text))

/-- The commands, in the order in which `handleRequest` tests for them. -/
inductive Command where
  | control (c : Beatbox.Command)
  | base
  | hihat
  | snare
  | terminate
  deriving DecidableEq

def Command.all : List Command :=
  [.control .modeNone, .control .modeRock, .control .modeCustom, .control .volumeUp,
    .control .volumeDown, .control .tempoUp, .control .tempoDown, .control .getvol,
    .control .gettempo, .control .getUpdates, .base, .hihat, .snare, .terminate]

/-- The first argument of `strncmp`. -/
def Command.name : Command → String
  | .control .modeNone => "modeNone"
  | .control .modeRock => "modeRock"
  | .control .modeCustom => "modeCustom"
  | .control .volumeUp => "volumeUp"
  | .control .volumeDown => "volumeDown"
  | .control .tempoUp => "tempoUp"
  | .control .tempoDown => "tempoDown"
  | .control .getvol => "getvol"
  | .control .gettempo => "gettempo"
  | .control .getUpdates => "getUpdates"
  | .base => "base"
  | .hihat => "hihat"
  | .snare => "snare"
  | .terminate => "terminate"

/-- The string whose `strlen` is its third argument. -/
def Command.measured : Command → String
  | .control .getvol => "getVol"
  | .control .gettempo => "getTempo"
  | c => c.name

def Command.serve (w : World) (messageTx : Bytes) : Command → Reply
  | .control .modeNone => modeRequest .NONE "Current mode: None\n" w messageTx
  | .control .modeRock => modeRequest .ROCK "Current mode: Rock!!!\n" w messageTx
  | .control .modeCustom => modeRequest .CUSTOM "Current mode: Custom\n" w messageTx
  | .control .volumeUp => volumeRequest 5 w messageTx
  | .control .volumeDown => volumeRequest (-5) w messageTx
  | .control .tempoUp => tempoRequest 5 w messageTx
  | .control .tempoDown => tempoRequest (-5) w messageTx
  | .control .getvol =>
    reply w (strcpy messageTx (lit s!"current volume: {AudioMixer_getVolume w.controls}\n"))
  | .control .gettempo =>
    reply w (strcpy messageTx (lit s!"current tempo: {AudioMixer_getTempo w.controls}\n"))
  | .control .getUpdates => updatesRequest w messageTx
  | .base => soundRequest .baseDrumFile "playing base drum\n" w messageTx
  | .hihat => soundRequest .hiHatFile "playing hihat\n" w messageTx
  | .snare => soundRequest .snareFile "playing snare\n" w messageTx
  | .terminate =>
    { reply w (strcpy messageTx (lit "Server shut down. Goodbye!\n")) with running := false }

/-- The chain of `if`s: the first command that the request starts with. -/
def handleRequest (w : World) (messageRx messageTx : Bytes) : Reply :=
  match dispatch (fun c => lit c.name) (fun c => (lit c.measured).length) Command.all messageRx with
  | some c => c.serve w messageTx
  | none => reply w messageTx

/-! ## The thread -/

def MSG_MAX_LEN : Nat := 1024

structure Buffers where
  messageRx : Bytes
  messageTx : Bytes

structure Buffers.Sized (b : Buffers) : Prop where
  messageRx : b.messageRx.length = MSG_MAX_LEN
  messageTx : b.messageTx.length = MSG_MAX_LEN

/-- A datagram, and the program's state when it is handled. -/
structure Arrival where
  datagram : Bytes
  world : World

/-- One iteration of `udpListenThread`. -/
def serve (b : Buffers) (a : Arrival) : Reply × Buffers :=
  let messageRx := terminated a.datagram b.messageRx
  let r := handleRequest a.world messageRx b.messageTx
  (r, { messageRx, messageTx := r.messageTx })

def after (b : Buffers) (history : List Arrival) : Buffers :=
  history.foldl (fun b a => (serve b a).2) b

/-- What the client can observe. -/
def Reply.observed (r : Reply) : List Bytes × Bool := (r.sent, r.fault)

def repliesTo (b : Buffers) (history : List Arrival) (a : Arrival) : List Bytes × Bool :=
  (serve (after b history) a).1.observed

/-- Whatever the buffers held at the start, and whatever datagrams came before, the reply to the
request is the same if the program's state is. -/
def ReplyIndependent (request : Bytes) : Prop :=
  ∀ (w : World) (b₁ b₂ : Buffers) (hist₁ hist₂ : List Arrival), b₁.Sized → b₂.Sized →
    repliesTo b₁ hist₁ ⟨request, w⟩ = repliesTo b₂ hist₂ ⟨request, w⟩

/-- The request starts with a command. -/
def Known (request : Bytes) : Prop := ∃ c ∈ Command.all, lit c.name <+: request

instance (request : Bytes) : Decidable (Known request) :=
  inferInstanceAs (Decidable (∃ c ∈ Command.all, _))

/-! ## The reply -/

/-- What a command does to the controls is what its request does when run to completion. -/
theorem serve_controls (c : Beatbox.Command) (w : World) (tx : Bytes) :
    ((Command.control c).serve w tx).world.controls = c.request.run w.controls := by
  cases c with
  | getUpdates =>
    rw [Command.serve, updatesRequest]
    split <;> rfl
  | _ => rfl

theorem soundRequest_observed (file : SoundFile) (text : String) (w : World) (tx tx' : Bytes) :
    (soundRequest file text w tx).observed = (soundRequest file text w tx').observed := by
  unfold soundRequest
  split <;> simp [Reply.observed, reply]

theorem updatesRequest_observed (w : World) (tx tx' : Bytes) :
    (updatesRequest w tx).observed = (updatesRequest w tx').observed := by
  unfold updatesRequest
  split <;> simp [Reply.observed, reply]

/-- Every command composes its reply anew. -/
theorem serve_observed (c : Command) (w : World) (tx tx' : Bytes) :
    (c.serve w tx).observed = (c.serve w tx').observed := by
  cases c with
  | control c =>
    cases c with
    | getUpdates => exact updatesRequest_observed w tx tx'
    | _ => simp [Command.serve, modeRequest, volumeRequest, tempoRequest, Reply.observed, reply]
  | base => exact soundRequest_observed _ _ w tx tx'
  | hihat => exact soundRequest_observed _ _ w tx tx'
  | snare => exact soundRequest_observed _ _ w tx tx'
  | terminate => simp [Command.serve, Reply.observed, reply]

theorem name_nonzero : ∀ c ∈ Command.all, ∀ b ∈ lit c.name, b ≠ 0 := by
  simp [Command.all, Command.name, lit]

theorem measured_length : ∀ c ∈ Command.all, (lit c.measured).length = (lit c.name).length := by
  decide +kernel

/-- Which command is found depends on the request only. -/
theorem find_command (request rx : Bytes) :
    dispatch (fun c => lit c.name) (fun c => (lit c.measured).length) Command.all
      (terminated request rx) = Command.all.find? fun c => lit c.name <+: request :=
  dispatch_terminated name_nonzero measured_length request rx

/-- A known request composes its reply from nothing but itself and the program's state. -/
theorem handleRequest_observed {request : Bytes} (hk : Known request) (w : World)
    (rx rx' tx tx' : Bytes) :
    (handleRequest w (terminated request rx) tx).observed =
      (handleRequest w (terminated request rx') tx').observed := by
  rw [handleRequest, handleRequest, find_command, find_command]
  cases hfind : Command.all.find? fun c => lit c.name <+: request with
  | some c => exact serve_observed c w tx tx'
  | none =>
    obtain ⟨c, hc, hprefix⟩ := hk
    exact absurd (List.find?_eq_none.mp hfind c hc) (by simpa using hprefix)

/-- An unknown command is answered with whatever the reply buffer holds. -/
theorem handleRequest_unknown {request : Bytes} (h : ¬ Known request) (w : World) (rx tx : Bytes) :
    handleRequest w (terminated request rx) tx = reply w tx := by
  have hnone : (Command.all.find? fun c => lit c.name <+: request) = none :=
    List.find?_eq_none.mpr fun c hc hprefix => h ⟨c, hc, by simpa using hprefix⟩
  rw [handleRequest, find_command, hnone]

/-- The state at the start of the program, with empty sounds. -/
def startWorld : World :=
  { controls := AudioMixer_init
    table := statics
    sound := fun _ => ⟨0, none⟩
    uptime := none }

theorem reply_independent_iff (request : Bytes) : ReplyIndependent request ↔ Known request := by
  constructor
  · intro hind
    by_contra hno
    have h := hind startWorld
      ⟨List.replicate MSG_MAX_LEN 0, List.replicate MSG_MAX_LEN 0⟩
      ⟨List.replicate MSG_MAX_LEN 0, List.replicate MSG_MAX_LEN 1⟩ [] []
      ⟨List.length_replicate, List.length_replicate⟩ ⟨List.length_replicate, List.length_replicate⟩
    have hserve : ∀ b, (serve b ⟨request, startWorld⟩).1 = reply startWorld b.messageTx :=
      fun b => handleRequest_unknown hno _ _ _
    rw [repliesTo, repliesTo, hserve, hserve] at h
    exact absurd (congrArg Prod.fst h) (by decide +kernel)
  · intro hk w b₁ b₂ hist₁ hist₂ _ _
    exact handleRequest_observed hk w _ _ _ _

/-- **Either program's reply depends on nothing but the request and its state exactly for these
requests**: those that start with a command and, for a `get` of the sampler, go on with a text that
is not blank. -/
theorem replies_independent_iff {V : Type} [Zero V] [DecidableEq V] (fmt : V → Bytes)
    {request : Bytes} (hlen : 2 ≤ request.length) :
    (UdpListen.ReplyIndependent fmt request ↔ UdpListen.Determined request) ∧
      (ReplyIndependent request ↔ Known request) :=
  ⟨UdpListen.reply_independent_iff fmt hlen, reply_independent_iff request⟩

theorem replies_independent_count :
    UdpListen.ReplyIndependent (fun _ : Int => lit "0.000") (lit "count\n") ∧
      ReplyIndependent (lit "gettempo\n") :=
  ⟨(replies_independent_iff _ (by decide +kernel)).1.mpr (by decide +kernel),
    (replies_independent_iff (fun _ : Int => []) (by decide +kernel)).2.mpr (by decide +kernel)⟩

/-- After a `count` and after a `dips`, which leave the same state, the same unknown request is
answered with the text sent before. -/
theorem unknown_repeats_last_reply :
    ¬ UdpListen.ReplyIndependent (fun _ : Int => []) (lit "xx\n") := by
  intro h
  have hb := UdpListen.filledBuffers_sized 0
  exact absurd
    (h UdpListen.freshWorld _ _ [⟨lit "count\n", UdpListen.freshWorld, 0⟩]
      [⟨lit "dips\n", UdpListen.freshWorld, 0⟩] 0 0 hb hb)
    (by decide +kernel)

end UdpListener
