import Cmpt433.Lib.RequestReply
import Cmpt433.Beatbox.WebPage

/-!
# The page, the relay and the program (`NodeServer/lib/udp_server.js`, `udp_ui.js`, `udpListener.c`)

`handleCommand` of the relay sends each command of the page to the program from a socket of its own,
and passes on the first reply, or after a second an error text.  The datagrams may be lost, repeated
and reordered on the way.

* `amid` — the handling of one command, access by access: no lock keeps the other threads out
  between two of them.
* `Program.receive` — one datagram, which with nothing in between is handled as by `serve`; what the
  other threads do between two datagrams is `Other.threads`.
* `page` — what the page has become.
* `one_reply`, `handled_once` — the page gets one answer to a command, and that to no other command.
* `shown_was_true`, `shown_after_update`, `error_box_iff` — what the page's displays and its error
  box say.

The commands are those that the page sends.  The replies to them are ASCII, so `toString` changes
nothing.
-/

set_option autoImplicit false

namespace Relay

open CString Beatbox UdpListener WebPage RequestReply Runs

/-- The argument of `sendCommandViaUDP`. -/
def sent : UdpListener.Command → String
  | .control c => WebPage.sent c
  | .base => "base"
  | .hihat => "hihat"
  | .snare => "snare"
  | .terminate => "terminate"

/-! ## One command, among the other threads -/

/-- The uptime is what `%.2f` prints. -/
def Printed (w : World) : Prop := ∀ u, w.uptime = some u → IsFixed u

/-- What the other threads make of the program's state before the `i`-th access that the handler
makes to it. -/
structure Meanwhile where
  act : ℕ → World → World
  printed : ∀ i w, Printed w → Printed (act i w)

/-- They do nothing. -/
def alone : Meanwhile := ⟨fun _ w => w, fun _ _ h => h⟩

/-- What comes of a command, and in which states the handler has read the controls that it replies
with. -/
structure Handling where
  reply : Reply
  tempo : World
  volume : World
  mode : World

/-- `volumeUp`, `volumeDown`, `tempoUp` and `tempoDown`: the level is read, set, and read again for
the reply. -/
def levelRequest (level : Level) (amount : Int) (x : Meanwhile) (w : World) (messageTx : Bytes) :
    Handling :=
  let w₀ := x.act 0 w
  let w₁ := x.act 1 w₀
  let w₂ := x.act 2 { w₁ with
    controls := setLevel level (w₀.controls.get level + amount) w₁.controls }
  { reply := reply w₂ (strcpy messageTx
      (lit ("new " ++ levelName level ++ ": " ++ toString (w₂.controls.get level) ++ "\n")))
    tempo := w₂, volume := w₂, mode := w₂ }

/-- The order in which the arguments of `sprintf` are evaluated is the compiler's; as anything may
happen in between, no other order gives other replies. -/
def updatesRequest (x : Meanwhile) (w : World) (messageTx : Bytes) : Handling :=
  let w₀ := x.act 0 w
  let w₁ := x.act 1 w₀
  let w₂ := x.act 2 w₁
  let w₃ := x.act 3 w₂
  match w₀.uptime with
  | none =>
    { reply := { reply w₀ messageTx with sent := [] }
      tempo := w₀, volume := w₀, mode := w₀ }
  | some uptime =>
    { reply := reply w₃ (strcpy messageTx
        (lit (s!"update: {AudioMixer_getTempo w₁.controls} {AudioMixer_getVolume w₂.controls} " ++
          s!"{w₃.controls.currentMode} ") ++ uptime ++ lit "\n"))
      tempo := w₁, volume := w₂, mode := w₃ }

/-- The other commands make one access. -/
def amid (x : Meanwhile) (w : World) (messageTx : Bytes) : UdpListener.Command → Handling
  | .control .volumeUp => levelRequest .volume 5 x w messageTx
  | .control .volumeDown => levelRequest .volume (-5) x w messageTx
  | .control .tempoUp => levelRequest .tempo 5 x w messageTx
  | .control .tempoDown => levelRequest .tempo (-5) x w messageTx
  | .control .getUpdates => updatesRequest x w messageTx
  | c =>
    { reply := c.serve (x.act 0 w) messageTx
      tempo := x.act 0 w, volume := x.act 0 w, mode := x.act 0 w }

def handleRequest (x : Meanwhile) (w : World) (messageRx messageTx : Bytes) : Reply :=
  match dispatch (fun c => lit c.name) (fun c => (lit c.measured).length) UdpListener.Command.all
    messageRx with
  | some c => (amid x w messageTx c).reply
  | none => reply w messageTx

/-- With nothing in between, a command does what its request does run to completion. -/
theorem amid_alone (c : UdpListener.Command) (w : World) (tx : Bytes) :
    (amid alone w tx c).reply = c.serve w tx := by
  cases c with
  | control c =>
    cases c with
    | getUpdates =>
      change (updatesRequest alone w tx).reply = UdpListener.updatesRequest w tx
      unfold updatesRequest UdpListener.updatesRequest
      simp only [alone]
      cases w.uptime <;> rfl
    | _ => rfl
  | _ => rfl

theorem handleRequest_alone (w : World) (rx tx : Bytes) :
    handleRequest alone w rx tx = UdpListener.handleRequest w rx tx := by
  unfold handleRequest UdpListener.handleRequest
  cases dispatch (fun c : UdpListener.Command => lit c.name)
    (fun c => (lit c.measured).length) UdpListener.Command.all rx with
  | some c => exact amid_alone c w tx
  | none => rfl

/-! ## The program -/

/-- The program as its UDP thread sees it. -/
structure Program where
  world : World
  buffers : Buffers
  running : Bool

/-- One pass of the loop of `udpListenThread`; a failed `assert` ends the program. -/
def Program.receive (x : Meanwhile) (p : Program) (datagram : Bytes) : Program × List Bytes :=
  let messageRx := terminated datagram p.buffers.messageRx
  let r := handleRequest x p.world messageRx p.buffers.messageTx
  ({ world := r.world
     buffers := { messageRx, messageTx := r.messageTx }
     running := r.running && !r.fault }, r.sent)

/-- **With nothing in between, a datagram is handled as in `UdpListener`.** -/
theorem receive_alone (p : Program) (d : Bytes) :
    p.receive alone d =
      let r := serve p.buffers ⟨d, p.world⟩
      ({ world := r.1.world, buffers := r.2, running := r.1.running && !r.1.fault },
        r.1.sent) := by
  simp only [Program.receive, serve, handleRequest_alone]

/-- `client.send`, when it reaches the program. -/
def handle (x : Meanwhile) (p : Program) (c : UdpListener.Command) :
    Option (Program × List Bytes) :=
  if p.running then some (p.receive x (lit (sent c))) else none

inductive Other where
  /-- What the other threads have made of the program's state. -/
  | threads (w : { w : World // Printed w })
  /-- A datagram from somewhere else. -/
  | datagram (x : Meanwhile) (d : Bytes)

def Other.apply : Other → Program → Program
  | .threads w, p => { p with world := w.1 }
  | .datagram x d, p => if p.running then (p.receive x d).1 else p

/-- The argument of `socket.emit('commandReply', ...)`. -/
def text : Option Bytes → Bytes
  | none => lit "Error: BeatBox program not running!\n"
  | some message => message

/-- What the page has become of `page₀`. -/
def page (uptimeString : Option Bytes → Bytes) (page₀ : Page)
    (outcomes : List (ℕ × Option Bytes)) : Page :=
  outcomes.foldl (fun page x => commandReply uptimeString (text x.2) page) page₀

/-! ## One datagram -/

theorem mem_all (c : UdpListener.Command) : c ∈ UdpListener.Command.all := by
  cases c with
  | control c => cases c <;> decide
  | _ => decide

/-- The program knows what the page sends. -/
theorem find_sent : ∀ c ∈ UdpListener.Command.all,
    (UdpListener.Command.all.find? fun c' => lit c'.name <+: lit (sent c)) = some c := by
  decide +kernel

theorem handleRequest_sent (x : Meanwhile) (w : World) (c : UdpListener.Command) (rx tx : Bytes) :
    handleRequest x w (terminated (lit (sent c)) rx) tx = (amid x w tx c).reply := by
  rw [handleRequest, find_command, find_sent c (mem_all c)]

theorem receive_sent (x : Meanwhile) (p : Program) (c : UdpListener.Command) :
    (p.receive x (lit (sent c))).2 =
      (amid x p.world p.buffers.messageTx c).reply.sent := by
  simp only [Program.receive, handleRequest_sent]

theorem handle_eq_some {x : Meanwhile} {p : Program} {c : UdpListener.Command}
    {r : Program × List Bytes} :
    handle x p c = some r ↔ p.running = true ∧ r = p.receive x (lit (sent c)) := by
  unfold handle
  split
  · rename_i h
    rw [Option.some_inj, and_iff_right h]
    exact eq_comm
  · rename_i h
    exact ⟨nofun, fun hr => absurd hr.1 h⟩

/-- The three ways to handle a command. -/
theorem amid_cases (c : UdpListener.Command) :
    (∃ level amount, ∀ x w tx, amid x w tx c = levelRequest level amount x w tx) ∨
      (∀ x w tx, amid x w tx c = updatesRequest x w tx) ∨
      ∀ x w tx, (amid x w tx c).reply = c.serve (x.act 0 w) tx := by
  cases c with
  | control c =>
    cases c with
    | volumeUp => exact .inl ⟨.volume, 5, fun _ _ _ => rfl⟩
    | volumeDown => exact .inl ⟨.volume, -5, fun _ _ _ => rfl⟩
    | tempoUp => exact .inl ⟨.tempo, 5, fun _ _ _ => rfl⟩
    | tempoDown => exact .inl ⟨.tempo, -5, fun _ _ _ => rfl⟩
    | getUpdates => exact .inr (.inl fun _ _ _ => rfl)
    | modeNone | modeRock | modeCustom | getvol | gettempo => exact .inr (.inr fun _ _ _ => rfl)
  | base | hihat | snare | terminate => exact .inr (.inr fun _ _ _ => rfl)

/-- Every command composes its reply anew. -/
theorem amid_sent (c : UdpListener.Command) (x : Meanwhile) (w : World) (tx tx' : Bytes) :
    (amid x w tx c).reply.sent = (amid x w tx' c).reply.sent := by
  rcases amid_cases c with ⟨level, amount, h⟩ | h | h
  · rw [h, h]
    simp [levelRequest, reply]
  · rw [h, h]
    simp only [updatesRequest]
    cases (x.act 0 w).uptime with
    | none => rfl
    | some uptime => simp [reply]
  · rw [h, h]
    exact (Prod.ext_iff.mp (serve_observed c (x.act 0 w) tx tx')).1

/-! ## The uptime stays one that is printed -/

theorem serve_uptime (c : UdpListener.Command) (w : World) (tx : Bytes) :
    (c.serve w tx).world.uptime = w.uptime := by
  have hsound : ∀ f t, (soundRequest f t w tx).world.uptime = w.uptime := by
    intro f t
    unfold soundRequest
    split <;> rfl
  cases c with
  | control c =>
    cases c with
    | getUpdates =>
      change (UdpListener.updatesRequest w tx).world.uptime = w.uptime
      unfold UdpListener.updatesRequest
      split <;> rfl
    | _ => rfl
  | base | hihat | snare => exact hsound _ _
  | terminate => rfl

theorem printed_amid {w : World} (hw : Printed w) (c : UdpListener.Command) (x : Meanwhile)
    (tx : Bytes) : Printed (amid x w tx c).reply.world := by
  have h0 := x.printed 0 w hw
  rcases amid_cases c with ⟨level, amount, h⟩ | h | h
  · -- setting a level leaves the uptime alone
    rw [h]
    exact x.printed 2 _ (x.printed 1 _ h0)
  · rw [h]
    simp only [updatesRequest]
    split
    · exact h0
    · exact x.printed 3 _ (x.printed 2 _ (x.printed 1 _ h0))
  · rw [h]
    exact fun u hu => h0 u ((serve_uptime c _ tx).symm.trans hu)

theorem printed_receive {p : Program} (h : Printed p.world) (x : Meanwhile) (d : Bytes) :
    Printed (p.receive x d).1.world := by
  change Printed (handleRequest x p.world (terminated d p.buffers.messageRx)
    p.buffers.messageTx).world
  unfold handleRequest
  split
  · exact printed_amid h _ x _
  · exact h

theorem printed_handle (x : Meanwhile) (p : Program) (c : UdpListener.Command)
    (r : Program × List Bytes) (h : Printed p.world) (hr : handle x p c = some r) :
    Printed r.1.world := by
  obtain ⟨-, rfl⟩ := handle_eq_some.mp hr
  exact printed_receive h x _

theorem printed_apply (e : Other) (p : Program) (h : Printed p.world) :
    Printed (e.apply p).world := by
  cases e with
  | threads w => exact w.2
  | datagram x d =>
    simp only [Other.apply]
    split
    · exact printed_receive h x d
    · exact h

/-- The states of the relay. -/
abbrev State := RequestReply.State Program Meanwhile UdpListener.Command Bytes

/-- What happens between the page and the program. -/
abbrev Event := Label Meanwhile UdpListener.Command Other

abbrev relay : State → Event → State := step handle Other.apply

theorem relay_run {p : Program} (h : Printed p.world) (tr : List Event) :
    Traced handle (fun p => Printed p.world) (after relay (start p) tr) :=
  traced_run printed_handle printed_apply h tr

/-- **The page gets one answer to a command**, and has it after a second: an error text, or what the
program replied to that command when it handled it, whatever its reply buffer held. -/
theorem one_reply (p : Program) (tr : List Event) :
    let s := after relay (start p) tr
    (s.outcomes.map Prod.fst).Nodup ∧
      (∀ pre k post, tr = pre ++ .timeout k :: post →
        k < (after relay (start p) pre).clients.length → ∃ o, (k, o) ∈ s.outcomes) ∧
      ∀ k o, (k, o) ∈ s.outcomes → ∃ c, s.requestOf k = some c ∧
        ∀ r, o = some r → ∃ x q, (k, x, q) ∈ s.served ∧
          ∀ tx, r ∈ (amid x q.world tx c).reply.sent := by
  have h : Traced handle (fun _ => True) (after relay (start p) tr) :=
    traced_run (fun _ _ _ _ _ _ => trivial) (fun _ _ _ => trivial) trivial tr
  refine ⟨h.once, ?_, fun k o hk => ?_⟩
  · rintro pre k post rfl hlt
    exact outcome_of_timeout hlt h
  · obtain ⟨c, hc⟩ := (h.outcomes k o).mp hk
    have hrequest : (after relay (start p) tr).requestOf k = some c := by
      unfold State.requestOf
      rw [hc]
      rfl
    refine ⟨c, hrequest, ?_⟩
    rintro r rfl
    obtain ⟨⟨x, q⟩, c', r', ⟨hserved, hrequest', hhandle⟩, hr⟩ := h.replied k r hk
    obtain rfl : c = c' := Option.some_inj.mp (hrequest.symm.trans hrequest')
    obtain ⟨-, rfl⟩ := handle_eq_some.mp hhandle
    refine ⟨x, q, hserved, fun tx => ?_⟩
    rw [receive_sent] at hr
    rw [amid_sent c x q.world tx q.buffers.messageTx]
    exact hr

/-! ## The end of the program -/

/-- A program that has handled `terminate` handles nothing after it. -/
def Stopped (s : State) : Prop :=
  ∀ pre k y post, s.served = pre ++ (k, y) :: post → s.requestOf k = some .terminate →
    post = [] ∧ s.server.running = false

theorem apply_running {e : Other} {p : Program} (h : p.running = false) :
    (e.apply p).running = false := by
  cases e with
  | threads w => exact h
  | datagram x d =>
    simp only [Other.apply, h]
    exact h

theorem terminate_running (x : Meanwhile) (p : Program) :
    (p.receive x (lit (sent .terminate))).1.running = false := by
  simp only [Program.receive, handleRequest_sent]
  rfl

theorem stopped_step {s : State} {Ok : Program → Prop} (h : Traced handle Ok s)
    (hstopped : Stopped s) (l : Event) : Stopped (relay s l) := by
  obtain ⟨hlater, hstep⟩ := @step_cases _ _ _ _ _ handle Other.apply s l
  -- what was handled before is the same request
  have hbefore : ∀ k y, (k, y) ∈ s.served → (relay s l).requestOf k = some .terminate →
      s.requestOf k = some .terminate := by
    intro k y hk hrequest
    obtain ⟨-, c, r, -, hc, -⟩ := h.served (k, y) hk
    rw [hlater.requests k c hc] at hrequest
    rw [hc]
    exact hrequest
  rcases hstep with ⟨hserved, hserver⟩ | ⟨⟨k', c⟩, x, r, hx, hhandle, hserved, hserver⟩
  · intro pre k y post hsplit hrequest
    rw [hserved] at hsplit
    have hk : (k, y) ∈ s.served := hsplit ▸ List.mem_append_right _ List.mem_cons_self
    obtain ⟨hpost, hrunning⟩ := hstopped pre k y post hsplit (hbefore k y hk hrequest)
    refine ⟨hpost, ?_⟩
    rcases hserver with hserver | ⟨e, hserver⟩ <;> rw [hserver]
    · exact hrunning
    · exact apply_running hrunning
  · obtain ⟨hrunning, rfl⟩ := handle_eq_some.mp hhandle
    intro pre k y post hsplit hrequest
    rw [hserved] at hsplit
    rcases List.eq_nil_or_concat post with rfl | ⟨post', z, rfl⟩
    · obtain ⟨-, heq⟩ := List.append_inj' hsplit rfl
      cases heq
      have hc := hlater.requests k' c (h.toServer (k', c) hx)
      obtain rfl : c = .terminate := Option.some_inj.mp (hc.symm.trans hrequest)
      exact ⟨rfl, hserver ▸ terminate_running x _⟩
    · -- it is still running, so that no `terminate` has been handled before
      rw [List.concat_eq_append, ← List.cons_append, ← List.append_assoc] at hsplit
      obtain ⟨hbefore', -⟩ := List.append_inj' hsplit rfl
      have hk : (k, y) ∈ s.served := hbefore' ▸ List.mem_append_right _ List.mem_cons_self
      have hno := (hstopped pre k y post' hbefore' (hbefore k y hk hrequest)).2
      rw [hrunning] at hno
      cases hno

theorem stopped_run (p : Program) (tr : List Event) : Stopped (after relay (start p) tr) := by
  have hstep : ∀ (s : State) (l : Event), (Traced handle (fun _ => True) s ∧ Stopped s) →
      Traced handle (fun _ => True) (relay s l) ∧ Stopped (relay s l) := by
    rintro s l ⟨h, hstopped⟩
    exact ⟨traced_step (fun _ _ _ _ _ _ => trivial) (fun _ _ _ => trivial) h l,
      stopped_step h hstopped l⟩
  have hstart : Stopped (start p) := by
    intro pre k y post hsplit
    cases (List.append_eq_nil_iff.mp hsplit.symm).2
  exact (invariant_of_step hstep ⟨Traced.start trivial, hstart⟩ tr).2

/-- **Where the network repeats nothing, the program handles each command at most once, and none
after a `terminate`.** -/
theorem handled_once (p : Program) (tr : List Event) (hrepeats : ∀ l ∈ tr, ¬ l.repeats) :
    let s := after relay (start p) tr
    (s.served.map Prod.fst).Nodup ∧
      ∀ pre k y post, s.served = pre ++ (k, y) :: post → s.requestOf k = some .terminate →
        post = [] :=
  ⟨served_once hrepeats, fun pre k y post hsplit hrequest =>
    (stopped_run p tr pre k y post hsplit hrequest).1⟩

/-- The program at its start. -/
def fresh : { p : Program // Printed p.world } :=
  ⟨⟨early, ⟨[], []⟩, true⟩, fun _ hu => Option.some_inj.mp hu ▸ by decide +kernel⟩

theorem handled_once_terminate :
    let s := after relay (start fresh.1)
      [.request .terminate, .request .base, .arrive 0 alone, .arrive 0 alone]
    (s.served.map Prod.fst).Nodup ∧
      ∀ pre k y post, s.served = pre ++ (k, y) :: post → s.requestOf k = some .terminate →
        post = [] :=
  handled_once fresh.1
    [.request .terminate, .request .base, .arrive 0 alone, .arrive 0 alone]
    (by simp [Label.repeats])

/-! ## The name of a mode -/

theorem toNumber_digits {ds : Bytes} (hne : ds ≠ []) (hdigits : ∀ b ∈ ds, isdigit b = true) :
    toNumber ds = some (digitsValue ds) ∧ toNumber (45 :: ds) = some (-digitsValue ds) := by
  have hall : ds ≠ [] ∧ ds.all isdigit = true := ⟨hne, List.all_eq_true.mpr hdigits⟩
  constructor
  · cases ds with
    | nil => cases hne rfl
    | cons b ds =>
      have hsign : b ≠ 45 := by
        rintro rfl
        cases hdigits 45 List.mem_cons_self
      unfold toNumber
      split
      · rename_i heq
        cases heq
        cases hsign rfl
      · exact if_pos hall
  · exact if_pos hall

/-- The page reads back the number that was printed. -/
theorem toNumber_decimal (n : Int) : toNumber (decimal n) = some n := by
  have hdigits : ∀ m : Nat, ∀ b ∈ lit m.repr, isdigit b = true := fun m b hb => lit_repr_isdigit hb
  have hne : ∀ m : Nat, lit m.repr ≠ [] := fun m h =>
    Nat.repr_ne_empty (String.toList_eq_nil_iff.mp (List.map_eq_nil_iff.mp h))
  unfold decimal
  rw [Int.toString_eq_repr, Int.repr_eq_if]
  split
  · rename_i h
    rw [(toNumber_digits (hne _) (hdigits _)).1, digitsValue_repr]
    exact congrArg some (Int.toNat_of_nonneg h)
  · rename_i h
    rw [lit_append]
    refine (toNumber_digits (hne _) (hdigits _)).2.trans (congrArg some ?_)
    rw [digitsValue_repr]
    omega

/-- Whatever number the mode is, the page shows its name for it. -/
theorem modeName_every (mode : Int) : modeName (decimal mode) = nameOf mode := by
  unfold modeName nameOf
  rw [toNumber_decimal]
  simp only [Option.some_inj]
  rfl

/-! ## What the page makes of a reply -/

/-- The controls, each as the handler has read it. -/
def Handling.controls (h : Handling) : Controls where
  currentMode := h.mode.controls.currentMode
  volume := AudioMixer_getVolume h.volume.controls
  tempo := AudioMixer_getTempo h.tempo.controls

section

variable {uptimeString : Option Bytes → Bytes} {x : Meanwhile} {w : World} {tx r : Bytes}

/-- The displays after the reply to a command whose handler has read the controls `c`; that to a
mode request changes none. -/
def displayed (c : Controls) (before : Shown) : UdpListener.Command → Shown
  | .control q => if meant q = .mode then before else expected c before (meant q)
  | .base | .hihat | .snare | .terminate => before

/-- What a reply to the command `q` does on the page. -/
structure Displayed (uptimeString : Option Bytes → Bytes) (q : UdpListener.Command) (c : Controls)
    (r : Bytes) : Prop where
  ascii : ∀ b ∈ r, b < 128
  shown : ∀ page, (commandReply uptimeString r page).shown = displayed c page.shown q
  errorBox : ∀ page, (commandReply uptimeString r page).errorBox =
    (decide (q ≠ .control .getUpdates) && page.errorBox)
  errorText : ∀ page, (commandReply uptimeString r page).errorText = page.errorText

theorem ascii_isdigit {b : UInt8} (h : isdigit b = true) : b < 128 := by
  unfold isdigit at h
  have hle : b ≤ 57 := of_decide_eq_true (Bool.and_eq_true_iff.mp h).2
  exact UInt8.lt_of_le_of_lt hle (by decide)

theorem ascii_decimal {n : Int} {b : UInt8} (h : b ∈ decimal n) : b < 128 := by
  rcases mem_decimal h with rfl | hdigit
  · decide
  · exact ascii_isdigit hdigit

/-- The reply with a level goes to its display. -/
theorem displayed_level {q : Beatbox.Command} {c : Controls} {first : String} {x : Level}
    (hfirst : first = "new" ∨ first = "current") (hmeant : meant q = levelBranch x) :
    Displayed uptimeString (.control q) c (levelText first x (c.get x)) := by
  have hbranch := branch_level hfirst x (c.get x)
  have hno : UdpListener.Command.control q ≠ .control .getUpdates := by
    rintro heq
    cases heq
    cases x <;> cases hmeant
  have hlabel : ∀ b ∈ lit (first ++ " " ++ levelName x ++ ": "), b < 128 := by
    rcases hfirst with rfl | rfl <;> cases x <;> decide +kernel
  refine ⟨fun b hb => ?_, fun page => ?_, fun page => ?_, fun page => ?_⟩
  · unfold levelText at hb
    rcases List.mem_append.mp hb with hb | hb
    · exact hlabel b hb
    · rcases List.mem_append.mp hb with hb | hb
      · exact ascii_decimal hb
      · obtain rfl := List.mem_singleton.mp hb
        decide
  · rw [commandReply, hbranch, displayed, hmeant]
    cases x <;> simp only [levelBranch, word_level hfirst, inputValue_line] <;> rfl
  · rw [commandReply, hbranch, decide_eq_true hno]
    cases x <;> rfl
  · rw [commandReply, hbranch]
    cases x <;> rfl

theorem displayed_update {uptime : Bytes} (hfixed : IsFixed uptime) (c : Controls) :
    Displayed uptimeString (.control .getUpdates) c (updateText c uptime) := by
  refine ⟨fun b hb => ?_, fun page => ?_, fun page => ?_, fun page => ?_⟩
  · have hlabel : ∀ b ∈ lit "update: ", b < 128 := by decide +kernel
    have huptime : ∀ b ∈ uptime, b < 128 := by
      intro b hb
      rcases hfixed b hb with rfl | hdigit
      · decide
      · exact ascii_isdigit hdigit
    unfold updateText at hb
    simp only [List.mem_append, List.mem_cons, List.not_mem_nil, or_false] at hb
    rcases hb with hb | hb | rfl | hb | rfl | hb | rfl | hb | rfl
    · exact hlabel b hb
    · exact ascii_decimal hb
    · decide
    · exact ascii_decimal hb
    · decide
    · exact ascii_decimal hb
    · decide
    · exact huptime b hb
    · decide
  · rw [commandReply, branch_update hfixed]
    simp only [word, split_update hfixed]
    change Shown.mk (modeName (decimal _)) (inputValue (decimal _)) (inputValue (decimal _)) = _
    rw [modeName_every, inputValue_decimal, inputValue_decimal]
    rfl
  · rw [commandReply, branch_update hfixed]
    rfl
  · rw [commandReply, branch_update hfixed]

/-- The other replies. -/
def plainTexts : List String :=
  ["Current mode: None\n", "Current mode: Rock!!!\n", "Current mode: Custom\n",
    "playing base drum\n", "playing hihat\n", "playing snare\n", "Server shut down. Goodbye!\n"]

theorem plainTexts_bytes : ∀ t ∈ plainTexts, ∀ b ∈ lit t, b ≠ 0 ∧ b < 128 := by
  simp [plainTexts, lit]

theorem plainTexts_branch :
    ∀ t ∈ plainTexts, branch (lit t) = none ∨ branch (lit t) = some .mode := by
  decide +kernel

/-- They change nothing on the page. -/
theorem displayed_text {q : UdpListener.Command} {c : Controls} {t : String} (ht : t ∈ plainTexts)
    (hq : ∀ before, displayed c before q = before) (hno : q ≠ .control .getUpdates) :
    Displayed uptimeString q c (lit t) := by
  have hbytes := plainTexts_bytes t ht
  have hbranch := plainTexts_branch t ht
  refine ⟨fun b hb => (hbytes b hb).2, fun page => ?_, fun page => ?_, fun page => ?_⟩
  · rw [commandReply, hq]
    rcases hbranch with hbranch | hbranch
    · rw [hbranch]
    · rw [hbranch]
      rfl
  · rw [commandReply, decide_eq_true hno, Bool.true_and]
    rcases hbranch with hbranch | hbranch <;> rw [hbranch]
  · rw [commandReply]
    rcases hbranch with hbranch | hbranch <;> rw [hbranch]

/-- The reply to a `getUpdates` is the one to a state with the controls as they were read. -/
theorem updatesRequest_sent (x : Meanwhile) (w : World) (tx : Bytes) :
    (updatesRequest x w tx).reply.sent = (UdpListener.updatesRequest
      { x.act 0 w with controls := (updatesRequest x w tx).controls } tx).sent := by
  unfold updatesRequest UdpListener.updatesRequest
  simp only
  cases (x.act 0 w).uptime with
  | none => rfl
  | some uptime => rfl

/-- **What the program's reply to a command does on the page.** -/
theorem reply_displayed (hw : Printed w) (q : UdpListener.Command)
    (hr : r ∈ (amid x w tx q).reply.sent) :
    Displayed uptimeString q (amid x w tx q).controls r := by
  have htext : ∀ {t : String}, t ∈ plainTexts → ∀ w',
      r ∈ (reply w' (strcpy tx (lit t))).sent → r = lit t := by
    intro t ht w' hr
    have hnonzero : ∀ b ∈ lit t, b ≠ 0 := fun b hb => (plainTexts_bytes t ht b hb).1
    rw [reply, cstring_strcpy, cstring_of_nonzero hnonzero] at hr
    exact List.mem_singleton.mp hr
  have hlevel : ∀ first x, 0 ∉ lit (first ++ " " ++ levelName x ++ ": ") → ∀ w' v,
      r ∈ (reply w' (strcpy tx (lit (first ++ " " ++ levelName x ++ ": " ++ toString v ++
        "\n")))).sent → r = levelText first x v := by
    intro first x hlabel w' v hr
    rw [reply_level first x hlabel] at hr
    exact List.mem_singleton.mp hr
  have hsound : ∀ {f t}, t ∈ plainTexts → r ∈ (soundRequest f t (x.act 0 w) tx).sent →
      r = lit t := by
    intro f t ht hr
    unfold soundRequest at hr
    split at hr
    · cases hr
    · exact htext ht _ hr
  cases q with
  | control q =>
    cases q with
    | modeNone | modeRock | modeCustom =>
      rw [htext (by simp [plainTexts]) _ hr]
      exact displayed_text (by simp [plainTexts]) (fun _ => rfl) (by decide)
    | volumeUp | volumeDown =>
      rw [hlevel "new" .volume (by decide +kernel) _ _ hr]
      exact displayed_level (.inl rfl) rfl
    | tempoUp | tempoDown =>
      rw [hlevel "new" .tempo (by decide +kernel) _ _ hr]
      exact displayed_level (.inl rfl) rfl
    | getvol =>
      rw [hlevel "current" .volume (by decide +kernel) _ _ hr]
      exact displayed_level (.inr rfl) rfl
    | gettempo =>
      rw [hlevel "current" .tempo (by decide +kernel) _ _ hr]
      exact displayed_level (.inr rfl) rfl
    | getUpdates =>
      have hsent : r ∈ (updatesRequest x w tx).reply.sent := hr
      have hread := updatesRequest_sent x w tx
      cases hu : (x.act 0 w).uptime with
      | none =>
        rw [hread, UdpListener.updatesRequest, hu] at hsent
        cases hsent
      | some uptime =>
        have hfixed : IsFixed uptime := x.printed 0 w hw uptime hu
        have hw' : { x.act 0 w with controls := (updatesRequest x w tx).controls }.uptime =
            some uptime := hu
        rw [hread.trans (reply_updates hw' hfixed tx)] at hsent
        rw [List.mem_singleton.mp hsent]
        exact displayed_update hfixed _
  | base | hihat | snare =>
    rw [hsound (by simp [plainTexts]) hr]
    exact displayed_text (by simp [plainTexts]) (fun _ => rfl) (by decide)
  | terminate =>
    rw [htext (by simp [plainTexts]) (x.act 0 w) hr]
    exact displayed_text (by simp [plainTexts]) (fun _ => rfl) (by decide)

/-! ## The page in a run -/

/-- This is how the program has handled the command `q` of socket `k`. -/
def Seen (s : State) (k : ℕ) (q : UdpListener.Command) (h : Handling) : Prop :=
  ∃ x p, (k, x, p) ∈ s.served ∧ s.requestOf k = some q ∧
    h = amid x p.world p.buffers.messageTx q

theorem replied_displayed {s : State} (h : Traced handle (fun p => Printed p.world) s) {k : ℕ}
    (hr : Replied handle s k r) :
    ∃ q g, s.requestOf k = some q ∧ Seen s k q g ∧ Displayed uptimeString q g.controls r := by
  obtain ⟨⟨x, p⟩, q, r', ⟨hserved, hrequest, hhandle⟩, hr⟩ := hr
  have hprinted : Printed p.world := (h.served (k, x, p) hserved).1
  refine ⟨q, _, hrequest, ⟨x, p, hserved, hrequest, rfl⟩, ?_⟩
  obtain ⟨-, rfl⟩ := handle_eq_some.mp hhandle
  rw [receive_sent] at hr
  exact reply_displayed hprinted q hr

/-- An error text changes the error box only. -/
theorem commandReply_error (page : Page) :
    commandReply uptimeString (text none) page =
      { page with errorText := text none, errorBox := true } := by
  have hbranch : branch (text none) = some .error := by decide +kernel
  rw [commandReply, hbranch]

theorem page_append (page₀ : Page) (outcomes : List (ℕ × Option Bytes)) (x : ℕ × Option Bytes) :
    page uptimeString page₀ (outcomes ++ [x]) =
      commandReply uptimeString (text x.2) (page uptimeString page₀ outcomes) := by
  unfold page
  rw [List.foldl_append]
  rfl

/-- The states of the program in which the controls were read. -/
def Handling.moments (h : Handling) : List World := [h.tempo, h.volume, h.mode]

/-- What a display shows was so at a moment at which the program handled one of the page's commands,
or stood there before. -/
def WasTrue {α : Type} (s : State) (display : Shown → α) (before now : Shown) : Prop :=
  display now = display before ∨ ∃ k q h, Seen s k q h ∧
    ∃ w ∈ h.moments, display now = display (stateShown w.controls)

/-- A reply leaves a display as it is, or shows what was read. -/
theorem displayed_cases (h : Handling) (before : Shown) (q : UdpListener.Command) :
    let now := displayed h.controls before q
    (now.mode = before.mode ∨ now.mode = (stateShown h.mode.controls).mode) ∧
      (now.volume = before.volume ∨ now.volume = (stateShown h.volume.controls).volume) ∧
      (now.tempo = before.tempo ∨ now.tempo = (stateShown h.tempo.controls).tempo) := by
  cases q with
  | control q =>
    cases q with
    | modeNone | modeRock | modeCustom => exact ⟨.inl rfl, .inl rfl, .inl rfl⟩
    | volumeUp | volumeDown | getvol => exact ⟨.inl rfl, .inr rfl, .inl rfl⟩
    | tempoUp | tempoDown | gettempo => exact ⟨.inl rfl, .inl rfl, .inr rfl⟩
    | getUpdates => exact ⟨.inr rfl, .inr rfl, .inr rfl⟩
  | base | hihat | snare | terminate => exact ⟨.inl rfl, .inl rfl, .inl rfl⟩

theorem page_was_true {s : State} (h : Traced handle (fun p => Printed p.world) s) (page₀ : Page)
    (outcomes : List (ℕ × Option Bytes)) (hout : outcomes ⊆ s.outcomes) :
    let now := (page uptimeString page₀ outcomes).shown
    WasTrue s Shown.mode page₀.shown now ∧ WasTrue s Shown.volume page₀.shown now ∧
      WasTrue s Shown.tempo page₀.shown now := by
  induction outcomes using List.reverseRecOn with
  | nil => exact ⟨.inl rfl, .inl rfl, .inl rfl⟩
  | append_singleton outcomes x ih =>
    obtain ⟨hbefore, hx⟩ := List.append_subset.mp hout
    obtain ⟨hmode, hvolume, htempo⟩ := ih hbefore
    obtain ⟨k, o⟩ := x
    simp only [page_append]
    cases o with
    | none =>
      rw [commandReply_error]
      exact ⟨hmode, hvolume, htempo⟩
    | some r =>
      obtain ⟨q, g, -, hseen, hdisplayed⟩ := @replied_displayed uptimeString r s h k
        (h.replied k r (hx List.mem_cons_self))
      simp only [text, hdisplayed.shown]
      obtain ⟨hm, hv, ht⟩ := displayed_cases g (page uptimeString page₀ outcomes).shown q
      have hkeep : ∀ {α : Type} {display : Shown → α} {w : World}, w ∈ g.moments →
          (display (displayed g.controls (page uptimeString page₀ outcomes).shown q) =
              display (page uptimeString page₀ outcomes).shown ∨
            display (displayed g.controls (page uptimeString page₀ outcomes).shown q) =
              display (stateShown w.controls)) →
          WasTrue s display page₀.shown (page uptimeString page₀ outcomes).shown →
          WasTrue s display page₀.shown
            (displayed g.controls (page uptimeString page₀ outcomes).shown q) := by
        rintro α display w hw (hd | hd) hwas
        · unfold WasTrue
          rw [hd]
          exact hwas
        · exact .inr ⟨k, q, g, hseen, w, hw, hd⟩
      exact ⟨hkeep (w := g.mode) (by simp [Handling.moments]) hm hmode,
        hkeep (w := g.volume) (by simp [Handling.moments]) hv hvolume,
        hkeep (w := g.tempo) (by simp [Handling.moments]) ht htempo⟩

/-- **The page shows nothing that was not true**: every display shows what it calls the value that
the program had at a moment at which it handled one of the page's commands, or what stood there at
first. -/
theorem shown_was_true (p : { p : Program // Printed p.world }) (page₀ : Page) (tr : List Event) :
    let s := after relay (start p.1) tr
    let now := (page uptimeString page₀ s.outcomes).shown
    WasTrue s Shown.mode page₀.shown now ∧ WasTrue s Shown.volume page₀.shown now ∧
      WasTrue s Shown.tempo page₀.shown now :=
  page_was_true (relay_run p.2 tr) page₀ _ (List.Subset.refl _)

/-- Where the other threads leave the controls alone, all three are those of the state in which the
request arrived. -/
theorem updatesRequest_quiet (h : ∀ i w, (x.act i w).controls = w.controls) (w : World)
    (tx : Bytes) : (updatesRequest x w tx).controls = w.controls := by
  simp only [updatesRequest]
  cases (x.act 0 w).uptime with
  | none =>
    simp only [Handling.controls, h]
    rfl
  | some uptime =>
    simp only [Handling.controls, h]
    rfl

/-- **After the reply to a `getUpdates` each display shows what the handling of that very request
has read**, and the error box is gone.  All show one state of the program, the one in which the
request arrived, where no other thread changes the controls meanwhile. -/
theorem shown_after_update (p : { p : Program // Printed p.world }) (page₀ : Page)
    (tr : List Event) :
    let s := after relay (start p.1) tr
    ∀ k r pre, s.outcomes = pre ++ [(k, some r)] → s.requestOf k = some (.control .getUpdates) →
      ∃ x q, (k, x, q) ∈ s.served ∧
        let now := page uptimeString page₀ s.outcomes
        let h := amid x q.world q.buffers.messageTx (.control .getUpdates)
        now.shown.mode = nameOf h.mode.controls.currentMode ∧
          now.shown.volume = decimal (AudioMixer_getVolume h.volume.controls) ∧
          now.shown.tempo = decimal (AudioMixer_getTempo h.tempo.controls) ∧
          now.errorBox = false ∧
          ((∀ i w, (x.act i w).controls = w.controls) →
            now.shown = stateShown q.world.controls) := by
  intro s k r pre hlast hrequest
  have h : Traced handle (fun p => Printed p.world) s := relay_run p.2 tr
  have hmem : (k, some r) ∈ s.outcomes := hlast ▸ List.mem_append_right _ List.mem_cons_self
  obtain ⟨c, g, hc, ⟨x, q, hserved, -, rfl⟩, hdisplayed⟩ :=
    @replied_displayed uptimeString r s h k (h.replied k r hmem)
  obtain rfl : c = .control .getUpdates := Option.some_inj.mp (hc.symm.trans hrequest)
  have hshown : (page uptimeString page₀ s.outcomes).shown =
      stateShown (updatesRequest x q.world q.buffers.messageTx).controls := by
    rw [hlast, page_append]
    exact hdisplayed.shown _
  have hbox : (page uptimeString page₀ s.outcomes).errorBox = false := by
    rw [hlast, page_append]
    exact hdisplayed.errorBox _
  refine ⟨x, q, hserved, congrArg Shown.mode hshown, congrArg Shown.volume hshown,
    congrArg Shown.tempo hshown, hbox, fun hquiet => ?_⟩
  exact hshown.trans (congrArg stateShown (updatesRequest_quiet hquiet _ _))

theorem shown_after_update_fresh :
    let s := after relay (start fresh.1)
      [.request (.control .getUpdates), .arrive 0 alone, .deliver 0]
    ∃ x q, (0, x, q) ∈ s.served ∧
      let now := page (fun _ => []) loaded s.outcomes
      let h := amid x q.world q.buffers.messageTx (.control .getUpdates)
      now.shown.mode = nameOf h.mode.controls.currentMode ∧
        now.shown.volume = decimal (AudioMixer_getVolume h.volume.controls) ∧
        now.shown.tempo = decimal (AudioMixer_getTempo h.tempo.controls) ∧
        now.errorBox = false ∧
        ((∀ i w, (x.act i w).controls = w.controls) →
          now.shown = stateShown q.world.controls) :=
  shown_after_update fresh loaded
    [.request (.control .getUpdates), .arrive 0 alone, .deliver 0] 0
    (lit "update: 70 50 1 10.00\n") [] (by decide +kernel) rfl

/-- Up on the joystick, and right, after the tempo has been read and before the volume is. -/
def joystickMeanwhile : Meanwhile where
  act i w := if i = 2 then { w with controls := ⟨w.controls.currentMode, 55, 75⟩ } else w
  printed i w h := by
    split
    · exact h
    · exact h

-- the page shows a volume and a tempo that the program never had at once
example : (page (fun _ => []) loaded (after relay (start fresh.1)
    [.request (.control .getUpdates), .arrive 0 joystickMeanwhile, .deliver 0]).outcomes).shown =
      ⟨lit "None", lit "55", lit "70"⟩ := by decide +kernel

/-- The outcome is a reply to a `getUpdates`. -/
def IsUpdate (s : State) (x : ℕ × Option Bytes) : Prop :=
  x.2 ≠ none ∧ s.requestOf x.1 = some (.control .getUpdates)

theorem page_error_box {s : State} (h : Traced handle (fun p => Printed p.world) s)
    {page₀ : Page} (hbox : page₀.errorBox = false) (outcomes : List (ℕ × Option Bytes))
    (hout : outcomes ⊆ s.outcomes) :
    (page uptimeString page₀ outcomes).errorBox = true ↔
      ∃ pre k post, outcomes = pre ++ (k, none) :: post ∧ ∀ x ∈ post, ¬ IsUpdate s x := by
  induction outcomes using List.reverseRecOn with
  | nil =>
    refine ⟨fun hpage => ?_, ?_⟩
    · cases hbox.symm.trans hpage
    · rintro ⟨pre, k, post, hsplit, -⟩
      cases (List.append_eq_nil_iff.mp hsplit.symm).2
  | append_singleton outcomes x ih =>
    obtain ⟨hbefore, hx⟩ := List.append_subset.mp hout
    obtain ⟨k, o⟩ := x
    rw [page_append]
    cases o with
    | none =>
      rw [commandReply_error]
      exact iff_of_true rfl ⟨outcomes, k, [], rfl, nofun⟩
    | some r =>
      obtain ⟨q, c, hq, -, hdisplayed⟩ := @replied_displayed uptimeString r s h k
        (h.replied k r (hx List.mem_cons_self))
      have hupdate : IsUpdate s (k, some r) ↔ q = .control .getUpdates := by
        unfold IsUpdate
        rw [hq, Option.some_inj]
        exact and_iff_right nofun
      simp only [text, hdisplayed.errorBox, Bool.and_eq_true, decide_eq_true_eq, ih hbefore]
      constructor
      · rintro ⟨hne, pre, j, post, rfl, hpost⟩
        refine ⟨pre, j, post ++ [(k, some r)], by simp, fun x hx => ?_⟩
        rcases List.mem_append.mp hx with hx | hx
        · exact hpost x hx
        · obtain rfl := List.mem_singleton.mp hx
          exact fun hup => hne (hupdate.mp hup)
      · rintro ⟨pre, j, post, hsplit, hpost⟩
        rcases List.eq_nil_or_concat post with rfl | ⟨post', y, rfl⟩
        · cases (List.append_inj' hsplit rfl).2
        · rw [List.concat_eq_append, ← List.cons_append, ← List.append_assoc] at hsplit
          obtain ⟨rfl, hy⟩ := List.append_inj' hsplit rfl
          cases hy
          have hlast := hpost (k, some r) (by simp)
          exact ⟨fun heq => hlast (hupdate.mpr heq), pre, j, post', rfl,
            fun x hx => hpost x (by simp [hx])⟩

/-- **The error box is shown exactly while a command has timed out after the last reply to a
`getUpdates`.** -/
theorem error_box_iff (p : { p : Program // Printed p.world }) (tr : List Event) :
    let s := after relay (start p.1) tr
    (page uptimeString loaded s.outcomes).errorBox = true ↔
      ∃ pre k post, s.outcomes = pre ++ (k, none) :: post ∧ ∀ x ∈ post, ¬ IsUpdate s x :=
  page_error_box (relay_run p.2 tr) rfl _ (List.Subset.refl _)

end

end Relay
