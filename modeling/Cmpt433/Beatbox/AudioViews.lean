import Cmpt433.Lib.LocalViews
import Cmpt433.Beatbox.AudioThreads

/-!
# What each thread of the beat box knows (`work/pcmExample`)

A thread's view says which mutexes it is between lock and unlock of, what it has done to its own
wave files, and how far it is with the shutdown.  `View.allows` is the discipline that the programs
keep: which thread runs an instruction, in which section, and after what.

* `check` — the discipline, and the view after an instruction.
* `Agree` — the views fit the shared state, and every program keeps the discipline.
* `agree_step`, `agree_run` — they always do.
-/

set_option autoImplicit false

namespace AudioThreads

open Beatbox Mixer UdpListener LocalViews Pthread

/-- How far a thread is with the shutdown; `main` goes from `before` to `joined` to `finished`. -/
inductive Cleanup where
  | before
  /-- `stopping` is set. -/
  | stopped
  /-- The playback thread, or for `main` the UDP thread, has been joined. -/
  | joined
  /-- `audioMutex` has been destroyed, or was held then. -/
  | destroyed
  /-- The playback buffer is freed; for `main`, `s_initialized` is false. -/
  | finished
  deriving DecidableEq

def Cleanup.afterJoin : Cleanup → Bool
  | .before | .stopped => false
  | .joined | .destroyed | .finished => true

structure View where
  thread : Thread
  /-- It is between lock and unlock of `audioMutex`. -/
  audio : Bool
  /-- It is between lock and unlock of `s_lock`. -/
  period : Bool
  baseDrum : Phase
  hiHat : Phase
  snare : Phase
  cleanup : Cleanup
  /-- The flag `running` is set: of the UDP thread its own, of `main` the joystick thread's. -/
  running : Bool
  /-- `pStats` is not freed. -/
  stats : Bool
  deriving DecidableEq

def View.phase (v : View) : SoundFile → Phase
  | .baseDrumFile => v.baseDrum
  | .hiHatFile => v.hiHat
  | .snareFile => v.snare

def View.setPhase (v : View) (φ : Phase) : SoundFile → View
  | .baseDrumFile => { v with baseDrum := φ }
  | .hiHatFile => { v with hiHat := φ }
  | .snareFile => { v with snare := φ }

/-- The thread that reads, queues and frees a sound. -/
def threadOf (p : Sound) : Thread :=
  match p.1 with
  | .beatbox => .main
  | .udpListener => .udp

/-- A new thread. -/
def View.new (t : Thread) : View where
  thread := t
  audio := false
  period := false
  baseDrum := .unread
  hiHat := .unread
  snare := .unread
  cleanup := .before
  running := true
  stats := true

/-- A thread that has read its wave files is at the head of its loop. -/
def View.looping : Thread → View
  | .main => { View.new .main with baseDrum := .read, hiHat := .read, snare := .read }
  | .udp => { View.new .udp with baseDrum := .read, hiHat := .read, snare := .read }
  | .playback => View.new .playback
  | .joystick => View.new .joystick

/-- A thread that has ended. -/
def View.last : Thread → View
  | .main =>
    { View.new .main with
      baseDrum := .cleared, hiHat := .cleared, snare := .cleared, cleanup := .finished,
      running := false }
  | .udp =>
    { View.new .udp with
      baseDrum := .cleared, hiHat := .cleared, snare := .cleared, cleanup := .finished,
      running := false }
  | .playback => { View.new .playback with stats := false }
  | .joystick => View.new .joystick

/-- Whose call it is. -/
def View.allowsOp (v : View) : Op Sound → Bool
  | .queue p => threadOf p = v.thread ∧ v.phase p.2 = .read
  | .fill _ => v.thread = .playback

/-- The discipline. -/
def View.allows (v : View) : Instr → Bool
  | .AudioMixer_readWaveFileIntoMemory p => threadOf p = v.thread ∧ v.phase p.2 = .unread
  | .lock .audioMutex =>
    v.audio = false ∧ v.period = false ∧ v.cleanup = .before ∧ v.thread ≠ .joystick
  | .unlock .audioMutex => v.audio = true ∧ v.period = false
  | .lock .s_lock => v.thread = .playback ∧ v.period = false
  | .unlock .s_lock => v.period = true
  | .assertInitialized => v.thread = .playback ∧ v.audio = true
  | .ifDue => v = { View.looping .playback with audio := true }
  | .AudioMixer_queueSound p => v.audio = true ∧ threadOf p = v.thread ∧ v.phase p.2 = .read
  | .fillPlaybackBuffer | .writei => v.thread = .playback ∧ v.audio = true
  | .at l => v.audio = true ∧ v.allowsOp l.op
  | .useStats | .freeStats => v.thread = .playback ∧ v.stats = true
  | .sleepForMs | .sendto | .poll => v.audio = false
  | .mainLoop => v = View.looping .main
  | .playbackLoop => v = View.looping .playback
  | .udpLoop => v = View.looping .udp ∨ v = View.last .udp
  | .joystickLoop => v = View.looping .joystick
  | .stop => v.thread = .udp ∧ v.audio = false ∧ v.cleanup = .before
  | .join t =>
    v.audio = false ∧ v.period = false ∧
      (v.thread = .udp ∧ t = .playback ∧ v.cleanup = .stopped ∨
        v.thread = .main ∧ t = .udp ∧ v.cleanup = .before ∧ v.running = false ∨
        v.thread = .main ∧ t = .joystick ∧ v.cleanup = .joined ∧ v.running = false)
  | .destroy => v.thread = .udp ∧ v.cleanup = .joined
  | .freeBuffer => v.thread = .udp ∧ v.cleanup = .destroyed
  | .empty p =>
    threadOf p = v.thread ∧ v.phase p.2 = .read ∧ v.audio = false ∧
      (v.thread = .udp → v.cleanup = .finished)
  | .freeData p => threadOf p = v.thread ∧ v.phase p.2 = .emptied
  | .clear p => threadOf p = v.thread ∧ v.phase p.2 = .freed
  | .stopUdp => v.thread = .udp ∧ v.cleanup = .finished
  | .stopJoystick | .cancelJoystick => v.thread = .main
  | .Period_cleanup => v.thread = .main ∧ v.cleanup = .joined

/-- The view after an instruction. -/
def View.after (v : View) : Instr → View
  | .AudioMixer_readWaveFileIntoMemory p => v.setPhase .read p.2
  | .lock .audioMutex => { v with audio := true }
  | .unlock .audioMutex => { v with audio := false }
  | .lock .s_lock => { v with period := true }
  | .unlock .s_lock => { v with period := false }
  | .freeStats => { v with stats := false }
  | .stop => { v with cleanup := .stopped }
  | .join .playback | .join .udp => { v with cleanup := .joined }
  | .destroy => { v with cleanup := .destroyed }
  | .freeBuffer | .Period_cleanup => { v with cleanup := .finished }
  | .empty p => v.setPhase .emptied p.2
  | .freeData p => v.setPhase .freed p.2
  | .clear p => v.setPhase .cleared p.2
  | .stopUdp | .stopJoystick => { v with running := false }
  | _ => v

/-- A loop is followed by nothing but what comes after it. -/
def Instr.isLoop : Instr → Bool
  | .mainLoop | .playbackLoop | .udpLoop | .joystickLoop => true
  | _ => false

def Instr.isSection : Instr → Bool
  | .lock _ | .unlock _ => true
  | _ => false

/-- The instructions of the shutdown that others wait for. -/
def Instr.isCleanup : Instr → Bool
  | .stop | .join _ | .destroy | .freeBuffer | .Period_cleanup => true
  | _ => false

def check (v : View) (i : Instr) : Option View :=
  if v.allows i then some (if i.isLoop then View.last v.thread else v.after i) else none

/-- The view after a step: that of the first instruction of a loop is the loop's. -/
def View.next (v : View) (i : Instr) : View := if i.isLoop then v else v.after i

theorem check_eq_some {v w : View} {i : Instr} :
    check v i = some w ↔ v.allows i ∧ w = if i.isLoop then View.last v.thread else v.after i := by
  unfold check
  split
  · rename_i h
    rw [Option.some_inj]
    exact ⟨fun heq => ⟨h, heq.symm⟩, fun heq => heq.2.symm⟩
  · rename_i h
    exact ⟨nofun, fun heq => absurd heq.1 h⟩

/-! ## The programs -/

theorem playBeat_accepts (mode : Int) :
    Accepts check (View.looping .main) (playBeat mode ++ [.mainLoop]) (View.last .main) := by
  unfold playBeat
  split
  · decide
  · split <;> decide

theorem mainEnd_accepts : Accepts check (View.looping .main) mainEnd (View.last .main) := by decide

theorem playbackPass_accepts :
    Accepts check (View.looping .playback) (playbackPass ++ [.playbackLoop])
      (View.last .playback) := by decide

theorem handleRequest_accepts (r : Option UdpListener.Command) :
    Accepts check (View.looping .udp) (handleRequest r ++ [.sendto, .udpLoop])
      (View.last .udp) := by
  match r with
  | none | some (.control _) => rfl
  | some .base | some .hihat | some .snare | some .terminate => decide

theorem start_accepts (size : Nat) (t : Thread) :
    Accepts check (View.new t) ((start size).prog t) (View.last t) := by
  cases t <;> rfl

theorem accepts_at {v : View} {l : Point Sound} (haudio : v.audio = true)
    (hop : v.allowsOp l.op) : Accepts check v [.at l] v :=
  accepts_cons.mpr ⟨v, check_eq_some.mpr ⟨decide_eq_true ⟨haudio, hop⟩, rfl⟩, accepts_nil.mpr rfl⟩

section

variable {size : Nat} {contents : Sound → WaveFile} {t : Thread} {inp : Input}
  {ended : Thread → Bool} {sh sh' : Shared} {i : Instr} {is rest : List Instr}

/-- What a thread has in the place of an instruction ends where the check says. -/
theorem exec_accepts {v : View} (hv : v.allows i)
    (hrun : i = .udpLoop → sh.udpRunning = v.running)
    (hexec : exec size contents t inp ended sh i = some (sh', is)) :
    Accepts check (v.next i) is (if i.isLoop then View.last v.thread else v.after i) := by
  cases i with
  | mainLoop =>
    cases hexec
    obtain rfl : v = View.looping .main := of_decide_eq_true hv
    split
    · exact mainEnd_accepts
    · exact playBeat_accepts _
  | playbackLoop =>
    cases hexec
    obtain rfl : v = View.looping .playback := of_decide_eq_true hv
    split
    · decide
    · exact playbackPass_accepts
  | udpLoop =>
    cases hexec
    rw [hrun rfl]
    rcases of_decide_eq_true hv with rfl | rfl
    · exact handleRequest_accepts _
    · exact accepts_nil.mpr rfl
  | joystickLoop =>
    cases hexec
    obtain rfl : v = View.looping .joystick := of_decide_eq_true hv
    split <;> decide
  | AudioMixer_queueSound p =>
    simp only [exec] at hexec
    split at hexec
    · cases hexec
      obtain ⟨haudio, hop⟩ := of_decide_eq_true hv
      exact accepts_at (l := (Op.queue p).enter) haudio (decide_eq_true hop)
    · cases hexec
      exact accepts_nil.mpr rfl
  | fillPlaybackBuffer =>
    cases hexec
    obtain ⟨hthread, haudio⟩ := of_decide_eq_true hv
    exact accepts_at (l := (Op.fill size).enter) haudio (decide_eq_true hthread)
  | ifDue =>
    cases hexec
    obtain rfl := of_decide_eq_true hv
    split <;> decide
  | «at» l =>
    cases hexec
    obtain ⟨haudio, hop⟩ := of_decide_eq_true hv
    cases hgo : (l.go (fun p => (contents p).data) (sh.sound contents) sh.audio).2 with
    | none => exact accepts_nil.mpr rfl
    | some l' => exact accepts_at haudio (by rw [Point.go_op hgo]; exact hop)
  | lock m =>
    obtain ⟨_, -, heq⟩ := Option.map_eq_some_iff.mp hexec
    cases heq
    exact accepts_nil.mpr rfl
  | join t' =>
    simp only [exec] at hexec
    split at hexec <;> cases hexec
    exact accepts_nil.mpr rfl
  | _ =>
    cases hexec
    exact accepts_nil.mpr rfl

end

/-! ## The views and the shared state -/

/-- A thread that has begun the shutdown is not in a section, and the joystick thread never is.  Only
the playback thread locks `s_lock`.  The UDP thread empties its sounds after all the rest. -/
structure View.Fine (v : View) : Prop where
  leaving : v.cleanup ≠ .before → v.audio = false
  joystick : v.thread = .joystick → v.audio = false
  period : v.period = true → v.thread = .playback
  sounds : v.thread = .udp → ∀ f, v.phase f = .unread ∨ v.phase f = .read ∨ v.cleanup = .finished

structure Locks (v : Thread → View) (sh : Shared) : Prop where
  audio : Owned (fun t => (v t).audio) (sh.mutex .audioMutex)
  period : Owned (fun t => (v t).period) (sh.mutex .s_lock)
  kept : (sh.mutex .s_lock).destroyed = false
  destroyed : (sh.mutex .audioMutex).destroyed = true → (v .udp).cleanup.afterJoin

structure Flags (v : Thread → View) (s : State) : Prop where
  stopping : s.shared.stopping = true ↔ (v .udp).cleanup ≠ .before
  joined : (v .udp).cleanup.afterJoin → s.prog .playback = []
  mainJoined : (v .main).cleanup ≠ .before → s.prog .udp = []
  running : s.shared.udpRunning = (v .udp).running
  joystick : s.shared.joystickRunning = (v .main).running
  initialized : s.shared.s_initialized = false → (v .main).cleanup ≠ .before

structure Heap (v : Thread → View) (sh : Shared) : Prop where
  phase : ∀ p, sh.phase p = (v (threadOf p)).phase p.2
  pData : ∀ p, .pData p ∈ sh.blocks.freed ↔ sh.phase p = .freed ∨ sh.phase p = .cleared
  buffer : .playbackBuffer ∈ sh.blocks.freed ↔ (v .udp).cleanup = .finished
  pStats : .pStats ∈ sh.blocks.freed ↔ (v .playback).stats = false
  once : sh.blocks.freed.Nodup
  pointed : ∀ b ∈ sh.audio.table.soundBites, ∀ p, b.pSound = some p → sh.phase p ≠ .unread

structure Agree (v : Thread → View) (s : State) : Prop where
  checked : Checked check v s.prog View.last
  threads : ∀ t, (v t).thread = t
  fine : ∀ t, (v t).Fine
  joystick : v .joystick = View.new .joystick
  locks : Locks v s.shared
  flags : Flags v s
  heap : Heap v s.shared
  aborted : s.shared.aborted = false

theorem start_agree (size : Nat) : Agree View.new (start size) where
  checked := start_accepts size
  threads _ := rfl
  fine _ := ⟨fun _ => rfl, fun _ => rfl, nofun, fun _ f => .inl (by cases f <;> rfl)⟩
  joystick := rfl
  locks := ⟨⟨fun _ _ => ⟨nofun, nofun⟩, nofun⟩, ⟨fun _ _ => ⟨nofun, nofun⟩, nofun⟩, rfl, nofun⟩
  flags := ⟨⟨nofun, fun h => absurd rfl h⟩, nofun, fun h => absurd rfl h, rfl, rfl, nofun⟩
  heap := by
    refine ⟨fun p => ?_, fun p => ⟨nofun, ?_⟩, ⟨nofun, nofun⟩, ⟨nofun, nofun⟩, List.nodup_nil, ?_⟩
    · obtain ⟨o, f⟩ := p
      cases f <;> rfl
    · rintro (h | h) <;> cases h
    · intro b hb p hp
      obtain ⟨b', -, rfl⟩ := List.mem_map.mp hb
      cases hp
  aborted := rfl

/-! ## The views after a step -/

section

variable {v : View} {i : Instr} {φ : Phase} {f f' : SoundFile}

@[simp] theorem setPhase_thread : (v.setPhase φ f).thread = v.thread := by cases f <;> rfl
@[simp] theorem setPhase_audio : (v.setPhase φ f).audio = v.audio := by cases f <;> rfl
@[simp] theorem setPhase_period : (v.setPhase φ f).period = v.period := by cases f <;> rfl
@[simp] theorem setPhase_cleanup : (v.setPhase φ f).cleanup = v.cleanup := by cases f <;> rfl
@[simp] theorem setPhase_running : (v.setPhase φ f).running = v.running := by cases f <;> rfl
@[simp] theorem setPhase_stats : (v.setPhase φ f).stats = v.stats := by cases f <;> rfl

theorem setPhase_phase : (v.setPhase φ f).phase f' = if f' = f then φ else v.phase f' := by
  cases f <;> cases f' <;> rfl

@[simp] theorem next_thread : (v.next i).thread = v.thread := by
  cases i with
  | lock m | unlock m => cases m <;> rfl
  | join t => cases t <;> rfl
  | AudioMixer_readWaveFileIntoMemory p | empty p | freeData p | clear p => exact setPhase_thread
  | _ => rfl

/-- Outside its locks and unlocks a thread stays in its sections. -/
theorem next_sections (hi : i.isSection = false) :
    (v.next i).audio = v.audio ∧ (v.next i).period = v.period := by
  cases i with
  | lock m | unlock m => cases hi
  | join t => cases t <;> exact ⟨rfl, rfl⟩
  | AudioMixer_readWaveFileIntoMemory p | empty p | freeData p | clear p =>
    exact ⟨setPhase_audio, setPhase_period⟩
  | _ => exact ⟨rfl, rfl⟩

theorem next_cleanup (hi : i.isCleanup = false) : (v.next i).cleanup = v.cleanup := by
  cases i with
  | stop | join | destroy | freeBuffer | Period_cleanup => cases hi
  | lock m | unlock m => cases m <;> rfl
  | AudioMixer_readWaveFileIntoMemory p | empty p | freeData p | clear p => exact setPhase_cleanup
  | _ => rfl

theorem next_afterJoin (hallows : v.allows i) (h : v.cleanup.afterJoin) :
    (v.next i).cleanup.afterJoin := by
  cases hi : i.isCleanup with
  | false =>
    rw [next_cleanup hi]
    exact h
  | true =>
    cases i with
    | stop =>
      obtain ⟨-, -, hbefore⟩ := of_decide_eq_true hallows
      rw [hbefore] at h
      cases h
    | join t => cases t <;> first | rfl | exact h
    | destroy | freeBuffer | Period_cleanup => rfl
    | _ => cases hi

/-- A thread begins the shutdown with `stopping`, or by joining another one. -/
theorem next_before (hallows : v.allows i)
    (hi : v.cleanup = .before → i ≠ .stop ∧ ∀ t, i ≠ .join t) :
    (v.next i).cleanup ≠ .before ↔ v.cleanup ≠ .before := by
  cases hcleanup : i.isCleanup with
  | false => rw [next_cleanup hcleanup]
  | true =>
    cases i with
    | stop =>
      obtain ⟨-, -, hbefore⟩ := of_decide_eq_true hallows
      exact absurd rfl (hi hbefore).1
    | join t =>
      have hne : v.cleanup ≠ .before := fun hbefore => (hi hbefore).2 t rfl
      refine iff_of_true ?_ hne
      cases t <;> first | exact hne | nofun
    | destroy | freeBuffer | Period_cleanup =>
      obtain ⟨-, hjoined⟩ := of_decide_eq_true hallows
      rw [hjoined]
      exact iff_of_true nofun nofun
    | _ => cases hcleanup

theorem afterJoin_of_next (hallows : v.allows i) (hjoin : ∀ t, i ≠ .join t)
    (h : (v.next i).cleanup.afterJoin) : v.cleanup.afterJoin := by
  cases hcleanup : i.isCleanup with
  | false =>
    rw [next_cleanup hcleanup] at h
    exact h
  | true =>
    cases i with
    | stop => cases h
    | join t => exact absurd rfl (hjoin t)
    | destroy | freeBuffer | Period_cleanup =>
      obtain ⟨-, hjoined⟩ := of_decide_eq_true hallows
      rw [hjoined]
      rfl
    | _ => cases hcleanup

theorem next_finished (hallows : v.allows i) (hudp : v.thread = .udp) (hi : i ≠ .freeBuffer) :
    (v.next i).cleanup = .finished ↔ v.cleanup = .finished := by
  cases hcleanup : i.isCleanup with
  | false => rw [next_cleanup hcleanup]
  | true =>
    cases i with
    | freeBuffer => exact absurd rfl hi
    | stop =>
      obtain ⟨-, -, hbefore⟩ := of_decide_eq_true hallows
      rw [hbefore]
      exact iff_of_false nofun nofun
    | join t =>
      obtain ⟨-, -, ⟨-, rfl, hstopped⟩ | ⟨hmain, -⟩ | ⟨hmain, -⟩⟩ := of_decide_eq_true hallows
      · rw [hstopped]
        exact iff_of_false nofun nofun
      · cases hudp.symm.trans hmain
      · cases hudp.symm.trans hmain
    | destroy =>
      obtain ⟨-, hjoined⟩ := of_decide_eq_true hallows
      rw [hjoined]
      exact iff_of_false nofun nofun
    | Period_cleanup =>
      obtain ⟨hmain, -⟩ := of_decide_eq_true hallows
      cases hudp.symm.trans hmain
    | _ => cases hcleanup

theorem next_stats (hi : i ≠ .freeStats) : (v.next i).stats = v.stats := by
  cases i with
  | freeStats => exact absurd rfl hi
  | lock m | unlock m => cases m <;> rfl
  | join t => cases t <;> rfl
  | AudioMixer_readWaveFileIntoMemory p | empty p | freeData p | clear p => exact setPhase_stats
  | _ => rfl

theorem next_phase (hi : i.sets = none) (f : SoundFile) : (v.next i).phase f = v.phase f := by
  cases i with
  | AudioMixer_readWaveFileIntoMemory p | empty p | freeData p | clear p => cases hi
  | lock m | unlock m => cases m <;> rfl
  | join t => cases t <;> rfl
  | _ => rfl

/-- What is done to a sound is done by its thread, one thing after the other. -/
theorem next_sets {p : Sound} (hallows : v.allows i) (hi : i.sets = some (p, φ)) :
    threadOf p = v.thread ∧ v.next i = v.setPhase φ p.2 ∧
      (v.phase p.2 = .unread ∧ φ = .read ∨ v.phase p.2 = .read ∧ φ = .emptied ∨
        v.phase p.2 = .emptied ∧ φ = .freed ∧ i = .freeData p ∨
        v.phase p.2 = .freed ∧ φ = .cleared) := by
  cases i with
  | AudioMixer_readWaveFileIntoMemory q =>
    cases hi
    obtain ⟨hthread, hphase⟩ := of_decide_eq_true hallows
    exact ⟨hthread, rfl, .inl ⟨hphase, rfl⟩⟩
  | empty q =>
    cases hi
    obtain ⟨hthread, hphase, -⟩ := of_decide_eq_true hallows
    exact ⟨hthread, rfl, .inr (.inl ⟨hphase, rfl⟩)⟩
  | freeData q =>
    cases hi
    obtain ⟨hthread, hphase⟩ := of_decide_eq_true hallows
    exact ⟨hthread, rfl, .inr (.inr (.inl ⟨hphase, rfl, rfl⟩))⟩
  | clear q =>
    cases hi
    obtain ⟨hthread, hphase⟩ := of_decide_eq_true hallows
    exact ⟨hthread, rfl, .inr (.inr (.inr ⟨hphase, rfl⟩))⟩
  | _ => cases hi

theorem next_running (hi : i ≠ .stopUdp) (hi' : i ≠ .stopJoystick) :
    (v.next i).running = v.running := by
  cases i with
  | stopUdp => exact absurd rfl hi
  | stopJoystick => exact absurd rfl hi'
  | lock m | unlock m => cases m <;> rfl
  | join t => cases t <;> rfl
  | AudioMixer_readWaveFileIntoMemory p | empty p | freeData p | clear p => exact setPhase_running
  | _ => rfl

/-- A thread that begins or goes on with the shutdown is not in a section. -/
theorem cleanup_outside (hallows : v.allows i) (h : v.Fine) (hi : i.isCleanup = true) :
    v.audio = false := by
  cases i with
  | stop =>
    obtain ⟨-, haudio, -⟩ := of_decide_eq_true hallows
    exact haudio
  | join t =>
    obtain ⟨haudio, -⟩ := of_decide_eq_true hallows
    exact haudio
  | destroy | freeBuffer | Period_cleanup =>
    obtain ⟨-, hcleanup⟩ := of_decide_eq_true hallows
    exact h.leaving (by rw [hcleanup]; decide)
  | _ => cases hi

/-- The joystick thread has nothing but the controls to do with. -/
theorem joystick_next (hallows : (View.new .joystick).allows i) :
    (View.new .joystick).next i = View.new .joystick := by
  have hnot : ∀ p, threadOf p ≠ .joystick := by
    intro p
    obtain ⟨o, f⟩ := p
    cases o <;> nofun
  cases i with
  | AudioMixer_readWaveFileIntoMemory p | empty p | freeData p | clear p =>
    obtain ⟨howner, -⟩ := of_decide_eq_true hallows
    exact absurd howner (hnot p)
  | lock m | unlock m => cases m <;> cases hallows
  | join t => cases t <;> cases hallows
  | freeStats | stop | destroy | freeBuffer | stopUdp | stopJoystick | Period_cleanup => cases hallows
  | _ => rfl

theorem next_sounds (hallows : v.allows i) (h : v.Fine) (hudp : v.thread = .udp) (f : SoundFile) :
    (v.next i).phase f = .unread ∨ (v.next i).phase f = .read ∨ (v.next i).cleanup = .finished := by
  have hfinished : v.cleanup = .finished → (v.next i).cleanup = .finished := by
    intro hcleanup
    by_cases hi : i = .freeBuffer
    · subst hi
      rfl
    · exact (next_finished hallows hudp hi).mpr hcleanup
  cases hi : i.sets with
  | none =>
    rw [next_phase hi]
    exact (h.sounds hudp f).imp id (Or.imp id hfinished)
  | some set =>
    obtain ⟨p, φ⟩ := set
    obtain ⟨-, hnext, hphase⟩ := next_sets hallows hi
    by_cases heq : f = p.2
    · subst heq
      have hdone : v.phase p.2 = .emptied ∨ v.phase p.2 = .freed → v.cleanup = .finished := by
        intro hp
        rcases h.sounds hudp p.2 with hf | hf | hf
        · rw [hf] at hp
          rcases hp with hp | hp <;> cases hp
        · rw [hf] at hp
          rcases hp with hp | hp <;> cases hp
        · exact hf
      rcases hphase with ⟨-, rfl⟩ | ⟨-, rfl⟩ | ⟨hp, -⟩ | ⟨hp, -⟩
      · rw [hnext, setPhase_phase, if_pos rfl]
        exact .inr (.inl rfl)
      · cases i with
        | empty q =>
          obtain ⟨-, -, -, hcleanup⟩ := of_decide_eq_true hallows
          exact .inr (.inr (hfinished (hcleanup hudp)))
        | _ => cases hi
      · exact .inr (.inr (hfinished (hdone (.inl hp))))
      · exact .inr (.inr (hfinished (hdone (.inr hp))))
    · have hother : (v.next i).phase f = v.phase f := by
        rw [hnext, setPhase_phase, if_neg heq]
      rw [hother]
      exact (h.sounds hudp f).imp id (Or.imp id hfinished)

theorem next_fine (hallows : v.allows i) (h : v.Fine) : (v.next i).Fine := by
  have hsounds : (v.next i).thread = .udp → ∀ f, (v.next i).phase f = .unread ∨
      (v.next i).phase f = .read ∨ (v.next i).cleanup = .finished :=
    fun hudp => next_sounds hallows h (next_thread.symm.trans hudp)
  cases hsection : i.isSection with
  | false =>
    obtain ⟨haudio, hperiod⟩ := next_sections (v := v) hsection
    refine ⟨fun hne => ?_, fun hthread => ?_, fun hlocked => ?_, hsounds⟩
    · rw [haudio]
      cases hi : i.isCleanup with
      | true => exact cleanup_outside hallows h hi
      | false => exact h.leaving (by rw [← next_cleanup hi]; exact hne)
    · rw [haudio]
      exact h.joystick (by rw [← next_thread (i := i)]; exact hthread)
    · rw [next_thread]
      exact h.period (hperiod.symm.trans hlocked)
  | true =>
    cases i with
    | lock m =>
      cases m with
      | audioMutex =>
        obtain ⟨-, -, hbefore, hthread⟩ := of_decide_eq_true hallows
        exact ⟨fun hne => absurd hbefore hne, fun h => absurd h hthread, h.period, hsounds⟩
      | s_lock =>
        exact ⟨h.leaving, h.joystick, fun _ => (of_decide_eq_true hallows).1, hsounds⟩
    | unlock m =>
      cases m with
      | audioMutex => exact ⟨fun _ => rfl, fun _ => rfl, h.period, hsounds⟩
      | s_lock => exact ⟨h.leaving, h.joystick, nofun, hsounds⟩
    | _ => cases hsection

end

end AudioThreads
