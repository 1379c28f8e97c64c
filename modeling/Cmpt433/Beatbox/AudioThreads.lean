import Cmpt433.Lib.Blocks
import Cmpt433.Lib.Mutex
import Cmpt433.Lib.Runs
import Cmpt433.Mixer.Sections
import Cmpt433.Beatbox.UdpListener

/-!
# The threads of the beat box (`work/pcmExample`)

What `main`, `playbackThread`, `udpListenThread` and `joystickThread` have still to run is a list of
instructions.  A call is replaced by its body, a loop by one pass of it and the loop.  In
`AudioMixer_queueSound` and `fillPlaybackBuffer` every access is a step of its own.

* `exec` — one instruction, `none` while the thread has to wait in it.
* `step` — one step of a thread, or the end of the cancelled joystick thread.
* `finished` — the calls of the two functions that return in a run.

The threads have been created, and what `AudioMixer_init` allocates is there.  The mode that `main`
reads, the clock and the datagrams are in the label; what the threads do with the controls is in
`Cmpt433.Beatbox.Threads`.  A failed `assert` ends the program; the `exit` after a
`snd_pcm_writei` that cannot be recovered is left out.
-/

set_option autoImplicit false

namespace AudioThreads

open Beatbox Mixer UdpListener Pthread

inductive Thread where
  | main
  | playback
  | udp
  | joystick
  deriving DecidableEq

inductive MutexId where
  | audioMutex
  /-- the lock of `periodTimer.c` -/
  | s_lock
  deriving DecidableEq

inductive Block where
  | pData (p : Sound)
  | playbackBuffer
  | pStats
  deriving DecidableEq

/-- What has been done to a `wavedata_t`. -/
inductive Phase where
  | unread
  | read
  /-- `numSamples` is 0 -/
  | emptied
  /-- `pData` is freed -/
  | freed
  /-- `pData` is `NULL` -/
  | cleared
  deriving DecidableEq

/-- The samples of a wave file, at least one. -/
structure WaveFile where
  numSamples : Nat
  pData : Fin numSamples → Int16
  pos : 0 < numSamples

def WaveFile.data (w : WaveFile) : wavedata_t := ⟨w.numSamples, some w.pData⟩

/-- What the threads share, without the controls. -/
structure Shared where
  audio : Audio Sound
  phase : Sound → Phase
  blocks : Blocks Thread Block
  mutex : MutexId → Mutex Thread
  stopping : Bool
  /-- `running` of `udpListener.c` -/
  udpRunning : Bool
  /-- `running` of `joystickInput.c` -/
  joystickRunning : Bool
  joystickCancelled : Bool
  s_initialized : Bool
  /-- An `assert` has failed. -/
  aborted : Bool

/-- The fields of a sound as they are now. -/
def Shared.sound (contents : Sound → WaveFile) (sh : Shared) (p : Sound) : wavedata_t :=
  match sh.phase p with
  | .unread | .cleared => ⟨0, none⟩
  | .read => (contents p).data
  | .emptied | .freed => ⟨0, some fun j => j.elim0⟩

inductive Instr where
  | AudioMixer_readWaveFileIntoMemory (p : Sound)
  | lock (m : MutexId)
  | unlock (m : MutexId)
  /-- `assert (s_initialized)` -/
  | assertInitialized
  | AudioMixer_queueSound (p : Sound)
  | fillPlaybackBuffer
  /-- in one of the two functions -/
  | at (l : Point Sound)
  /-- `getTimeInMs() >= currentTime + 1000` -/
  | ifDue
  | useStats
  | writei
  | freeStats
  | sleepForMs
  | sendto
  /-- `isDirectionPressed` and what the direction does to the controls -/
  | poll
  /-- `while (!stopping)` of `main` -/
  | mainLoop
  /-- `while (!stopping)` of `playbackThread` -/
  | playbackLoop
  /-- `while (running)` of `udpListenThread` -/
  | udpLoop
  /-- `while (running)` of `joystickThread` -/
  | joystickLoop
  /-- `stopping = true` -/
  | stop
  | join (t : Thread)
  /-- `pthread_mutex_destroy(&audioMutex)` -/
  | destroy
  | freeBuffer
  /-- `pSound->numSamples = 0` -/
  | empty (p : Sound)
  /-- `free(pSound->pData)` -/
  | freeData (p : Sound)
  /-- `pSound->pData = NULL` -/
  | clear (p : Sound)
  /-- `running = 0` of `handleRequest` -/
  | stopUdp
  /-- `running = 0` of `joystick_shutdown` -/
  | stopJoystick
  | cancelJoystick
  | Period_cleanup
  deriving DecidableEq

/-! ## The functions -/

/-- The three files, in the order in which they are read and freed. -/
def files (o : Owner) : List Sound := [(o, .baseDrumFile), (o, .hiHatFile), (o, .snareFile)]

def AudioMixer_freeWaveFileData (p : Sound) : List Instr := [.empty p, .freeData p, .clear p]

/-- A section of a drum pattern, and the sleep after it. -/
def beat (fs : List SoundFile) : List Instr :=
  .lock .audioMutex :: fs.map (fun f => .AudioMixer_queueSound (.beatbox, f)) ++
    [.unlock .audioMutex, .sleepForMs]

def randomBeat : List Instr :=
  beat [.baseDrumFile] ++ beat [.hiHatFile, .snareFile] ++ beat [.baseDrumFile] ++
    beat [.baseDrumFile] ++ beat [.hiHatFile, .snareFile]

def rockBeat : List Instr :=
  beat [.hiHatFile, .baseDrumFile] ++ beat [.hiHatFile] ++ beat [.hiHatFile, .snareFile] ++
    beat [.hiHatFile]

def playBeat (currentMode : Int) : List Instr :=
  if currentMode = beatMode.ROCK.value then rockBeat
  else if currentMode = beatMode.NONE.value then [.sleepForMs]
  else randomBeat

/-- `main` after its loop. -/
def mainEnd : List Instr :=
  (files .beatbox).flatMap AudioMixer_freeWaveFileData ++
    [.stopJoystick, .cancelJoystick, .join .udp, .join .joystick, .Period_cleanup]

def Period_markEvent : List Instr := [.assertInitialized, .lock .s_lock, .unlock .s_lock]

def Period_getStatisticsAndClear : List Instr :=
  [.assertInitialized, .lock .s_lock, .useStats, .unlock .s_lock]

/-- One pass of the loop of `playbackThread`. -/
def playbackPass : List Instr :=
  .lock .audioMutex :: Period_markEvent ++
    [.fillPlaybackBuffer, .ifDue, .writei, .unlock .audioMutex]

def AudioMixer_cleanup : List Instr := [.stop, .join .playback, .destroy, .freeBuffer]

def soundRequest (f : SoundFile) : List Instr :=
  [.lock .audioMutex, .AudioMixer_queueSound (.udpListener, f), .unlock .audioMutex]

/-- `none` is an unknown command. -/
def handleRequest : Option UdpListener.Command → List Instr
  | some .base => soundRequest .baseDrumFile
  | some .hihat => soundRequest .hiHatFile
  | some .snare => soundRequest .snareFile
  | some .terminate =>
    AudioMixer_cleanup ++ (files .udpListener).flatMap AudioMixer_freeWaveFileData ++ [.stopUdp]
  | some (.control _) | none => []

/-! ## The machine -/

/-- What a step reads from elsewhere: the mode, the clock, the command in a datagram. -/
structure Input where
  currentMode : Int
  due : Bool
  request : Option UdpListener.Command

structure State where
  shared : Shared
  prog : Thread → List Instr

inductive Label where
  | go (t : Thread) (inp : Input)
  /-- The cancelled joystick thread ends. -/
  | dies

def Shared.setMutex (sh : Shared) (m : MutexId) (mutex : Mutex Thread) : Shared :=
  { sh with mutex := Function.update sh.mutex m mutex }

def Shared.setPhase (sh : Shared) (p : Sound) (φ : Phase) : Shared :=
  { sh with phase := Function.update sh.phase p φ }

def Shared.abort (sh : Shared) : Shared := { sh with aborted := true }

/-- Thread `t` uses the blocks. -/
def Shared.use (t : Thread) (bs : List Block) (sh : Shared) : Shared :=
  { sh with blocks := bs.foldl (fun h b => h.use t b) sh.blocks }

/-- The blocks that an access reads or writes. -/
def uses (m : Table Sound) : Point Sound → List Block
  | .clear _ => [.playbackBuffer]
  | .add _ i _ _ _ _ =>
    .playbackBuffer :: ((m.soundBites[i]?.bind fun b => b.pSound).map Block.pData).toList
  | _ => []

section

variable (playbackBufferSize : Nat) (contents : Sound → WaveFile)

/-- One access in one of the two functions, and what is left of it. -/
def access (t : Thread) (l : Point Sound) (sh : Shared) : Shared × List Instr :=
  let r := l.go (fun p => (contents p).data) (sh.sound contents) sh.audio
  ({ sh.use t (uses sh.audio.table l) with audio := r.1 }, r.2.toList.map .at)

/-- One instruction of thread `t`, and what replaces it; `none` while the thread has to wait. -/
def exec (t : Thread) (inp : Input) (ended : Thread → Bool) (sh : Shared) :
    Instr → Option (Shared × List Instr)
  | .AudioMixer_readWaveFileIntoMemory p => some (sh.setPhase p .read, [])
  | .lock m =>
    (pthread_mutex_lock t (sh.mutex m)).map fun mutex => (sh.setMutex m mutex, [])
  | .unlock m => some (sh.setMutex m (pthread_mutex_unlock t (sh.mutex m)), [])
  | .assertInitialized => some (if sh.s_initialized then sh else sh.abort, [])
  | .AudioMixer_queueSound p =>
    if 0 < (sh.sound contents p).numSamples ∧ (sh.sound contents p).pData.isSome then
      some (sh, [.at (Op.queue p).enter])
    else some (sh.abort, [])
  | .fillPlaybackBuffer => some (sh, [.at (Op.fill playbackBufferSize).enter])
  | .at l => some (access contents t l sh)
  | .ifDue => some (sh, if inp.due then Period_getStatisticsAndClear ++ [.useStats] else [])
  | .useStats => some (sh.use t [.pStats], [])
  | .writei => some (sh.use t [.playbackBuffer], [])
  | .freeStats => some ({ sh with blocks := sh.blocks.free .pStats }, [])
  | .sleepForMs | .sendto | .poll => some (sh, [])
  | .mainLoop =>
    some (sh, if sh.stopping then mainEnd else playBeat inp.currentMode ++ [.mainLoop])
  | .playbackLoop =>
    some (sh, if sh.stopping then [.freeStats] else playbackPass ++ [.playbackLoop])
  | .udpLoop =>
    some (sh, if sh.udpRunning then handleRequest inp.request ++ [.sendto, .udpLoop] else [])
  | .joystickLoop =>
    some (sh, if sh.joystickRunning then [.poll, .sleepForMs, .joystickLoop] else [])
  | .stop => some ({ sh with stopping := true }, [])
  | .join t' => if ended t' then some (sh, []) else none
  | .destroy => some (sh.setMutex .audioMutex (pthread_mutex_destroy (sh.mutex .audioMutex)), [])
  | .freeBuffer => some ({ sh with blocks := sh.blocks.free .playbackBuffer }, [])
  | .empty p => some (sh.setPhase p .emptied, [])
  | .freeData p => some ({ sh.setPhase p .freed with blocks := sh.blocks.free (.pData p) }, [])
  | .clear p => some (sh.setPhase p .cleared, [])
  | .stopUdp => some ({ sh with udpRunning := false }, [])
  | .stopJoystick => some ({ sh with joystickRunning := false }, [])
  | .cancelJoystick => some ({ sh with joystickCancelled := true }, [])
  | .Period_cleanup => some ({ sh with s_initialized := false }, [])

def State.ended (s : State) (t : Thread) : Bool := (s.prog t).isEmpty

/-- The joystick thread is in a call that `pthread_cancel` ends. -/
def State.atCancellationPoint (s : State) : Bool :=
  match s.prog .joystick with
  | .poll :: _ | .sleepForMs :: _ => true
  | _ => false

/-- One step.  Where the thread has ended, or has to wait, nothing changes. -/
def step (s : State) (l : Label) : State :=
  if s.shared.aborted then s
  else match l with
    | .go t inp =>
      match s.prog t with
      | [] => s
      | i :: rest =>
        match exec playbackBufferSize contents t inp s.ended s.shared i with
        | none => s
        | some (sh, is) => { shared := sh, prog := Function.update s.prog t (is ++ rest) }
    | .dies =>
      if s.shared.joystickCancelled ∧ s.atCancellationPoint then
        { s with prog := Function.update s.prog .joystick [] }
      else s

/-- The program point of a thread that is in one of the two functions. -/
def inside (s : State) (t : Thread) : Option (Point Sound) :=
  match s.prog t with
  | .at l :: _ => some l
  | _ => none

/-- Between lock and unlock of `audioMutex`: of the two, the unlock comes next. -/
def inSection : List Instr → Bool
  | [] => false
  | .lock .audioMutex :: _ => false
  | .unlock .audioMutex :: _ => true
  | _ :: rest => inSection rest

/-- The call that returns in a step. -/
def finished (s : State) (l : Label) : List (Op Sound) :=
  if s.shared.aborted then []
  else match l with
    | .go t _ =>
      match inside s t with
      | none => []
      | some l =>
        match (access contents t l s.shared).2 with
        | [] => [l.op]
        | _ :: _ => []
    | .dies => []

/-! ## What an instruction does -/

/-- What is done to a sound. -/
def Instr.sets : Instr → Option (Sound × Phase)
  | .AudioMixer_readWaveFileIntoMemory p => some (p, .read)
  | .empty p => some (p, .emptied)
  | .freeData p => some (p, .freed)
  | .clear p => some (p, .cleared)
  | _ => none

def Instr.frees : Instr → Option Block
  | .freeStats => some .pStats
  | .freeBuffer => some .playbackBuffer
  | .freeData p => some (.pData p)
  | _ => none

/-- What an instruction does to all but the mutexes. -/
structure Effect (i : Instr) (sh sh' : Shared) : Prop where
  stopping : sh'.stopping = (decide (i = .stop) || sh.stopping)
  udpRunning : sh'.udpRunning = (decide (i ≠ .stopUdp) && sh.udpRunning)
  joystickRunning : sh'.joystickRunning = (decide (i ≠ .stopJoystick) && sh.joystickRunning)
  s_initialized : sh'.s_initialized = (decide (i ≠ .Period_cleanup) && sh.s_initialized)
  phase : sh'.phase = i.sets.elim sh.phase fun set => Function.update sh.phase set.1 set.2
  freed : sh'.blocks.freed = i.frees.toList ++ sh.blocks.freed
  audio : (∀ l, i ≠ .at l) → sh'.audio = sh.audio

theorem foldl_use_freed (t : Thread) (bs : List Block) (h : Blocks Thread Block) :
    (bs.foldl (fun h b => h.use t b) h).freed = h.freed := by
  induction bs generalizing h with
  | nil => rfl
  | cons b bs ih =>
    rw [List.foldl_cons, ih]
    unfold Blocks.use
    split <;> rfl

theorem exec_effect {playbackBufferSize : Nat} {contents : Sound → WaveFile} {t : Thread}
    {inp : Input} {ended : Thread → Bool} {sh sh' : Shared} {i : Instr} {is : List Instr}
    (h : exec playbackBufferSize contents t inp ended sh i = some (sh', is)) :
    Effect i sh sh' := by
  cases i with
  | lock m =>
    obtain ⟨mutex, -, heq⟩ := Option.map_eq_some_iff.mp h
    cases heq
    exact ⟨rfl, rfl, rfl, rfl, rfl, rfl, fun _ => rfl⟩
  | join t' =>
    simp only [exec] at h
    split at h <;> cases h
    exact ⟨rfl, rfl, rfl, rfl, rfl, rfl, fun _ => rfl⟩
  | AudioMixer_queueSound p =>
    simp only [exec] at h
    split at h <;> cases h <;> exact ⟨rfl, rfl, rfl, rfl, rfl, rfl, fun _ => rfl⟩
  | assertInitialized =>
    cases h
    split <;> exact ⟨rfl, rfl, rfl, rfl, rfl, rfl, fun _ => rfl⟩
  | «at» l =>
    cases h
    exact ⟨rfl, rfl, rfl, rfl, rfl, foldl_use_freed t _ _, fun hne => absurd rfl (hne l)⟩
  | useStats | writei =>
    cases h
    exact ⟨rfl, rfl, rfl, rfl, rfl, foldl_use_freed t _ _, fun _ => rfl⟩
  | _ =>
    cases h
    exact ⟨rfl, rfl, rfl, rfl, rfl, rfl, fun _ => rfl⟩

/-- **What a step can do.** -/
theorem step_cases (s : State) (l : Label) :
    (step playbackBufferSize contents s l = s ∧ finished contents s l = []) ∨
    (∃ t inp i rest sh is, l = .go t inp ∧ s.shared.aborted = false ∧ s.prog t = i :: rest ∧
      exec playbackBufferSize contents t inp s.ended s.shared i = some (sh, is) ∧
      step playbackBufferSize contents s l =
        { shared := sh, prog := Function.update s.prog t (is ++ rest) }) ∨
    (l = .dies ∧ s.shared.joystickCancelled = true ∧ s.atCancellationPoint = true ∧
      step playbackBufferSize contents s l =
        { s with prog := Function.update s.prog .joystick [] }) := by
  unfold step finished
  cases haborted : s.shared.aborted with
  | true => exact .inl ⟨rfl, rfl⟩
  | false =>
    cases l with
    | dies =>
      by_cases hdies : s.shared.joystickCancelled = true ∧ s.atCancellationPoint = true
      · exact .inr (.inr ⟨rfl, hdies.1, hdies.2, if_pos hdies⟩)
      · exact .inl ⟨if_neg hdies, rfl⟩
    | go t inp =>
      cases hprog : s.prog t with
      | nil => exact .inl ⟨by simp [hprog], by simp [inside, hprog]⟩
      | cons i rest =>
        cases hexec : exec playbackBufferSize contents t inp s.ended s.shared i with
        | none =>
          refine .inl ⟨by simp [hprog, hexec], ?_⟩
          have hinside : inside s t = none := by
            unfold inside
            rw [hprog]
            cases i with
            | «at» l => cases hexec
            | _ => rfl
          simp [hinside]
        | some r =>
          exact .inr (.inl ⟨t, inp, i, rest, r.1, r.2, rfl, rfl, hprog, hexec,
            by simp [hprog, hexec]⟩)

def start : State where
  shared := {
    audio := ⟨Mixer.AudioMixer_init statics, List.replicate playbackBufferSize 0⟩
    phase := fun _ => .unread
    blocks := .empty
    mutex := fun _ => ⟨none, false⟩
    stopping := false
    udpRunning := true
    joystickRunning := true
    joystickCancelled := false
    s_initialized := true
    aborted := false }
  prog
    | .main => (files .beatbox).map .AudioMixer_readWaveFileIntoMemory ++ [.mainLoop]
    | .playback => [.playbackLoop]
    | .udp => (files .udpListener).map .AudioMixer_readWaveFileIntoMemory ++ [.udpLoop]
    | .joystick => [.joystickLoop]

end

end AudioThreads
