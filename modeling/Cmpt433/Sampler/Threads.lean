import Cmpt433.Lib.Blocks
import Cmpt433.Lib.Runs

/-!
# The threads of the light sampler (`work/as2`)

Each thread is at a point of its program; a point has an instruction (`instr`) and a next point.
A test on data that is not modelled (the time, a reading, a loop bound) is decided by the label.

* `SamplerPc` — `samplerThread` with `Sampler_setHistorySize`.
* `UdpPc` — `udpListenThread` and `handleRequest`; a request that repeats the last one is a
  request like any other.
* `LedPc` — `ledThread` with `Sampler_getNumDips`.
* `ShutdownPc` — `Sampler_shutdownRoutine`, called by the request `stop` and by the handler of
  SIGINT, which runs on top of whatever the interrupted thread was doing.

The arrays that `recent` points to are numbered in the order of their allocation; `free` does not
change the pointer.  A cancelled thread ends at a cancellation point and keeps its mutexes.  A
destroyed mutex excludes nobody, and a mutex that is held is not destroyed.
-/

set_option autoImplicit false

namespace Threads

inductive Thread where
  | main
  | sampler
  | udp
  | led
  deriving DecidableEq

inductive MutexId where
  | historyMutex
  | dipMutex
  deriving DecidableEq

/-- The blocks that the routines free: one array for each allocation of `recent`, and `pStats`. -/
inductive Block where
  | recent (array : Nat)
  | pStats
  deriving DecidableEq

structure Mutex where
  owner : Option Thread
  destroyed : Bool
  deriving DecidableEq

def pthread_mutex_lock (t : Thread) (m : Mutex) : Option Mutex :=
  if m.destroyed then some m
  else if m.owner = none then some { m with owner := some t }
  else none

def pthread_mutex_unlock (t : Thread) (m : Mutex) : Mutex :=
  if m.owner = some t then { m with owner := none } else m

def pthread_mutex_destroy (m : Mutex) : Mutex :=
  if m.owner = none then { m with destroyed := true } else m

/-- What the threads share.  `ledRunning` is the flag `running` of `led_display.c`, `handlerSet`
says that `signal` has been called. -/
structure Shared where
  recent : Option Nat
  mallocs : Nat
  pStats : Bool
  blocks : Blocks Thread Block
  running : Bool
  ledRunning : Bool
  handlerSet : Bool
  mutex : MutexId → Mutex
  cancelled : List Thread

inductive Instr where
  | nop
  | lock (m : MutexId)
  | unlock (m : MutexId)
  | destroy (m : MutexId)
  | mallocRecent
  | mallocStats
  | useRecent
  | use (array : Option Nat)
  | useStats
  | freeRecent
  | freeStats
  | signal
  | stopRunning
  | stopLed
  | cancel (t : Thread)
  deriving DecidableEq

def Shared.useArray (t : Thread) (array : Option Nat) (sh : Shared) : Shared :=
  match array with
  | some a => { sh with blocks := sh.blocks.use t (.recent a) }
  | none => sh

/-- One instruction of thread `t`; `none` while it has to wait. -/
def exec (t : Thread) : Instr → Shared → Option Shared
  | .nop, sh => some sh
  | .lock m, sh => (pthread_mutex_lock t (sh.mutex m)).map fun mutex =>
      { sh with mutex := Function.update sh.mutex m mutex }
  | .unlock m, sh => some { sh with
      mutex := Function.update sh.mutex m (pthread_mutex_unlock t (sh.mutex m)) }
  | .destroy m, sh => some { sh with
      mutex := Function.update sh.mutex m (pthread_mutex_destroy (sh.mutex m)) }
  | .mallocRecent, sh => some { sh with recent := some sh.mallocs, mallocs := sh.mallocs + 1 }
  | .mallocStats, sh => some { sh with pStats := true }
  | .useRecent, sh => some (sh.useArray t sh.recent)
  | .use array, sh => some (sh.useArray t array)
  | .useStats, sh => some (if sh.pStats then { sh with blocks := sh.blocks.use t .pStats } else sh)
  | .freeRecent, sh => some (match sh.recent with
      | some a => { sh with blocks := sh.blocks.free (.recent a) }
      | none => sh)
  | .freeStats, sh => some (if sh.pStats then { sh with blocks := sh.blocks.free .pStats } else sh)
  | .signal, sh => some { sh with handlerSet := true }
  | .stopRunning, sh => some { sh with running := false }
  | .stopLed, sh => some { sh with ledRunning := false }
  | .cancel t', sh => some { sh with cancelled := t' :: sh.cancelled }

/-! ## The programs -/

/-- `Sampler_shutdownRoutine` -/
inductive ShutdownPc where
  | lock
  | stopRunning
  | sleep
  | freeRecent
  | freeStats
  | unlock
  | stopLed
  | cancelLed
  | cancelSampling
  | destroy
  deriving DecidableEq

def ShutdownPc.instr : ShutdownPc → Instr
  | .lock => .lock .historyMutex
  | .stopRunning => .stopRunning
  | .sleep => .nop
  | .freeRecent => .freeRecent
  | .freeStats => .freeStats
  | .unlock => .unlock .historyMutex
  | .stopLed => .stopLed
  | .cancelLed => .cancel .led
  | .cancelSampling => .cancel .sampler
  | .destroy => .destroy .historyMutex

/-- `none`: the routine returns. -/
def ShutdownPc.next : ShutdownPc → Option ShutdownPc
  | .lock => some .stopRunning
  | .stopRunning => some .sleep
  | .sleep => some .freeRecent
  | .freeRecent => some .freeStats
  | .freeStats => some .unlock
  | .unlock => some .stopLed
  | .stopLed => some .cancelLed
  | .cancelLed => some .cancelSampling
  | .cancelSampling => some .destroy
  | .destroy => none

/-- `samplerThread` -/
inductive SamplerPc where
  | mallocRecent
  /-- `recent[i] = 0` -/
  | zero
  | mallocStats
  /-- `while (running)` -/
  | head
  /-- `signal` and the reading -/
  | body
  | dipLock
  | dipCount
  | dipUnlock
  /-- `recent[recentIndex] = voltage` -/
  | store
  /-- `getTimeInMs() >= currentTime + 1000` -/
  | tick
  | newSize
  | resizeLock
  /-- an element of the old array -/
  | resizeRead
  | resizeFree
  /-- `recent = temp` -/
  | resizeAssign
  | resizeUnlock
  | reportLock
  | reportDipLock
  | reportDips
  | reportDipUnlock
  /-- a field of `pStats` -/
  | reportStats
  | reportUnlock
  /-- an element of the list printed every second -/
  | listing
  | sleep
  | done
  deriving DecidableEq

def SamplerPc.instr : SamplerPc → Instr
  | .mallocRecent => .mallocRecent
  | .zero => .useRecent
  | .mallocStats => .mallocStats
  | .head => .nop
  | .body => .signal
  | .dipLock => .lock .dipMutex
  | .dipCount => .nop
  | .dipUnlock => .unlock .dipMutex
  | .store => .useRecent
  | .tick => .nop
  | .newSize => .nop
  | .resizeLock => .lock .historyMutex
  | .resizeRead => .useRecent
  | .resizeFree => .freeRecent
  | .resizeAssign => .mallocRecent
  | .resizeUnlock => .unlock .historyMutex
  | .reportLock => .lock .historyMutex
  | .reportDipLock => .lock .dipMutex
  | .reportDips => .nop
  | .reportDipUnlock => .unlock .dipMutex
  | .reportStats => .useStats
  | .reportUnlock => .unlock .historyMutex
  | .listing => .useRecent
  | .sleep => .nop
  | .done => .nop

def SamplerPc.next (running c : Bool) : SamplerPc → SamplerPc
  | .mallocRecent => .zero
  | .zero => if c then .zero else .mallocStats
  | .mallocStats => .head
  | .head => if running then .body else .done
  | .body => if c then .dipLock else .store
  | .dipLock => .dipCount
  | .dipCount => .dipUnlock
  | .dipUnlock => .store
  | .store => .tick
  | .tick => if c then .newSize else .sleep
  | .newSize => if c then .resizeLock else .reportLock
  | .resizeLock => .resizeRead
  | .resizeRead => if c then .resizeRead else .resizeFree
  | .resizeFree => .resizeAssign
  | .resizeAssign => .resizeUnlock
  | .resizeUnlock => .reportLock
  | .reportLock => .reportDipLock
  | .reportDipLock => .reportDips
  | .reportDips => .reportDipUnlock
  | .reportDipUnlock => .reportStats
  | .reportStats => if c then .reportStats else .reportUnlock
  | .reportUnlock => .listing
  | .listing => if c then .listing else .sleep
  | .sleep => .head
  | .done => .done

inductive Request where
  | get
  | history
  | dips
  | stop
  | other
  deriving DecidableEq

/-- `udpListenThread`; an array taken from `recent` is part of the point. -/
inductive UdpPc where
  | recvfrom
  /-- the loop of `Sampler_get_N`, before it evaluates `recent` -/
  | getLoad
  | getUse (array : Option Nat)
  | histLock
  /-- `ret = recent` -/
  | histLoad
  | histUnlock (array : Option Nat)
  /-- the loops of `sendNumList` -/
  | histTest (array : Option Nat)
  | histUse (array : Option Nat)
  | dipLock
  | dipRead
  | dipUnlock
  | stop (pc : ShutdownPc)
  | done
  deriving DecidableEq

def UdpPc.instr : UdpPc → Instr
  | .recvfrom => .nop
  | .getLoad => .nop
  | .getUse array => .use array
  | .histLock => .lock .historyMutex
  | .histLoad => .nop
  | .histUnlock _ => .unlock .historyMutex
  | .histTest _ => .nop
  | .histUse array => .use array
  | .dipLock => .lock .dipMutex
  | .dipRead => .nop
  | .dipUnlock => .unlock .dipMutex
  | .stop pc => pc.instr
  | .done => .nop

/-- `recent` is the value of the pointer.  After `stop` the thread's own `running` is 0, and its
loop ends. -/
def UdpPc.next (recent : Option Nat) (c : Bool) : UdpPc → UdpPc
  | .recvfrom => .recvfrom
  | .getLoad => if c then .getUse recent else .recvfrom
  | .getUse _ => .getLoad
  | .histLock => .histLoad
  | .histLoad => .histUnlock recent
  | .histUnlock array => .histTest array
  | .histTest array => if c then .histUse array else .recvfrom
  | .histUse array => .histTest array
  | .dipLock => .dipRead
  | .dipRead => .dipUnlock
  | .dipUnlock => .recvfrom
  | .stop pc => pc.next.elim .done .stop
  | .done => .done

/-- The branch of `handleRequest`. -/
def Request.start : Request → UdpPc
  | .get => .getLoad
  | .history => .histLock
  | .dips => .dipLock
  | .stop => .stop .lock
  | .other => .recvfrom

/-- `ledThread` -/
inductive LedPc where
  /-- `while (running)` -/
  | head
  | dipLock
  | dipRead
  | dipUnlock
  | displayNum
  | done
  deriving DecidableEq

def LedPc.instr : LedPc → Instr
  | .head => .nop
  | .dipLock => .lock .dipMutex
  | .dipRead => .nop
  | .dipUnlock => .unlock .dipMutex
  | .displayNum => .nop
  | .done => .nop

def LedPc.next (ledRunning : Bool) : LedPc → LedPc
  | .head => if ledRunning then .dipLock else .done
  | .dipLock => .dipRead
  | .dipRead => .dipUnlock
  | .dipUnlock => .displayNum
  | .displayNum => .head
  | .done => .done

/-! ## The machine -/

structure State where
  sampler : SamplerPc
  udp : UdpPc
  led : LedPc
  /-- The handlers running on each thread, the innermost first. -/
  handlers : Thread → List ShutdownPc
  shared : Shared

inductive Label where
  | sampler (c : Bool)
  | udp (c : Bool)
  | led
  | handler (t : Thread)
  | request (r : Request)
  | sigint (t : Thread)
  | dies (t : Thread)
  deriving DecidableEq

/-- `main` waits in `pthread_join` to the end. -/
def State.alive (s : State) : Thread → Bool
  | .main => true
  | .sampler => s.sampler ≠ .done
  | .udp => s.udp ≠ .done
  | .led => s.led ≠ .done

def SamplerPc.cancellationPoint : SamplerPc → Bool
  | .body | .newSize | .reportDipLock | .reportDips | .reportStats | .listing | .sleep => true
  | _ => false

/-- The innermost function of the thread is in a call that `pthread_cancel` ends. -/
def State.atCancellationPoint (s : State) (t : Thread) : Bool :=
  match s.handlers t with
  | pc :: _ => pc = .sleep
  | [] => match t with
    | .sampler => s.sampler.cancellationPoint
    | .led => s.led = .displayNum
    | _ => false

/-- The thread that was cancelled is no more. -/
def State.ended (s : State) (t : Thread) : State :=
  let s := { s with handlers := Function.update s.handlers t [] }
  match t with
  | .sampler => { s with sampler := .done }
  | .led => { s with led := .done }
  | _ => s

/-- One step.  A label whose thread is not there, or has to wait, changes nothing. -/
def step (s : State) : Label → State
  | .sampler c =>
    if s.handlers .sampler = [] then
      (exec .sampler s.sampler.instr s.shared).elim s fun shared =>
        { s with shared, sampler := s.sampler.next s.shared.running c }
    else s
  | .udp c =>
    if s.handlers .udp = [] then
      (exec .udp s.udp.instr s.shared).elim s fun shared =>
        { s with shared, udp := s.udp.next s.shared.recent c }
    else s
  | .led =>
    if s.handlers .led = [] then
      (exec .led s.led.instr s.shared).elim s fun shared =>
        { s with shared, led := s.led.next s.shared.ledRunning }
    else s
  | .handler t =>
    match s.handlers t with
    | [] => s
    | pc :: rest => (exec t pc.instr s.shared).elim s fun shared =>
        { s with shared, handlers := Function.update s.handlers t (pc.next.toList ++ rest) }
  | .request r =>
    if s.handlers .udp = [] ∧ s.udp = .recvfrom then { s with udp := r.start } else s
  | .sigint t =>
    if s.shared.handlerSet ∧ s.alive t then
      { s with handlers := Function.update s.handlers t (.lock :: s.handlers t) }
    else s
  | .dies t =>
    if t ∈ s.shared.cancelled ∧ s.atCancellationPoint t then s.ended t else s

/-- The threads have been created. -/
def start : State where
  sampler := .mallocRecent
  udp := .recvfrom
  led := .head
  handlers := fun _ => []
  shared := {
    recent := none
    mallocs := 0
    pStats := false
    blocks := .empty
    running := true
    ledRunning := true
    handlerSet := false
    mutex := fun _ => ⟨none, false⟩
    cancelled := [] }

end Threads
