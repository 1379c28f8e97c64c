import Cmpt433.Lib.LockOrder
import Cmpt433.Sampler.Threads

/-!
# Who waits for whose mutex (`work/as2`)

`samplerThread` locks `dipMutex` inside `historyMutex`, and the handler of SIGINT locks
`historyMutex` on top of whatever it interrupts: inside `historyMutex` itself
(`signal_inside_report`), or inside `dipMutex` while the sampler thread holds the other one.

* `Uncrossed` — the condition on a step: no handler starts on a thread that owns `historyMutex`,
  and the report and a handler inside `dipMutex` do not meet.
* `mayHold` — the points of each program at which it may own a mutex.
* `deadlock_free_iff` — a run has no deadlock in any of its states exactly when all its steps meet
  the condition.
-/

set_option autoImplicit false

namespace Threads

open LockOrder Runs

/-! ## The property -/

/-- The instruction the thread is at when no handler runs on it. -/
def State.base (s : State) : Thread → Instr
  | .main => .nop
  | .sampler => s.sampler.instr
  | .udp => s.udp.instr
  | .led => s.led.instr

/-- The instruction the thread is at. -/
def State.instr (s : State) (t : Thread) : Instr :=
  match s.handlers t with
  | pc :: _ => pc.instr
  | [] => s.base t

def State.Wants (s : State) (t : Thread) (m : MutexId) : Prop := s.instr t = .lock m

def State.Holds (s : State) (t : Thread) (m : MutexId) : Prop := (s.shared.mutex m).owner = some t

def State.DeadlockFree (s : State) : Prop := LockOrder.DeadlockFree s.Wants s.Holds

instance (s : State) (t : Thread) (m : MutexId) : Decidable (s.Wants t m) :=
  inferInstanceAs (Decidable (_ = _))

instance (s : State) (t : Thread) (m : MutexId) : Decidable (s.Holds t m) :=
  inferInstanceAs (Decidable (_ = _))

/-! ## The condition -/

/-- The sampler thread is about to lock `dipMutex` inside `historyMutex`. -/
def State.Reporting (s : State) : Prop :=
  s.Holds .sampler .historyMutex ∧ s.Wants .sampler .dipMutex

instance (s : State) : Decidable s.Reporting := inferInstanceAs (Decidable (_ ∧ _))

/-- The thread that the step brings to the first line of a handler: a signal is delivered, or a
handler that has interrupted another one at that line returns to it. -/
def entering (s : State) : Label → Option Thread
  | .sigint t => if s.shared.handlerSet ∧ s.alive t then some t else none
  | .handler t => if (s.handlers t).take 2 = [.destroy, .lock] then some t else none
  | _ => none

/-- The step in which the sampler thread gets `historyMutex` for its report. -/
def BeginsReport (s : State) : Label → Prop
  | .sampler _ => s.handlers .sampler = [] ∧ s.sampler = .reportLock ∧
      s.shared.mutex .historyMutex = ⟨none, false⟩
  | _ => False

/-- **The condition on a step.** -/
structure Uncrossed (s : State) (l : Label) : Prop where
  /-- A handler does not start inside `historyMutex`. -/
  outside : ∀ t ∈ entering s l, ¬ s.Holds t .historyMutex
  /-- It does not start inside `dipMutex` while the sampler thread waits for that. -/
  unreported : ∀ t ∈ entering s l, s.Holds t .dipMutex → ¬ s.Reporting
  /-- A report does not begin while a handler waits inside `dipMutex`. -/
  unawaited : BeginsReport s l → ∀ t ∈ (s.shared.mutex .dipMutex).owner, ¬ s.Wants t .historyMutex

instance (s : State) : (l : Label) → Decidable (BeginsReport s l)
  | .sampler _ => inferInstanceAs (Decidable (_ ∧ _ ∧ _))
  | .udp _ | .led | .handler _ | .request _ | .sigint _ | .dies _ =>
    inferInstanceAs (Decidable False)

instance (s : State) (l : Label) : Decidable (Uncrossed s l) :=
  decidable_of_iff ((∀ t ∈ entering s l, ¬ s.Holds t .historyMutex) ∧
    (∀ t ∈ entering s l, s.Holds t .dipMutex → ¬ s.Reporting) ∧
    (BeginsReport s l → ∀ t ∈ (s.shared.mutex .dipMutex).owner, ¬ s.Wants t .historyMutex))
    ⟨fun ⟨h₁, h₂, h₃⟩ => ⟨h₁, h₂, h₃⟩, fun h => ⟨h.outside, h.unreported, h.unawaited⟩⟩

/-! ## Where a thread may own a mutex -/

def ShutdownPc.mayHold : ShutdownPc → Bool
  | .stopRunning | .sleep | .freeRecent | .freeStats | .unlock => true
  | _ => false

/-- A cancelled thread keeps what it owns. -/
def SamplerPc.mayHold : MutexId → SamplerPc → Bool
  | _, .reportDips | _, .reportDipUnlock | _, .done => true
  | .historyMutex, .resizeRead | .historyMutex, .resizeFree | .historyMutex, .resizeAssign
  | .historyMutex, .resizeUnlock | .historyMutex, .reportDipLock | .historyMutex, .reportStats
  | .historyMutex, .reportUnlock => true
  | .dipMutex, .dipCount | .dipMutex, .dipUnlock => true
  | _, _ => false

def UdpPc.mayHold : MutexId → UdpPc → Bool
  | .historyMutex, .histLoad | .historyMutex, .histUnlock _ => true
  | .historyMutex, .stop pc => pc.mayHold
  | .dipMutex, .dipRead | .dipMutex, .dipUnlock => true
  | _, _ => false

def LedPc.mayHold : MutexId → LedPc → Bool
  | _, .done => true
  | .dipMutex, .dipRead | .dipMutex, .dipUnlock => true
  | _, _ => false

def State.baseMayHold (s : State) (m : MutexId) : Thread → Bool
  | .main => false
  | .sampler => s.sampler.mayHold m
  | .udp => s.udp.mayHold m
  | .led => s.led.mayHold m

/-- A handler runs outside `historyMutex`, until it locks it. -/
def State.mayHoldHistory (s : State) (t : Thread) : Bool :=
  match s.handlers t with
  | pc :: _ => pc.mayHold
  | [] => s.baseMayHold .historyMutex t

/-- The mutexes are owned where they may be, and the report and a handler do not wait for each
other. -/
structure Locked (s : State) : Prop where
  history : ∀ t, s.Holds t .historyMutex → s.mayHoldHistory t
  dip : ∀ t, s.Holds t .dipMutex → s.baseMayHold .dipMutex t
  uncrossed : s.Reporting → ∀ t, s.Holds t .dipMutex → ¬ s.Wants t .historyMutex
  cancelled : ∀ t ∈ s.shared.cancelled, t = .led ∨ t = .sampler

theorem start_locked : Locked start where
  history := nofun
  dip := nofun
  uncrossed := nofun
  cancelled := nofun

/-! ## The tables -/

@[simp] theorem shutdown_instr_ne_lock_dip (pc : ShutdownPc) : pc.instr ≠ .lock .dipMutex := by
  cases pc <;> nofun

theorem ShutdownPc.mayHold_ne_lock {pc : ShutdownPc} (h : pc.mayHold) (m : MutexId) :
    pc.instr ≠ .lock m := by
  cases pc <;> simp_all [ShutdownPc.mayHold, ShutdownPc.instr]

/-- What the shutdown routine owns at its next point. -/
theorem ShutdownPc.mayHold_next {pc : ShutdownPc}
    (h : pc.mayHold ∧ pc.instr ≠ .unlock .historyMutex ∨ pc.instr = .lock .historyMutex) :
    ∃ pc', pc.next = some pc' ∧ pc'.mayHold := by
  cases pc <;> simp_all [ShutdownPc.mayHold, ShutdownPc.instr, ShutdownPc.next]

theorem ShutdownPc.lock_of_instr {pc : ShutdownPc} {m : MutexId} (h : pc.instr = .lock m) :
    pc = .lock := by
  cases pc <;> cases h
  rfl

/-- Only the report calls lock while it may own a mutex. -/
theorem SamplerPc.lock_nested {p : SamplerPc} {m m' : MutexId} (h : p.mayHold m)
    (hlock : p.instr = .lock m') : m = .historyMutex ∧ m' = .dipMutex := by
  cases p <;> cases hlock <;> cases m <;> simp_all [SamplerPc.mayHold]

theorem SamplerPc.mayHold_next {p : SamplerPc} {m : MutexId}
    (h : p.mayHold m ∧ p.instr ≠ .unlock m ∨ p.instr = .lock m) (running c : Bool) :
    (p.next running c).mayHold m := by
  cases m <;> cases p <;> simp_all [SamplerPc.mayHold, SamplerPc.instr, SamplerPc.next] <;>
    cases c <;> simp

/-- The report is the only way to lock `dipMutex` inside `historyMutex`. -/
theorem SamplerPc.report_of_next {p : SamplerPc} {running c : Bool}
    (h : (p.next running c).mayHold .historyMutex)
    (hlock : (p.next running c).instr = .lock .dipMutex) : p = .reportLock := by
  cases p <;> cases running <;> cases c <;>
    simp_all [SamplerPc.next, SamplerPc.instr, SamplerPc.mayHold]

theorem UdpPc.mayHold_ne_lock {p : UdpPc} {m : MutexId} (h : p.mayHold m) (m' : MutexId) :
    p.instr ≠ .lock m' := by
  cases p with
  | stop pc =>
    cases m with
    | historyMutex => exact ShutdownPc.mayHold_ne_lock h m'
    | dipMutex => cases h
  | _ => cases m <;> simp_all [UdpPc.mayHold, UdpPc.instr]

theorem UdpPc.mayHold_next {p : UdpPc} {m : MutexId}
    (h : p.mayHold m ∧ p.instr ≠ .unlock m ∨ p.instr = .lock m) (recent : Option Nat) (c : Bool) :
    (p.next recent c).mayHold m := by
  cases p with
  | stop pc =>
    cases m with
    | historyMutex =>
      obtain ⟨pc', hnext, hpc'⟩ := ShutdownPc.mayHold_next h
      simpa [UdpPc.next, hnext, UdpPc.mayHold] using hpc'
    | dipMutex => simp [UdpPc.mayHold, UdpPc.instr] at h
  | _ => cases m <;> simp_all [UdpPc.mayHold, UdpPc.instr, UdpPc.next]

theorem LedPc.mayHold_ne_lock {p : LedPc} {m : MutexId} (h : p.mayHold m) (m' : MutexId) :
    p.instr ≠ .lock m' := by
  cases p <;> cases m <;> simp_all [LedPc.mayHold, LedPc.instr]

theorem LedPc.mayHold_next {p : LedPc} {m : MutexId}
    (h : p.mayHold m ∧ p.instr ≠ .unlock m ∨ p.instr = .lock m) (ledRunning : Bool) :
    (p.next ledRunning).mayHold m := by
  cases p <;> cases m <;> simp_all [LedPc.mayHold, LedPc.instr, LedPc.next]

/-- Inside `dipMutex` no program calls lock. -/
theorem State.base_ne_lock {s : State} {t : Thread} (h : s.baseMayHold .dipMutex t) (m : MutexId) :
    s.base t ≠ .lock m := by
  cases t with
  | main => nofun
  | sampler =>
    intro hlock
    cases (SamplerPc.lock_nested h hlock).1
  | udp => exact UdpPc.mayHold_ne_lock h m
  | led => exact LedPc.mayHold_ne_lock h m

/-- A handler that has interrupted another one at its first line, and returns there. -/
theorem ShutdownPc.returns_to_lock {pc : ShutdownPc} {rest rest' : List ShutdownPc}
    (h : pc.next.toList ++ rest = .lock :: rest') : pc = .destroy ∧ rest = .lock :: rest' := by
  cases pc <;> cases h
  exact ⟨rfl, rfl⟩

theorem ShutdownPc.cancel_instr {pc : ShutdownPc} {t : Thread} (h : pc.instr = .cancel t) :
    t = .led ∨ t = .sampler := by
  cases pc <;> cases h
  · exact .inl rfl
  · exact .inr rfl

theorem State.base_cancel {s : State} {t t' : Thread} (h : s.base t = .cancel t') :
    t' = .led ∨ t' = .sampler := by
  cases t with
  | main => cases h
  | sampler => cases hp : s.sampler <;> simp [State.base, hp, SamplerPc.instr] at h
  | led => cases hp : s.led <;> simp [State.base, hp, LedPc.instr] at h
  | udp =>
    cases hp : s.udp with
    | stop pc => exact ShutdownPc.cancel_instr (by simpa [State.base, hp, UdpPc.instr] using h)
    | _ => simp [State.base, hp, UdpPc.instr] at h

/-! ## No deadlock -/

/-- A thread that may own `historyMutex` calls lock only in the report. -/
theorem State.lock_nested {s : State} {t : Thread} {m : MutexId} (h : s.mayHoldHistory t)
    (hwants : s.Wants t m) : t = .sampler ∧ m = .dipMutex := by
  unfold State.mayHoldHistory at h
  unfold State.Wants State.instr at hwants
  cases hframes : s.handlers t with
  | cons pc rest =>
    rw [hframes] at h hwants
    exact absurd hwants (ShutdownPc.mayHold_ne_lock h m)
  | nil =>
    rw [hframes] at h hwants
    cases t with
    | main => cases h
    | sampler => exact ⟨rfl, (SamplerPc.lock_nested h hwants).2⟩
    | udp => exact absurd hwants (UdpPc.mayHold_ne_lock h m)
    | led => exact absurd hwants (LedPc.mayHold_ne_lock h m)

/-- A thread inside `dipMutex` calls lock only in a handler. -/
theorem State.lock_in_handler {s : State} {t : Thread} {m : MutexId}
    (h : s.baseMayHold .dipMutex t) (hwants : s.Wants t m) :
    m = .historyMutex ∧ ∃ rest, s.handlers t = .lock :: rest := by
  unfold State.Wants State.instr at hwants
  cases hframes : s.handlers t with
  | cons pc rest =>
    rw [hframes] at hwants
    obtain rfl := ShutdownPc.lock_of_instr hwants
    cases hwants
    exact ⟨rfl, rest, rfl⟩
  | nil =>
    rw [hframes] at hwants
    exact absurd hwants (State.base_ne_lock h m)

/-- The order in which the threads lock the mutexes: while the report waits for `dipMutex`, that
one comes last, and else the other one. -/
def State.rank (s : State) : MutexId → Nat
  | .historyMutex => if s.Reporting then 0 else 1
  | .dipMutex => if s.Reporting then 1 else 0

theorem Locked.deadlockFree {s : State} (h : Locked s) : s.DeadlockFree := by
  have horder : ∀ t m m', s.Holds t m → s.Wants t m' → s.rank m < s.rank m' := ?_
  · exact deadlockFree_of_order horder
  intro t m m' hholds hwants
  cases m with
  | historyMutex =>
    obtain ⟨rfl, rfl⟩ := State.lock_nested (h.history t hholds) hwants
    have hreport : s.Reporting := ⟨hholds, hwants⟩
    simp [State.rank, hreport]
  | dipMutex =>
    obtain ⟨rfl, -⟩ := State.lock_in_handler (h.dip t hholds) hwants
    have hreport : ¬ s.Reporting := fun hreport => h.uncrossed hreport t hholds hwants
    simp [State.rank, hreport]

/-! ## One thread moves -/

/-- The thread is where it was. -/
structure Stays (s s' : State) (t : Thread) : Prop where
  handlers : s'.handlers t = s.handlers t
  base : s'.base t = s.base t
  baseMayHold : ∀ m, s'.baseMayHold m t = s.baseMayHold m t

theorem Stays.instr {s s' : State} {t : Thread} (h : Stays s s' t) : s'.instr t = s.instr t := by
  rw [State.instr, State.instr, h.handlers, h.base]

theorem Stays.mayHoldHistory {s s' : State} {t : Thread} (h : Stays s s' t) :
    s'.mayHoldHistory t = s.mayHoldHistory t := by
  rw [State.mayHoldHistory, State.mayHoldHistory, h.handlers, h.baseMayHold]

theorem lock_owner {t t' : Thread} {m m' : Mutex} (h : pthread_mutex_lock t m = some m')
    (howner : m'.owner = some t') : m.owner = some t' ∨ (t' = t ∧ m = ⟨none, false⟩) := by
  unfold pthread_mutex_lock at h
  split at h
  · cases h
    exact .inl howner
  · rename_i hlive
    split at h
    · rename_i hfree
      cases h
      cases howner
      exact .inr ⟨rfl, by cases m; simp_all⟩
    · cases h

theorem unlock_owner {t t' : Thread} {m : Mutex}
    (h : (pthread_mutex_unlock t m).owner = some t') : m.owner = some t' ∧ t' ≠ t := by
  unfold pthread_mutex_unlock at h
  split at h
  · cases h
  · rename_i hother
    refine ⟨h, ?_⟩
    rintro rfl
    exact hother h

theorem destroy_owner (m : Mutex) : (pthread_mutex_destroy m).owner = m.owner := by
  unfold pthread_mutex_destroy
  split <;> rfl

theorem useArray_blocks (t : Thread) (array : Option Nat) (sh : Shared) :
    ∃ blocks, sh.useArray t array = { sh with blocks } := by
  cases array with
  | none => exact ⟨sh.blocks, rfl⟩
  | some a => exact ⟨_, rfl⟩

/-- What an instruction does to a mutex. -/
theorem mutex_exec {t : Thread} {i : Instr} {sh sh' : Shared} (hexec : exec t i sh = some sh')
    (m : MutexId) :
    i = .lock m ∧ pthread_mutex_lock t (sh.mutex m) = some (sh'.mutex m) ∨
    i = .unlock m ∧ sh'.mutex m = pthread_mutex_unlock t (sh.mutex m) ∨
    i = .destroy m ∧ sh'.mutex m = pthread_mutex_destroy (sh.mutex m) ∨
    i ≠ .unlock m ∧ sh'.mutex m = sh.mutex m := by
  cases i with
  | lock m₁ =>
    obtain ⟨mutex, hlock, rfl⟩ := Option.map_eq_some_iff.mp hexec
    by_cases hm : m = m₁
    · subst hm
      exact .inl ⟨rfl, by simpa using hlock⟩
    · exact .inr (.inr (.inr ⟨nofun, Function.update_of_ne hm _ _⟩))
  | unlock m₁ =>
    cases hexec
    by_cases hm : m = m₁
    · subst hm
      exact .inr (.inl ⟨rfl, Function.update_self ..⟩)
    · refine .inr (.inr (.inr ⟨?_, Function.update_of_ne hm _ _⟩))
      rintro ⟨⟩
      exact hm rfl
  | destroy m₁ =>
    cases hexec
    by_cases hm : m = m₁
    · subst hm
      exact .inr (.inr (.inl ⟨rfl, Function.update_self ..⟩))
    · exact .inr (.inr (.inr ⟨nofun, Function.update_of_ne hm _ _⟩))
  | useRecent | use =>
    cases hexec
    obtain ⟨blocks, hsh⟩ := useArray_blocks t _ sh
    exact .inr (.inr (.inr ⟨nofun, by rw [hsh]⟩))
  | useStats | freeRecent | freeStats =>
    cases hexec
    refine .inr (.inr (.inr ⟨nofun, ?_⟩))
    split <;> rfl
  | _ =>
    cases hexec
    exact .inr (.inr (.inr ⟨nofun, rfl⟩))

/-- What an instruction does to the owners. -/
theorem owner_exec {t t' : Thread} {i : Instr} {sh sh' : Shared} {m : MutexId}
    (hexec : exec t i sh = some sh') (h : (sh'.mutex m).owner = some t') :
    ((sh.mutex m).owner = some t' ∧ (t' = t → i ≠ .unlock m)) ∨
    (t' = t ∧ i = .lock m ∧ sh.mutex m = ⟨none, false⟩) := by
  rcases mutex_exec hexec m with ⟨rfl, hlock⟩ | ⟨rfl, hunlock⟩ | ⟨rfl, hdestroy⟩ | ⟨hi, hsame⟩
  · exact (lock_owner hlock h).imp (⟨·, nofun⟩) fun hnew => ⟨hnew.1, rfl, hnew.2⟩
  · rw [hunlock] at h
    obtain ⟨howner, hne⟩ := unlock_owner h
    exact .inl ⟨howner, fun heq => absurd heq hne⟩
  · rw [hdestroy, destroy_owner] at h
    exact .inl ⟨h, nofun⟩
  · rw [hsame] at h
    exact .inl ⟨h, fun _ => hi⟩

theorem cancelled_exec {t t' : Thread} {i : Instr} {sh sh' : Shared}
    (hexec : exec t i sh = some sh') (h : t' ∈ sh'.cancelled) :
    t' ∈ sh.cancelled ∨ i = .cancel t' := by
  cases i with
  | lock m =>
    obtain ⟨mutex, hlock, rfl⟩ := Option.map_eq_some_iff.mp hexec
    exact .inl h
  | cancel t₁ =>
    cases hexec
    rcases List.mem_cons.mp h with rfl | h
    · exact .inr rfl
    · exact .inl h
  | useRecent | use =>
    cases hexec
    obtain ⟨blocks, hsh⟩ := useArray_blocks t _ sh
    rw [hsh] at h
    exact .inl h
  | useStats | freeRecent | freeStats =>
    cases hexec
    split at h <;> exact .inl h
  | _ =>
    cases hexec
    exact .inl h

/-- **A move of one thread**: what it owns afterwards it may own there, and it does not cross the
report. -/
theorem Locked.move {s s' : State} {u : Thread} {i : Instr} (h : Locked s)
    (hexec : exec u i s.shared = some s'.shared) (hstays : ∀ t, t ≠ u → Stays s s' t)
    (hcancel : ∀ t, i = .cancel t → t = .led ∨ t = .sampler)
    (hhistory : s'.Holds u .historyMutex → s'.mayHoldHistory u)
    (hdip : s'.Holds u .dipMutex → s'.baseMayHold .dipMutex u)
    (hreport : u = .sampler → s'.Reporting →
      ∀ t, s.Holds t .dipMutex → ¬ s.Wants t .historyMutex)
    (hwaits : s.Reporting → s'.Holds u .dipMutex → ¬ s'.Wants u .historyMutex) : Locked s' := by
  have hbefore : ∀ t m, t ≠ u → s'.Holds t m → s.Holds t m := by
    intro t m ht hholds
    rcases owner_exec hexec hholds with hbefore | hself
    · exact hbefore.1
    · exact absurd hself.1 ht
  refine ⟨fun t hholds => ?_, fun t hholds => ?_, fun hrep t hholds hwants => ?_, fun t ht => ?_⟩
  · by_cases ht : t = u
    · subst ht
      exact hhistory hholds
    · rw [(hstays t ht).mayHoldHistory]
      exact h.history t (hbefore t _ ht hholds)
  · by_cases ht : t = u
    · subst ht
      exact hdip hholds
    · rw [(hstays t ht).baseMayHold]
      exact h.dip t (hbefore t _ ht hholds)
  · have hunmoved : ∀ t m, t ≠ u → s'.Wants t m → s.Wants t m := by
      intro t m ht hwants
      rwa [State.Wants, (hstays t ht).instr] at hwants
    by_cases hu : u = .sampler
    · subst hu
      have ht : t ≠ .sampler := by
        rintro rfl
        cases hwants.symm.trans hrep.2
      exact hreport rfl hrep t (hbefore t _ ht hholds) (hunmoved t _ ht hwants)
    · have hsampler := Ne.symm hu
      have hrep : s.Reporting := ⟨hbefore _ _ hsampler hrep.1, hunmoved _ _ hsampler hrep.2⟩
      by_cases ht : t = u
      · subst ht
        exact hwaits hrep hholds hwants
      · exact h.uncrossed hrep t (hbefore t _ ht hholds) (hunmoved t _ ht hwants)
  · rcases cancelled_exec hexec ht with hbefore | hcancelled
    · exact h.cancelled t hbefore
    · exact hcancel t hcancelled

/-- A thread with no handler waits for no mutex inside `dipMutex`. -/
theorem State.not_wants {s : State} {t : Thread} {m : MutexId} (hbase : s.handlers t = [])
    (h : s.baseMayHold .dipMutex t) : ¬ s.Wants t m := by
  intro hwants
  obtain ⟨-, rest, hframes⟩ := State.lock_in_handler h hwants
  rw [hbase] at hframes
  cases hframes

/-- A step of a thread's own program. -/
theorem Locked.base_move {s s' : State} {u : Thread} (h : Locked s) (hbase : s.handlers u = [])
    (hframes : s'.handlers = s.handlers) (hexec : exec u (s.base u) s.shared = some s'.shared)
    (hstays : ∀ t, t ≠ u → Stays s s' t)
    (hnext : ∀ m, (s.baseMayHold m u ∧ s.base u ≠ .unlock m ∨ s.base u = .lock m) →
      s'.baseMayHold m u)
    (hreport : u = .sampler → s'.Holds u .historyMutex → s'.baseMayHold .historyMutex u →
      s'.base u = .lock .dipMutex → ∀ t, s.Holds t .dipMutex → ¬ s.Wants t .historyMutex) :
    Locked s' := by
  have hbase' : s'.handlers u = [] := by rw [hframes, hbase]
  have howned : ∀ m, (s.Holds u m → s.baseMayHold m u) → s'.Holds u m → s'.baseMayHold m u := by
    intro m hbefore hholds
    refine hnext m ?_
    rcases owner_exec hexec hholds with ⟨howner, hinstr⟩ | ⟨-, hinstr, -⟩
    · exact .inl ⟨hbefore howner, hinstr rfl⟩
    · exact .inr hinstr
  have hhistory : s.Holds u .historyMutex → s.baseMayHold .historyMutex u := by
    intro hholds
    have hmay := h.history u hholds
    rwa [State.mayHoldHistory, hbase] at hmay
  have hdip := howned .dipMutex (h.dip u)
  refine h.move hexec hstays (fun _ => State.base_cancel) (fun hholds => ?_) hdip
    (fun hu hrep => ?_) fun _ hholds => ?_
  · rw [State.mayHoldHistory, hbase']
    exact howned _ hhistory hholds
  · subst hu
    have hwants := hrep.2
    rw [State.Wants, State.instr, hbase'] at hwants
    exact hreport rfl hrep.1 (howned _ hhistory hrep.1) hwants
  · exact State.not_wants hbase' (hdip hholds)

/-- What runs on top of one thread changes, and what is shared. -/
def State.withHandlers (s : State) (t : Thread) (frames : List ShutdownPc) (shared : Shared) :
    State :=
  { s with shared, handlers := Function.update s.handlers t frames }

section

variable {s : State} {t : Thread} {frames : List ShutdownPc} {sh : Shared}

@[simp] theorem withHandlers_handlers : (s.withHandlers t frames sh).handlers t = frames :=
  Function.update_self ..

@[simp] theorem withHandlers_base (t' : Thread) :
    (s.withHandlers t frames sh).base t' = s.base t' := by
  cases t' <;> rfl

@[simp] theorem withHandlers_baseMayHold (m : MutexId) (t' : Thread) :
    (s.withHandlers t frames sh).baseMayHold m t' = s.baseMayHold m t' := by
  cases t' <;> rfl

theorem stays_withHandlers {t' : Thread} (ht : t' ≠ t) : Stays s (s.withHandlers t frames sh) t' :=
  ⟨Function.update_of_ne ht _ _, withHandlers_base t', (withHandlers_baseMayHold · t')⟩

end

/-! ## The steps -/

section

variable {s : State} (h : Locked s)

include h

theorem sampler_locked {c : Bool} (hun : Uncrossed s (.sampler c)) :
    Locked (step s (.sampler c)) := by
  simp only [step]
  split
  · rename_i hbase
    cases hexec : exec .sampler s.sampler.instr s.shared with
    | none => exact h
    | some sh' =>
      refine h.base_move hbase rfl hexec ?_ (fun m hm => SamplerPc.mayHold_next hm _ _) ?_
      · intro t ht
        cases t with
        | sampler => exact absurd rfl ht
        | _ => exact ⟨rfl, rfl, fun _ => rfl⟩
      · intro _ hholds hmay hlock
        have hp : s.sampler = .reportLock := SamplerPc.report_of_next hmay hlock
        rcases owner_exec hexec hholds with ⟨howner, -⟩ | ⟨-, -, hfree⟩
        · have hheld := h.history _ howner
          rw [State.mayHoldHistory, hbase, State.baseMayHold, hp] at hheld
          cases hheld
        · exact hun.unawaited ⟨hbase, hp, hfree⟩
  · exact h

theorem udp_locked {c : Bool} : Locked (step s (.udp c)) := by
  simp only [step]
  split
  · rename_i hbase
    cases hexec : exec .udp s.udp.instr s.shared with
    | none => exact h
    | some sh' =>
      refine h.base_move hbase rfl hexec ?_ (fun m hm => UdpPc.mayHold_next hm _ _) nofun
      intro t ht
      cases t with
      | udp => exact absurd rfl ht
      | _ => exact ⟨rfl, rfl, fun _ => rfl⟩
  · exact h

theorem led_locked : Locked (step s .led) := by
  simp only [step]
  split
  · rename_i hbase
    cases hexec : exec .led s.led.instr s.shared with
    | none => exact h
    | some sh' =>
      refine h.base_move hbase rfl hexec ?_ (fun m hm => LedPc.mayHold_next hm _) nofun
      intro t ht
      cases t with
      | led => exact absurd rfl ht
      | _ => exact ⟨rfl, rfl, fun _ => rfl⟩
  · exact h

theorem handler_locked {t : Thread} (hun : Uncrossed s (.handler t)) :
    Locked (step s (.handler t)) := by
  simp only [step]
  split
  · exact h
  · rename_i pc rest hframes
    cases hexec : exec t pc.instr s.shared with
    | none => exact h
    | some sh' =>
      change Locked (s.withHandlers t (pc.next.toList ++ rest) sh')
      have hhistory : (sh'.mutex .historyMutex).owner = some t →
          ∃ pc', pc.next = some pc' ∧ pc'.mayHold := by
        intro hholds
        refine ShutdownPc.mayHold_next ?_
        rcases owner_exec hexec hholds with ⟨howner, hinstr⟩ | ⟨-, hinstr, -⟩
        · have hheld := h.history t howner
          rw [State.mayHoldHistory, hframes] at hheld
          exact .inl ⟨hheld, hinstr rfl⟩
        · exact .inr hinstr
      have hdip : (sh'.mutex .dipMutex).owner = some t → s.Holds t .dipMutex := by
        intro hholds
        rcases owner_exec hexec hholds with ⟨howner, -⟩ | ⟨-, hinstr, -⟩
        · exact howner
        · exact absurd hinstr (shutdown_instr_ne_lock_dip pc)
      refine h.move hexec (fun t' ht => stays_withHandlers ht) (fun _ => ShutdownPc.cancel_instr)
        (fun hholds => ?_) (fun hholds => ?_) (fun hu hrep => ?_) fun hrep hholds hwants => ?_
      · obtain ⟨pc', hnext, hmay⟩ := hhistory hholds
        simpa [State.mayHoldHistory, hnext] using hmay
      · simpa using h.dip t (hdip hholds)
      · -- inside `historyMutex` the routine calls no lock
        subst hu
        obtain ⟨pc', hnext, hmay⟩ := hhistory hrep.1
        have hwants : pc'.instr = .lock .dipMutex := by
          simpa [State.Wants, State.instr, hnext] using hrep.2
        exact absurd hwants (ShutdownPc.mayHold_ne_lock hmay _)
      · obtain ⟨-, rest', hlock⟩ :=
          State.lock_in_handler (by simpa using h.dip t (hdip hholds)) hwants
        rw [withHandlers_handlers] at hlock
        refine hun.unreported t ?_ (hdip hholds) hrep
        have hreturns := ShutdownPc.returns_to_lock hlock
        simp [entering, hframes, hreturns]

theorem request_locked {r : Request} : Locked (step s (.request r)) := by
  simp only [step]
  split
  · rename_i hidle
    refine h.base_move (u := .udp) hidle.1 rfl ?_ ?_ (fun m hm => ?_) nofun
    · rw [State.base, hidle.2]
      rfl
    · intro t ht
      cases t with
      | udp => exact absurd rfl ht
      | _ => exact ⟨rfl, rfl, fun _ => rfl⟩
    · -- `recvfrom` is outside both
      rw [State.baseMayHold, State.base, hidle.2] at hm
      cases m <;> simp [UdpPc.mayHold, UdpPc.instr] at hm
  · exact h

theorem sigint_locked {t : Thread} (hun : Uncrossed s (.sigint t)) :
    Locked (step s (.sigint t)) := by
  simp only [step]
  split
  · rename_i hset
    change Locked (s.withHandlers t (.lock :: s.handlers t) s.shared)
    have henter : t ∈ entering s (.sigint t) := by simp [entering, hset]
    have hfree := hun.outside t henter
    refine h.move (i := .nop) rfl (fun t' ht => stays_withHandlers ht) nofun
      (fun hholds => absurd hholds hfree) (fun hholds => ?_) (fun hu hrep => ?_)
      fun hrep hholds => absurd hrep (hun.unreported t henter hholds)
    · simpa using h.dip t hholds
    · subst hu
      exact absurd hrep.1 hfree
  · exact h

theorem dies_locked {t : Thread} : Locked (step s (.dies t)) := by
  simp only [step]
  split
  · rename_i hdies
    have hhandlers : (s.ended t).handlers = Function.update s.handlers t [] := by
      cases t <;> rfl
    have hframes : (s.ended t).handlers t = [] := by
      rw [hhandlers, Function.update_self]
    have hdone : ∀ m, (s.ended t).baseMayHold m t := by
      rcases h.cancelled t hdies.1 with rfl | rfl <;> intro m <;> cases m <;> rfl
    refine h.move (u := t) (i := .nop) ?_ (fun t' ht => ?_) nofun (fun _ => ?_) (fun _ => hdone _)
      (fun _ hrep => ?_) fun _ _ => State.not_wants hframes (hdone _)
    · cases t <;> rfl
    · refine ⟨by rw [hhandlers, Function.update_of_ne ht], ?_, fun m => ?_⟩ <;>
        cases t <;> cases t' <;> first | rfl | exact absurd rfl ht
    · rw [State.mayHoldHistory, hframes]
      exact hdone _
    · subst_vars
      exact absurd hrep.2 (State.not_wants hframes (hdone _))
  · exact h

end

theorem step_locked (s : State) (l : Label) (h : Locked s) (hun : Uncrossed s l) :
    Locked (step s l) := by
  cases l with
  | sampler c => exact sampler_locked h hun
  | udp c => exact udp_locked h
  | led => exact led_locked h
  | handler t => exact handler_locked h hun
  | request r => exact request_locked h
  | sigint t => exact sigint_locked h hun
  | dies t => exact dies_locked h

/-! ## The condition is needed -/

/-- What a step does that brings a thread to the first line of a handler. -/
theorem step_entering {s : State} {l : Label} {t : Thread} (h : t ∈ entering s l) :
    ∃ rest sh', step s l = s.withHandlers t (.lock :: rest) sh' ∧
      ∀ m, (sh'.mutex m).owner = (s.shared.mutex m).owner := by
  cases l with
  | sigint t' =>
    simp only [entering, Option.mem_def, Option.ite_none_right_eq_some] at h
    obtain ⟨hset, ⟨⟩⟩ := h
    exact ⟨s.handlers t, s.shared, by rw [step, if_pos hset]; rfl, fun _ => rfl⟩
  | handler t' =>
    simp only [entering, Option.mem_def, Option.ite_none_right_eq_some] at h
    obtain ⟨htake, ⟨⟩⟩ := h
    obtain ⟨rest, hframes⟩ : ∃ rest, s.handlers t = .destroy :: .lock :: rest := by
      have happend := List.take_append_drop 2 (s.handlers t)
      rw [htake] at happend
      exact ⟨_, happend.symm⟩
    refine ⟨rest, _, by rw [step, hframes]; rfl, fun m => ?_⟩
    by_cases hm : m = .historyMutex
    · subst hm
      dsimp only
      rw [Function.update_self, destroy_owner]
    · dsimp only
      rw [Function.update_of_ne hm]
  | _ => cases h

/-- The step with which a report begins. -/
theorem step_report {s : State} {c : Bool} (h : BeginsReport s (.sampler c)) :
    (step s (.sampler c)).Reporting ∧
      (step s (.sampler c)).shared.mutex .dipMutex = s.shared.mutex .dipMutex ∧
      ∀ t, t ≠ .sampler → Stays s (step s (.sampler c)) t := by
  obtain ⟨hbase, hp, hmutex⟩ := h
  rw [step, if_pos hbase, hp, SamplerPc.instr, exec, hmutex]
  refine ⟨⟨rfl, ?_⟩, rfl, fun t ht => ?_⟩
  · unfold State.Wants State.instr
    simp [hbase, State.base, SamplerPc.next, SamplerPc.instr, pthread_mutex_lock]
  · cases t with
    | sampler => exact absurd rfl ht
    | _ => exact ⟨rfl, rfl, fun _ => rfl⟩

theorem Locked.uncrossed_of_deadlockFree {s : State} {l : Label} (h : Locked s)
    (hfree : (step s l).DeadlockFree) : Uncrossed s l := by
  refine ⟨fun t ht hholds => ?_, fun t ht hholds hrep => ?_, fun hbegins t ht hwants => ?_⟩
  · obtain ⟨rest, sh', hstep, howner⟩ := step_entering ht
    rw [hstep] at hfree
    refine hfree.no_relock t .historyMutex ?_ ((howner _).trans hholds)
    simp [State.Wants, State.instr, ShutdownPc.instr]
  · obtain ⟨rest, sh', hstep, howner⟩ := step_entering ht
    rw [hstep] at hfree
    have hne : .sampler ≠ t := by
      rintro rfl
      cases (State.lock_in_handler (h.dip _ hholds) hrep.2).1
    refine not_deadlockFree_of_pair (t := t) (m := .historyMutex) ?_ ((howner _).trans hrep.1) ?_
      ((howner _).trans hholds) hfree
    · simp [State.Wants, State.instr, ShutdownPc.instr]
    · rw [State.Wants, (stays_withHandlers hne).instr]
      exact hrep.2
  · cases l with
    | sampler c =>
      have hne : t ≠ .sampler := by
        rintro rfl
        exact State.not_wants hbegins.1 (h.dip _ ht) hwants
      obtain ⟨hrep, hdip, hstays⟩ := step_report hbegins
      have hwants' : (step s (.sampler c)).Wants t .historyMutex := by
        rw [State.Wants, (hstays t hne).instr]
        exact hwants
      have hholds' : (step s (.sampler c)).Holds t .dipMutex := by
        rw [State.Holds, hdip]
        exact ht
      exact not_deadlockFree_of_pair hwants' hrep.1 hrep.2 hholds' hfree
    | _ => exact hbegins

/-- **No deadlock**: every state of a run is free of deadlocks exactly when all its steps meet the
condition. -/
theorem deadlock_free_iff (run : List Label) :
    (∀ pre, pre <+: run → (after step start pre).DeadlockFree) ↔
      Throughout step Uncrossed start run :=
  safe_iff (fun _ h => h.deadlockFree) step_locked (fun _ _ h => h.uncrossed_of_deadlockFree)
    start_locked

/-- SIGINT is delivered to the main thread while the sampler thread reports; the handler waits for
the end of the report. -/
example : Throughout step Uncrossed start
    ([.sampler false, .sampler false, .sampler false, .sampler false, .sampler false,
      .sampler false, .sampler true, .sampler false, .sampler false, .sigint .main,
      .handler .main, .sampler false, .sampler false, .sampler false, .sampler false,
      .sampler false, .handler .main, .handler .main]) := by
  decide

/-- The sampler thread takes a sample and is inside its report when SIGINT is delivered to it. -/
theorem signal_inside_report :
    ¬ ∀ run : List Label, (after step start run).DeadlockFree := by
  intro hall
  have hfree := hall [.sampler false, .sampler false, .sampler false, .sampler false,
    .sampler false, .sampler false, .sampler true, .sampler false, .sampler false,
    .sigint .sampler]
  exact hfree.no_relock .sampler .historyMutex (by decide) (by decide)

end Threads
