import Cmpt433.Lib.Fairness
import Cmpt433.Lib.LockOrder
import Cmpt433.Beatbox.AudioOrder

/-!
# The end of the beat box (`work/pcmExample`)

`main` waits for the UDP thread and the joystick thread, the UDP thread waits for the playback
thread, and all but the joystick thread wait for `audioMutex`.

* `deadlock_free` — in every state of every run there is no cycle of threads that wait for each
  other, in `pthread_mutex_lock` or in `pthread_join`.
* `remaining` — once `stopping` is set, what the threads have left to do.
* `shutdown_ends` — a fair run in which `stopping` is set comes to the end of all threads.
-/

set_option autoImplicit false

namespace AudioThreads

open Beatbox Mixer UdpListener LocalViews Pthread Runs LockOrder Fairness

/-! ## No deadlock -/

/-- What a thread can wait for. -/
inductive Resource where
  | mutex (m : MutexId)
  | ended (t : Thread)
  deriving DecidableEq

/-- The thread calls `pthread_mutex_lock` or `pthread_join`. -/
def Wants (s : State) (t : Thread) : Resource → Prop
  | .mutex m => (s.prog t).head? = some (.lock m)
  | .ended t' => (s.prog t).head? = some (.join t')

/-- The thread owns the mutex, or has still to end. -/
def Holds (s : State) (t : Thread) : Resource → Prop
  | .mutex m => (s.shared.mutex m).owner = some t
  | .ended t' => t = t' ∧ s.prog t ≠ []

/-- The order in which the threads wait. -/
def Resource.rank : Resource → Nat
  | .ended .main => 0
  | .ended .udp => 1
  | .ended .playback | .ended .joystick => 2
  | .mutex .audioMutex => 3
  | .mutex .s_lock => 4

section

variable {size : Nat} {contents : Sound → WaveFile} {t : Thread} {inp : Input}
  {sh sh' : Shared} {i : Instr} {is rest : List Instr} {v : Thread → View} {s : State}

theorem allows_of_head (h : Agree v s) (hhead : (s.prog t).head? = some i) : (v t).allows i := by
  cases hprog : s.prog t with
  | nil =>
    rw [hprog] at hhead
    cases hhead
  | cons i' rest =>
    rw [hprog] at hhead
    cases hhead
    obtain ⟨w, hcheck, -⟩ := h.checked.head hprog
    exact (check_eq_some.mp hcheck).1

/-- A thread in a section waits at most for `s_lock`, and with `s_lock` for nothing. -/
theorem wants_in_section (h : Agree v s) {r : Resource} (hwants : Wants s t r) :
    (v t).period = false ∧ ((v t).audio = true → r = .mutex .s_lock) := by
  cases r with
  | mutex m =>
    have hallows := allows_of_head h hwants
    cases m with
    | audioMutex =>
      obtain ⟨haudio, hperiod, -⟩ := of_decide_eq_true hallows
      exact ⟨hperiod, fun h' => absurd h' (by rw [haudio]; decide)⟩
    | s_lock => exact ⟨(of_decide_eq_true hallows).2, fun _ => rfl⟩
  | ended t' =>
    obtain ⟨haudio, hperiod, -⟩ := of_decide_eq_true (allows_of_head h hwants)
    exact ⟨hperiod, fun h' => absurd h' (by rw [haudio]; decide)⟩

/-- The threads wait in the order of the ranks. -/
theorem rank_lt (h : Agree v s) {r r' : Resource} (hholds : Holds s t r) (hwants : Wants s t r') :
    r.rank < r'.rank := by
  obtain ⟨hperiod, hsection⟩ := wants_in_section h hwants
  cases r with
  | mutex m =>
    cases m with
    | audioMutex =>
      rw [hsection (h.locks.audio.flag_of_owner hholds)]
      decide
    | s_lock => exact absurd (h.locks.period.flag_of_owner hholds) (by rw [hperiod]; decide)
  | ended t' =>
    obtain ⟨rfl, -⟩ := hholds
    cases r' with
    | mutex m => cases t <;> cases m <;> decide
    | ended t' =>
      have hthread := h.threads t
      obtain ⟨-, -, ⟨hudp, rfl, -⟩ | ⟨hmain, rfl, -⟩ | ⟨hmain, rfl, -⟩⟩ :=
        of_decide_eq_true (allows_of_head h hwants)
      · rw [hthread] at hudp
        subst hudp
        decide
      · rw [hthread] at hmain
        subst hmain
        decide
      · rw [hthread] at hmain
        subst hmain
        decide

/-- **The threads of the beat box never deadlock**, in any state of any run, the shutdown
included. -/
theorem deadlock_free (tr : List Label) :
    let s := after (step size contents) (start size) tr
    DeadlockFree (Wants s) (Holds s) := by
  obtain ⟨v, h⟩ := @agree_run size contents tr
  exact deadlockFree_of_order fun t r r' hholds hwants => rank_lt h hholds hwants

/-! ## What is left to do -/

/-- A bound of the steps that an instruction leads to when `stopping` is set. -/
def Instr.cost (playbackBufferSize : Nat) : Instr → Nat
  | .at l => l.left + 1
  | .AudioMixer_queueSound p => (Op.queue p).enter.left + 2
  | .fillPlaybackBuffer => (Op.fill playbackBufferSize : Op Sound).enter.left + 2
  | .ifDue => 6
  | .mainLoop => 15
  | .playbackLoop => 2
  | _ => 1

def total (size : Nat) (prog : List Instr) : Nat := (prog.map (Instr.cost size)).sum

/-- The joystick thread counts from when its `running` is 0. -/
def remaining (size : Nat) (s : State) : Nat :=
  4 * (total size (s.prog .main) + total size (s.prog .playback) + total size (s.prog .udp)) +
    if s.shared.joystickRunning then 0 else (s.prog .joystick).length

theorem total_append (is rest : List Instr) :
    total size (is ++ rest) = total size is + total size rest := by
  unfold total
  rw [List.map_append, List.sum_append]

theorem exec_cost {ended : Thread → Bool} (hstopping : sh.stopping = true)
    (hudp : i = .udpLoop → sh.udpRunning = false) (hjoystick : i ≠ .joystickLoop)
    (h : exec size contents t inp ended sh i = some (sh', is)) : total size is < i.cost size := by
  cases i with
  | joystickLoop => exact absurd rfl hjoystick
  | mainLoop =>
    cases h
    rw [if_pos hstopping]
    exact Nat.lt_succ_self 14
  | playbackLoop =>
    cases h
    rw [if_pos hstopping]
    exact Nat.lt_succ_self 1
  | udpLoop =>
    cases h
    rw [hudp rfl]
    exact Nat.one_pos
  | ifDue =>
    cases h
    split
    · exact Nat.lt_succ_self 5
    · exact Nat.succ_pos 5
  | AudioMixer_queueSound p =>
    simp only [exec] at h
    split at h <;> cases h
    · exact Nat.lt_succ_self _
    · exact Nat.succ_pos _
  | fillPlaybackBuffer =>
    cases h
    exact Nat.lt_succ_self _
  | «at» l =>
    cases h
    cases hgo : (l.go (fun p => (contents p).data) (sh.sound contents) sh.audio).2 with
    | none => exact Nat.succ_pos _
    | some l' => exact Nat.succ_lt_succ (Point.go_left hgo)
  | lock m =>
    obtain ⟨mutex, -, heq⟩ := Option.map_eq_some_iff.mp h
    cases heq
    exact Nat.one_pos
  | join t' =>
    simp only [exec] at h
    split at h <;> cases h
    exact Nat.one_pos
  | _ =>
    cases h
    exact Nat.one_pos

/-! ## The joystick thread -/

/-- What the joystick thread can have left of its loop. -/
def Polling (prog : List Instr) : Prop := prog <:+ [.poll, .sleepForMs, .joystickLoop]

theorem polling_cons (h : Polling (i :: rest)) :
    (i = .poll ∨ i = .sleepForMs) ∧ rest ≠ [] ∨ i = .joystickLoop ∧ rest = [] := by
  unfold Polling at h
  simp only [List.suffix_cons_iff, List.suffix_nil, List.cons.injEq, reduceCtorEq, or_false] at h
  rcases h with ⟨rfl, rfl⟩ | ⟨rfl, rfl⟩ | ⟨rfl, rfl⟩
  · exact .inl ⟨.inl rfl, nofun⟩
  · exact .inl ⟨.inr rfl, nofun⟩
  · exact .inr ⟨rfl, rfl⟩

/-- A step of the joystick thread is one in its own program, and shortens it unless the loop goes
on. -/
theorem joystick_go {ended : Thread → Bool} (h : Polling (i :: rest))
    (hexec : exec size contents t inp ended sh i = some (sh', is)) :
    sh' = sh ∧ Polling (is ++ rest) ∧
      (sh.joystickRunning = false → (is ++ rest).length < (i :: rest).length) := by
  have hrest : Polling rest := (List.suffix_cons i rest).trans h
  rcases polling_cons h with ⟨rfl | rfl, -⟩ | ⟨rfl, rfl⟩ <;> cases hexec
  · exact ⟨rfl, hrest, fun _ => Nat.lt_succ_self _⟩
  · exact ⟨rfl, hrest, fun _ => Nat.lt_succ_self _⟩
  · refine ⟨rfl, ?_, fun hrunning => ?_⟩
    · split
      · exact List.suffix_rfl
      · exact List.nil_suffix
    · rw [hrunning]
      exact Nat.lt_succ_self 0

theorem polling_step (h : Polling (s.prog .joystick)) (l : Label) :
    Polling ((step size contents s l).prog .joystick) := by
  rcases step_cases size contents s l with ⟨hs, -⟩ |
    ⟨t, inp, i, rest, sh', is, rfl, -, hprog, hexec, hs⟩ | ⟨rfl, -, -, hs⟩ <;> rw [hs]
  · exact h
  · change Polling (Function.update s.prog t (is ++ rest) .joystick)
    by_cases heq : t = .joystick
    · subst heq
      rw [hprog] at h
      rw [Function.update_self]
      exact (joystick_go h hexec).2.1
    · rw [Function.update_of_ne (Ne.symm heq)]
      exact h
  · change Polling (Function.update s.prog .joystick [] .joystick)
    rw [Function.update_self]
    exact List.nil_suffix

/-! ## The shutdown -/

/-- The states of a run in which `stopping` is set. -/
structure Ending (s : State) : Prop where
  views : ∃ v, Agree v s
  polling : Polling (s.prog .joystick)
  stopping : s.shared.stopping = true

theorem ending_step (h : Ending s) (l : Label) : Ending (step size contents s l) := by
  obtain ⟨v, hv⟩ := h.views
  refine ⟨agree_step hv l, polling_step h.polling l, ?_⟩
  rcases step_cases size contents s l with ⟨hs, -⟩ |
    ⟨t, inp, i, rest, sh', is, rfl, -, hprog, hexec, hs⟩ | ⟨rfl, -, -, hs⟩ <;> rw [hs]
  · exact h.stopping
  · change sh'.stopping = true
    rw [(exec_effect hexec).stopping, h.stopping, Bool.or_true]
  · exact h.stopping

/-- Only the joystick thread has its loop. -/
theorem joystickLoop_thread (h : Agree v s) (hprog : s.prog t = .joystickLoop :: rest) :
    t = .joystick := by
  have hallows := allows_of_head h (t := t) (by rw [hprog]; rfl)
  have hview : v t = View.looping .joystick := of_decide_eq_true hallows
  rw [← h.threads t, hview]
  rfl

/-- The UDP thread does not receive again. -/
theorem udpLoop_running (h : Agree v s) (hstopping : s.shared.stopping = true)
    (hprog : s.prog t = .udpLoop :: rest) : s.shared.udpRunning = false := by
  have hallows := allows_of_head h (t := t) (by rw [hprog]; rfl)
  have hthread := h.threads t
  rcases of_decide_eq_true hallows with hview | hview
  · rw [hview] at hthread
    obtain rfl : t = .udp := hthread.symm
    exact absurd (by rw [hview]; rfl) (h.flags.stopping.mp hstopping)
  · rw [hview] at hthread
    obtain rfl : t = .udp := hthread.symm
    rw [h.flags.running, hview]
    rfl

/-- Each step of the other threads leaves less to do. -/
theorem remaining_go (h : Ending s) (hv : Agree v s) (hprog : s.prog t = i :: rest)
    (hne : t ≠ .joystick)
    (hexec : exec size contents t inp s.ended s.shared i = some (sh', is)) :
    remaining size { shared := sh', prog := Function.update s.prog t (is ++ rest) } <
      remaining size s := by
  have hcost : total size (is ++ rest) < total size (s.prog t) := by
    rw [total_append, hprog]
    change _ < i.cost size + total size rest
    refine Nat.add_lt_add_right (exec_cost h.stopping ?_ ?_ hexec) _
    · rintro rfl
      exact udpLoop_running hv h.stopping hprog
    · rintro rfl
      exact hne (joystickLoop_thread hv hprog)
  -- `joystick_shutdown` is where the joystick thread begins to count
  have hjoystick : (s.prog .joystick).length ≤ 3 := h.polling.length_le
  have hrunning := (exec_effect hexec).joystickRunning
  have hpart : (if sh'.joystickRunning then 0 else (s.prog .joystick).length) ≤
      (if s.shared.joystickRunning then 0 else (s.prog .joystick).length) + 3 := by
    split <;> split <;> omega
  have hsame : Function.update s.prog t (is ++ rest) .joystick = s.prog .joystick :=
    Function.update_of_ne (Ne.symm hne) ..
  unfold remaining
  simp only [hsame]
  cases t with
  | joystick => exact absurd rfl hne
  | main | playback | udp =>
    simp only [Function.update_self, Function.update_of_ne, ne_eq, reduceCtorEq, not_false_eq_true]
    omega

/-- A step of the joystick thread leaves less to do once its `running` is 0, and before that as
much. -/
theorem remaining_joystick (h : Ending s) (hprog : s.prog .joystick = i :: rest)
    (hexec : exec size contents .joystick inp s.ended s.shared i = some (sh', is)) :
    let s' : State := { shared := sh', prog := Function.update s.prog .joystick (is ++ rest) }
    sh' = s.shared ∧ (s.shared.joystickRunning = true → remaining size s' = remaining size s) ∧
      (s.shared.joystickRunning = false → remaining size s' < remaining size s) := by
  have hpolling := h.polling
  rw [hprog] at hpolling
  obtain ⟨rfl, -, hless⟩ := joystick_go hpolling hexec
  refine ⟨rfl, ?_⟩
  simp only [remaining, Function.update_self, Function.update_of_ne, ne_eq, reduceCtorEq,
    not_false_eq_true, hprog]
  cases hrunning : s.shared.joystickRunning with
  | true => exact ⟨fun _ => rfl, nofun⟩
  | false =>
    refine ⟨nofun, fun _ => ?_⟩
    have hlt := hless hrunning
    simp only [Bool.false_eq_true, if_false]
    omega

/-- So does its cancellation. -/
theorem remaining_dies (hat : s.atCancellationPoint = true) :
    let s' : State := { s with prog := Function.update s.prog .joystick [] }
    (s.shared.joystickRunning = true → remaining size s' = remaining size s) ∧
      (s.shared.joystickRunning = false → remaining size s' < remaining size s) := by
  have hpos : 0 < (s.prog .joystick).length := by
    unfold State.atCancellationPoint at hat
    cases hprog : s.prog .joystick with
    | nil =>
      rw [hprog] at hat
      cases hat
    | cons i rest => exact Nat.succ_pos _
  simp only [remaining, Function.update_self, Function.update_of_ne, ne_eq, reduceCtorEq,
    not_false_eq_true, List.length_nil]
  cases hrunning : s.shared.joystickRunning with
  | true => exact ⟨fun _ => rfl, nofun⟩
  | false =>
    refine ⟨nofun, fun _ => ?_⟩
    simp only [Bool.false_eq_true, if_false]
    omega

/-! ## The helpful thread -/

/-- All threads have ended. -/
def Done (s : State) : Prop := ∀ t, s.prog t = []

/-- A thread that can go on: the playback thread and whoever keeps it from the mutex, then the UDP
thread, then `main`, and the joystick thread when `main` waits for it. -/
def helpful (s : State) : Thread :=
  if s.prog .playback ≠ [] then
    if inSection (s.prog .main) then .main else .playback
  else if s.prog .udp ≠ [] then .udp
  else if s.prog .main = [] ∨ (s.prog .main).head? = some (.join .joystick) ∧ s.prog .joystick ≠ []
  then .joystick
  else .main

theorem exec_isSome {ended : Thread → Bool}
    (hlock : ∀ m, i = .lock m → (sh.mutex m).destroyed = true ∨ (sh.mutex m).owner = none)
    (hjoin : ∀ t', i = .join t' → ended t' = true) :
    ∃ sh' is, exec size contents t inp ended sh i = some (sh', is) := by
  cases i with
  | lock m =>
    have hfree : ∃ mutex, pthread_mutex_lock t (sh.mutex m) = some mutex := by
      unfold pthread_mutex_lock
      rcases hlock m rfl with hdestroyed | howner
      · exact ⟨_, if_pos hdestroyed⟩
      · rw [if_pos howner]
        split <;> exact ⟨_, rfl⟩
    obtain ⟨mutex, hmutex⟩ := hfree
    exact ⟨_, _, Option.map_eq_some_iff.mpr ⟨mutex, hmutex, rfl⟩⟩
  | join t' => exact ⟨_, _, if_pos (hjoin t' rfl)⟩
  | AudioMixer_queueSound p =>
    simp only [exec]
    split <;> exact ⟨_, _, rfl⟩
  | _ => exact ⟨_, _, rfl⟩

/-- Once `stopping` is set, the mutex is held by `main` or the playback thread. -/
theorem owner_cases (h : Ending s) (hv : Agree v s) {t : Thread} (ht : (v t).audio = true) :
    t = .main ∨ t = .playback := by
  cases t with
  | main => exact .inl rfl
  | playback => exact .inr rfl
  | udp =>
    have hleaving := (hv.fine .udp).leaving (hv.flags.stopping.mp h.stopping)
    cases hleaving.symm.trans ht
  | joystick =>
    rw [hv.joystick] at ht
    cases ht

theorem goes_of (hprog : s.prog t ≠ [])
    (hlock : ∀ m, (s.prog t).head? = some (.lock m) → (s.shared.mutex m).owner = none)
    (hjoin : ∀ t', (s.prog t).head? = some (.join t') → s.prog t' = []) (inp : Input) :
    ∃ i rest sh' is, s.prog t = i :: rest ∧
      exec size contents t inp s.ended s.shared i = some (sh', is) := by
  cases h : s.prog t with
  | nil => exact absurd h hprog
  | cons i rest =>
    rw [h] at hlock hjoin
    obtain ⟨sh', is, hexec⟩ := @exec_isSome size contents t inp s.shared i s.ended
      (fun m hm => .inr (hlock m (by rw [hm]; rfl)))
      fun t' ht' => List.isEmpty_iff.mpr (hjoin t' (by rw [ht']; rfl))
    exact ⟨i, rest, sh', is, rfl, hexec⟩

/-- `s_lock` is always free when it is locked. -/
theorem s_lock_free (hv : Agree v s) (hhead : (s.prog t).head? = some (.lock .s_lock)) :
    (s.shared.mutex .s_lock).owner = none := by
  obtain ⟨hplayback, hperiod⟩ := of_decide_eq_true (allows_of_head hv hhead)
  rw [hv.threads] at hplayback
  cases howner : (s.shared.mutex .s_lock).owner with
  | none => rfl
  | some t' =>
    have hlocked := hv.locks.period.flag_of_owner howner
    have ht' := (hv.fine t').period hlocked
    rw [hv.threads] at ht'
    rw [ht', ← hplayback, hperiod] at hlocked
    cases hlocked

/-- `audioMutex` is free for a thread that neither `main` nor the playback thread is in the way
of. -/
theorem audioMutex_free (h : Ending s) (hv : Agree v s)
    (hhead : (s.prog t).head? = some (.lock .audioMutex))
    (hmain : t ≠ .main → inSection (s.prog .main) = false)
    (hplayback : t ≠ .playback → s.prog .playback = []) :
    (s.shared.mutex .audioMutex).owner = none := by
  obtain ⟨hfree, -⟩ := of_decide_eq_true (allows_of_head hv hhead)
  cases howner : (s.shared.mutex .audioMutex).owner with
  | none => rfl
  | some t' =>
    have hlocked := hv.locks.audio.flag_of_owner howner
    have hne : t ≠ t' := by
      rintro rfl
      cases hfree.symm.trans hlocked
    rcases owner_cases h hv hlocked with rfl | rfl
    · have hsection := hmain hne
      rw [hv.inSection] at hsection
      cases hsection.symm.trans hlocked
    · rw [hv.checked.ended (hplayback hne)] at hlocked
      cases hlocked

/-- `main` stops the joystick thread before it waits for anybody. -/
theorem joystick_stopped (hv : Agree v s)
    (hmain : s.prog .main = [] ∨ (s.prog .main).head? = some (.join .joystick)) :
    s.shared.joystickRunning = false := by
  rw [hv.flags.joystick]
  rcases hmain with hnil | hhead
  · rw [hv.checked.ended hnil]
    rfl
  · obtain ⟨-, -, ⟨-, hne, -⟩ | ⟨-, hne, -⟩ | ⟨-, -, -, hrunning⟩⟩ :=
      of_decide_eq_true (allows_of_head hv hhead)
    · cases hne
    · cases hne
    · exact hrunning

/-- `main` in a section waits for nobody. -/
theorem main_goes (hv : Agree v s) (hsection : inSection (s.prog .main) = true) (inp : Input) :
    ∃ i rest sh' is, s.prog .main = i :: rest ∧
      exec size contents .main inp s.ended s.shared i = some (sh', is) := by
  have haudio := hsection
  rw [hv.inSection] at haudio
  refine goes_of ?_ (fun m hhead => ?_) (fun t' hhead => ?_) inp
  · intro hnil
    rw [hnil] at hsection
    cases hsection
  · cases m with
    | audioMutex =>
      cases (of_decide_eq_true (allows_of_head hv hhead)).1.symm.trans haudio
    | s_lock => exact s_lock_free hv hhead
  · cases (of_decide_eq_true (allows_of_head hv hhead)).1.symm.trans haudio

theorem playback_goes (h : Ending s) (hv : Agree v s) (hplayback : s.prog .playback ≠ [])
    (hsection : inSection (s.prog .main) = false) (inp : Input) :
    ∃ i rest sh' is, s.prog .playback = i :: rest ∧
      exec size contents .playback inp s.ended s.shared i = some (sh', is) := by
  refine goes_of hplayback (fun m hhead => ?_) (fun t' hhead => ?_) inp
  · cases m with
    | audioMutex => exact audioMutex_free h hv hhead (fun _ => hsection) fun hne => absurd rfl hne
    | s_lock => exact s_lock_free hv hhead
  · have hthread := hv.threads .playback
    obtain ⟨-, -, ⟨hudp, -⟩ | ⟨hmain, -⟩ | ⟨hmain, -⟩⟩ :=
      of_decide_eq_true (allows_of_head hv hhead)
    · cases hthread.symm.trans hudp
    · cases hthread.symm.trans hmain
    · cases hthread.symm.trans hmain

theorem udp_goes (h : Ending s) (hv : Agree v s) (hplayback : s.prog .playback = [])
    (hudp : s.prog .udp ≠ []) (inp : Input) :
    ∃ i rest sh' is, s.prog .udp = i :: rest ∧
      exec size contents .udp inp s.ended s.shared i = some (sh', is) := by
  refine goes_of hudp (fun m hhead => ?_) (fun t' hhead => ?_) inp
  · cases m with
    | audioMutex =>
      obtain ⟨-, -, hbefore, -⟩ := of_decide_eq_true (allows_of_head hv hhead)
      exact absurd hbefore (hv.flags.stopping.mp h.stopping)
    | s_lock => exact s_lock_free hv hhead
  · have hthread := hv.threads .udp
    obtain ⟨-, -, ⟨-, rfl, -⟩ | ⟨hmain, -⟩ | ⟨hmain, -⟩⟩ :=
      of_decide_eq_true (allows_of_head hv hhead)
    · exact hplayback
    · cases hthread.symm.trans hmain
    · cases hthread.symm.trans hmain

/-- `main` when the playback thread and the UDP thread have ended. -/
theorem main_goes_last (h : Ending s) (hv : Agree v s) (hplayback : s.prog .playback = [])
    (hudp : s.prog .udp = []) (hmain : s.prog .main ≠ [])
    (hjoin : (s.prog .main).head? = some (.join .joystick) → s.prog .joystick = []) (inp : Input) :
    ∃ i rest sh' is, s.prog .main = i :: rest ∧
      exec size contents .main inp s.ended s.shared i = some (sh', is) := by
  refine goes_of hmain (fun m hhead => ?_) (fun t' hhead => ?_) inp
  · cases m with
    | audioMutex => exact audioMutex_free h hv hhead (fun hne => absurd rfl hne) fun _ => hplayback
    | s_lock => exact s_lock_free hv hhead
  · have hthread := hv.threads .main
    obtain ⟨-, -, ⟨hne, -⟩ | ⟨-, rfl, -⟩ | ⟨-, rfl, -⟩⟩ :=
      of_decide_eq_true (allows_of_head hv hhead)
    · cases hthread.symm.trans hne
    · exact hudp
    · exact hjoin hhead

theorem joystick_goes (hv : Agree v s) (hjoystick : s.prog .joystick ≠ []) (inp : Input) :
    ∃ i rest sh' is, s.prog .joystick = i :: rest ∧
      exec size contents .joystick inp s.ended s.shared i = some (sh', is) := by
  refine goes_of hjoystick (fun m hhead => ?_) (fun t' hhead => ?_) inp
  · have hallows := allows_of_head hv hhead
    rw [hv.joystick] at hallows
    cases m <;> cases hallows
  · have hallows := allows_of_head hv hhead
    rw [hv.joystick] at hallows
    cases t' <;> cases hallows

/-- **The helpful thread can always go on.** -/
theorem helpful_goes (h : Ending s) (hv : Agree v s) (hdone : ¬ Done s) (inp : Input) :
    (helpful s = .joystick → s.shared.joystickRunning = false) ∧
      ∃ i rest sh' is, s.prog (helpful s) = i :: rest ∧
        exec size contents (helpful s) inp s.ended s.shared i = some (sh', is) := by
  unfold helpful
  by_cases hplayback : s.prog .playback = []
  · rw [if_neg (not_not_intro hplayback)]
    by_cases hudp : s.prog .udp = []
    · rw [if_neg (not_not_intro hudp)]
      split
      · rename_i hmain
        refine ⟨fun _ => joystick_stopped hv (hmain.imp id And.left), joystick_goes hv ?_ inp⟩
        rcases hmain with hnil | ⟨-, hjoystick⟩
        · intro hjoystick
          exact hdone fun t => by cases t <;> assumption
        · exact hjoystick
      · rename_i hmain
        obtain ⟨hnil, hjoin⟩ := not_or.mp hmain
        refine ⟨nofun, main_goes_last h hv hplayback hudp hnil (fun hhead => ?_) inp⟩
        by_contra hjoystick
        exact hjoin ⟨hhead, hjoystick⟩
    · rw [if_pos hudp]
      exact ⟨nofun, udp_goes h hv hplayback hudp inp⟩
  · rw [if_pos hplayback]
    split
    · rename_i hsection
      exact ⟨nofun, main_goes hv hsection inp⟩
    · rename_i hsection
      exact ⟨nofun, playback_goes h hv hplayback (Bool.eq_false_iff.mpr hsection) inp⟩

/-- While the joystick thread's `running` is set, nobody waits for it. -/
theorem helpful_joystick (hv : Agree v s) (hrunning : s.shared.joystickRunning = true)
    (prog : List Instr) :
    helpful { s with prog := Function.update s.prog .joystick prog } = helpful s := by
  have hmain : ¬ (s.prog .main = [] ∨ (s.prog .main).head? = some (.join .joystick)) := by
    intro hmain
    rw [joystick_stopped hv hmain] at hrunning
    cases hrunning
  obtain ⟨hnil, hjoin⟩ := not_or.mp hmain
  simp [helpful, hnil, hjoin]

/-- The thread that takes a step. -/
def Label.thread : Label → Option Thread
  | .go t _ => some t
  | .dies => none

theorem shutdown_progress :
    Progress (step size contents) Label.thread Ending Done (remaining size) helpful where
  keeps s l h := ending_step h l
  falls s l h hdone hwho := by
    obtain ⟨v, hv⟩ := h.views
    cases l with
    | dies => cases hwho
    | go t inp =>
      obtain rfl : t = helpful s := Option.some_inj.mp hwho
      obtain ⟨hrunning, i, rest, sh', is, hprog, hexec⟩ :=
        @helpful_goes size contents v s h hv hdone inp
      have hs : step size contents s (.go (helpful s) inp) =
          { shared := sh', prog := Function.update s.prog (helpful s) (is ++ rest) } := by
        simp [step, hv.aborted, hprog, hexec]
      rw [hs]
      by_cases hne : helpful s = .joystick
      · rw [hne] at hprog hexec ⊢
        exact (remaining_joystick h hprog hexec).2.2 (hrunning hne)
      · exact remaining_go h hv hprog hne hexec
  stays s l h hdone := by
    obtain ⟨v, hv⟩ := h.views
    rcases step_cases size contents s l with ⟨hs, -⟩ |
      ⟨t, inp, i, rest, sh', is, rfl, -, hprog, hexec, hs⟩ | ⟨rfl, -, hat, hs⟩ <;> rw [hs]
    · exact .inr ⟨rfl, rfl⟩
    · by_cases hne : t = .joystick
      · subst hne
        obtain ⟨rfl, hsame, hless⟩ := remaining_joystick h hprog hexec
        cases hrunning : s.shared.joystickRunning with
        | true => exact .inr ⟨hsame hrunning, helpful_joystick hv hrunning _⟩
        | false => exact .inl (hless hrunning)
      · exact .inl (remaining_go h hv hprog hne hexec)
    · obtain ⟨hsame, hless⟩ := @remaining_dies size s hat
      cases hrunning : s.shared.joystickRunning with
      | true => exact .inr ⟨hsame hrunning, helpful_joystick hv hrunning _⟩
      | false => exact .inl (hless hrunning)

/-! ## Infinite runs -/

theorem along_views (ls : ℕ → Label) (n : ℕ) :
    ∃ v, Agree v (along (step size contents) (start size) ls n) := by
  induction n with
  | zero => exact ⟨_, start_agree size⟩
  | succ n ih =>
    obtain ⟨v, hv⟩ := ih
    exact agree_step hv (ls n)

theorem along_polling (ls : ℕ → Label) (n : ℕ) :
    Polling ((along (step size contents) (start size) ls n).prog .joystick) := by
  induction n with
  | zero => exact ⟨[.poll, .sleepForMs], rfl⟩
  | succ n ih => exact polling_step ih (ls n)

/-- **A fair run comes to the end of all threads exactly if `stopping` is set in it.** -/
theorem shutdown_ends (ls : ℕ → Label) (hfair : Fair Label.thread ls) :
    (∃ m, Done (along (step size contents) (start size) ls m)) ↔
      ∃ k, (along (step size contents) (start size) ls k).shared.stopping = true := by
  constructor
  · rintro ⟨m, hdone⟩
    obtain ⟨v, hv⟩ := @along_views size contents ls m
    refine ⟨m, hv.flags.stopping.mpr ?_⟩
    rw [hv.checked.ended (hdone .udp)]
    nofun
  · rintro ⟨k, hstopping⟩
    obtain ⟨m, -, hdone⟩ := shutdown_progress.reaches hfair
      ⟨@along_views size contents ls k, along_polling ls k, hstopping⟩
    exact ⟨m, hdone⟩

end

/-- The place of a thread in a round. -/
def Thread.turn : Thread → ℕ
  | .main => 0
  | .playback => 1
  | .udp => 2
  | .joystick => 3

/-- Every thread in its turn; each datagram is `terminate`. -/
def inTurn (n : ℕ) : Label :=
  .go (match n % 4 with
    | 0 => .main
    | 1 => .playback
    | 2 => .udp
    | _ => .joystick) ⟨0, false, some .terminate⟩

theorem inTurn_fair : Fair Label.thread inTurn := by
  intro t n
  refine ⟨4 * n + t.turn, by omega, ?_⟩
  cases t <;> simp [inTurn, Label.thread, Thread.turn]

theorem shutdown_ends_inTurn :
    ∃ m, Done (along (step 1 fun _ => ⟨1, fun _ => 0, Nat.one_pos⟩) (start 1) inTurn m) :=
  (shutdown_ends inTurn inTurn_fair).mpr ⟨19, by decide⟩

end AudioThreads
