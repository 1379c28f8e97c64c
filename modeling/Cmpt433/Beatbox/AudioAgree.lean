import Cmpt433.Beatbox.AudioViews

/-!
# The views fit the shared state (`work/pcmExample`)

Every step of every thread keeps `Agree`.

* `locks_step`, `flags_step`, `heap_step` — its three parts.
* `agree_step`, `agree_run` — so it holds in every state of every run.
* `one_inside`, `never_aborted` — no two threads are ever between lock and unlock of `audioMutex`,
  even after it is destroyed, and no assertion fails.
-/

set_option autoImplicit false

namespace AudioThreads

open Beatbox Mixer UdpListener LocalViews Pthread Runs

/-! ## What a step keeps -/

section

variable {size : Nat} {contents : Sound → WaveFile} {t : Thread} {inp : Input}
  {ended : Thread → Bool} {sh sh' : Shared} {i : Instr} {is rest : List Instr} {v : Thread → View}

theorem update_audio (w : View) :
    (fun t' => (Function.update v t w t').audio) =
      Function.update (fun t' => (v t').audio) t w.audio :=
  funext fun t' => Function.apply_update (fun _ => View.audio) v t w t'

theorem update_period (w : View) :
    (fun t' => (Function.update v t w t').period) =
      Function.update (fun t' => (v t').period) t w.period :=
  funext fun t' => Function.apply_update (fun _ => View.period) v t w t'

/-- Outside a section the mutexes stay as they are, or one is destroyed. -/
theorem exec_mutex (hsection : i.isSection = false)
    (hexec : exec size contents t inp ended sh i = some (sh', is)) :
    sh'.mutex = if i = .destroy then
      Function.update sh.mutex .audioMutex (pthread_mutex_destroy (sh.mutex .audioMutex))
    else sh.mutex := by
  cases i with
  | lock m | unlock m => cases hsection
  | destroy =>
    cases hexec
    rfl
  | AudioMixer_queueSound p =>
    simp only [exec] at hexec
    split at hexec <;> cases hexec <;> rfl
  | join t' =>
    simp only [exec] at hexec
    split at hexec <;> cases hexec
    rfl
  | assertInitialized =>
    cases hexec
    change (if sh.s_initialized then sh else sh.abort).mutex = sh.mutex
    split <;> rfl
  | _ =>
    cases hexec
    rfl

theorem locks_step (h : Locks v sh) (hthread : (v t).thread = t) (hallows : (v t).allows i)
    (hexec : exec size contents t inp ended sh i = some (sh', is)) :
    Locks (Function.update v t ((v t).next i)) sh' := by
  have hafter : (v .udp).cleanup.afterJoin →
      (Function.update v t ((v t).next i) .udp).cleanup.afterJoin := by
    intro hudp
    by_cases heq : t = .udp
    · subst heq
      rw [Function.update_self]
      exact next_afterJoin hallows hudp
    · rw [Function.update_of_ne (Ne.symm heq)]
      exact hudp
  cases hsection : i.isSection with
  | false =>
    obtain ⟨haudio, hperiod⟩ := next_sections (v := v t) hsection
    have hmutex := exec_mutex hsection hexec
    by_cases hi : i = .destroy
    · subst hi
      rw [if_pos rfl] at hmutex
      obtain ⟨hudp, hjoined⟩ := of_decide_eq_true hallows
      rw [hthread] at hudp
      subst hudp
      refine ⟨?_, ?_, ?_, fun _ => hafter (by rw [hjoined]; rfl)⟩
      · rw [update_audio, haudio, Function.update_eq_self, hmutex, Function.update_self]
        exact h.audio.destroy
      · rw [update_period, hperiod, Function.update_eq_self, hmutex,
          Function.update_of_ne (by decide)]
        exact h.period
      · rw [hmutex, Function.update_of_ne (by decide)]
        exact h.kept
    · rw [if_neg hi] at hmutex
      refine ⟨?_, ?_, ?_, fun hdestroyed => hafter (h.destroyed ?_)⟩
      · rw [update_audio, haudio, Function.update_eq_self, hmutex]
        exact h.audio
      · rw [update_period, hperiod, Function.update_eq_self, hmutex]
        exact h.period
      · rw [hmutex]
        exact h.kept
      · rw [← hmutex]
        exact hdestroyed
  | true =>
    cases i with
    | lock m =>
      obtain ⟨mutex, hlock, heq⟩ := Option.map_eq_some_iff.mp hexec
      cases heq
      have hkept := lock_destroyed hlock
      cases m with
      | audioMutex =>
        refine ⟨?_, ?_, h.kept, fun hdestroyed => hafter (h.destroyed (hkept.symm.trans hdestroyed))⟩
        · rw [update_audio]
          exact h.audio.lock hlock
        · rw [update_period]
          change Owned (Function.update _ t (v t).period) _
          rw [Function.update_eq_self]
          exact h.period
      | s_lock =>
        refine ⟨?_, ?_, hkept.trans h.kept, fun hdestroyed => hafter (h.destroyed hdestroyed)⟩
        · rw [update_audio]
          change Owned (Function.update _ t (v t).audio) _
          rw [Function.update_eq_self]
          exact h.audio
        · rw [update_period]
          exact h.period.lock hlock
    | unlock m =>
      cases hexec
      have hkept := unlock_destroyed t (sh.mutex m)
      cases m with
      | audioMutex =>
        obtain ⟨haudio, -⟩ := of_decide_eq_true hallows
        refine ⟨?_, ?_, h.kept, fun hdestroyed => hafter (h.destroyed (hkept.symm.trans hdestroyed))⟩
        · rw [update_audio]
          exact h.audio.unlock haudio
        · rw [update_period]
          change Owned (Function.update _ t (v t).period) _
          rw [Function.update_eq_self]
          exact h.period
      | s_lock =>
        refine ⟨?_, ?_, hkept.trans h.kept, fun hdestroyed => hafter (h.destroyed hdestroyed)⟩
        · rw [update_audio]
          change Owned (Function.update _ t (v t).audio) _
          rw [Function.update_eq_self]
          exact h.audio
        · rw [update_period]
          exact h.period.unlock (of_decide_eq_true hallows)
    | _ => cases hsection

/-- A step of one thread leaves the views of the others. -/
theorem update_of_thread {α : Type} (f : View → α) (w : View) {t' : Thread}
    (h : t = t' → f w = f (v t')) : f (Function.update v t w t') = f (v t') := by
  by_cases heq : t = t'
  · subst heq
    rw [Function.update_self]
    exact h rfl
  · rw [Function.update_of_ne (Ne.symm heq)]

theorem flags_step {s : State} (h : Flags v s) (hthread : (v t).thread = t)
    (hallows : (v t).allows i) (hprog : s.prog t = i :: rest)
    (hexec : exec size contents t inp s.ended s.shared i = some (sh', is)) :
    Flags (Function.update v t ((v t).next i))
      { shared := sh', prog := Function.update s.prog t (is ++ rest) } := by
  have heffect := exec_effect hexec
  -- a thread that has ended takes no step
  have hended : ∀ t', s.prog t' = [] → Function.update s.prog t (is ++ rest) t' = [] := by
    intro t' hnil
    rw [Function.update_of_ne, hnil]
    rintro rfl
    rw [hprog] at hnil
    cases hnil
  have hjoin : ∀ t', i = .join t' → s.prog t' = [] := by
    rintro t' rfl
    simp only [exec] at hexec
    split at hexec
    · rename_i he
      exact List.isEmpty_iff.mp he
    · cases hexec
  refine ⟨?_, fun hafter => ?_, fun hbefore => ?_, ?_, ?_, fun hoff => ?_⟩
  · rw [heffect.stopping]
    by_cases hi : i = .stop
    · subst hi
      obtain ⟨hudp, -⟩ := of_decide_eq_true hallows
      obtain rfl : t = .udp := hthread.symm.trans hudp
      rw [Function.update_self]
      exact iff_of_true rfl Cleanup.noConfusion
    · rw [decide_eq_false hi, Bool.false_or, h.stopping]
      by_cases heq : t = .udp
      · subst heq
        rw [Function.update_self, next_before hallows]
        intro hbefore
        refine ⟨hi, ?_⟩
        rintro t' rfl
        obtain ⟨-, -, ⟨-, -, hstopped⟩ | ⟨hmain, -⟩ | ⟨hmain, -⟩⟩ := of_decide_eq_true hallows
        · cases hbefore.symm.trans hstopped
        · cases hthread.symm.trans hmain
        · cases hthread.symm.trans hmain
      · rw [Function.update_of_ne (Ne.symm heq)]
  · by_cases heq : t = .udp
    · subst heq
      rw [Function.update_self] at hafter
      by_cases hi : ∃ t', i = .join t'
      · obtain ⟨t', rfl⟩ := hi
        obtain ⟨-, -, ⟨-, rfl, -⟩ | ⟨hmain, -⟩ | ⟨hmain, -⟩⟩ := of_decide_eq_true hallows
        · exact hended _ (hjoin _ rfl)
        · cases hthread.symm.trans hmain
        · cases hthread.symm.trans hmain
      · exact hended _ (h.joined (afterJoin_of_next hallows (fun t' ht' => hi ⟨t', ht'⟩) hafter))
    · rw [Function.update_of_ne (Ne.symm heq)] at hafter
      exact hended _ (h.joined hafter)
  · by_cases heq : t = .main
    · subst heq
      rw [Function.update_self] at hbefore
      by_cases hi : ∃ t', i = .join t'
      · obtain ⟨t', rfl⟩ := hi
        obtain ⟨-, -, ⟨hudp, -⟩ | ⟨-, rfl, -⟩ | ⟨-, rfl, hjoined, -⟩⟩ :=
          of_decide_eq_true hallows
        · cases hthread.symm.trans hudp
        · exact hended _ (hjoin _ rfl)
        · exact hended _ (h.mainJoined (by rw [hjoined]; decide))
      · refine hended _ (h.mainJoined ((next_before hallows fun _ => ⟨?_, ?_⟩).mp hbefore))
        · rintro rfl
          obtain ⟨hudp, -⟩ := of_decide_eq_true hallows
          cases hthread.symm.trans hudp
        · exact fun t' ht' => hi ⟨t', ht'⟩
    · rw [Function.update_of_ne (Ne.symm heq)] at hbefore
      exact hended _ (h.mainJoined hbefore)
  · rw [heffect.udpRunning]
    by_cases hi : i = .stopUdp
    · subst hi
      obtain ⟨hudp, -⟩ := of_decide_eq_true hallows
      obtain rfl : t = .udp := hthread.symm.trans hudp
      rw [Function.update_self]
      rfl
    · rw [decide_eq_true hi, Bool.true_and, h.running]
      refine (update_of_thread View.running _ fun heq => ?_).symm
      subst heq
      refine next_running hi ?_
      rintro rfl
      cases hthread.symm.trans (of_decide_eq_true hallows)
  · rw [heffect.joystickRunning]
    by_cases hi : i = .stopJoystick
    · subst hi
      obtain rfl : t = .main := hthread.symm.trans (of_decide_eq_true hallows)
      rw [Function.update_self]
      rfl
    · rw [decide_eq_true hi, Bool.true_and, h.joystick]
      refine (update_of_thread View.running _ fun heq => ?_).symm
      subst heq
      refine next_running ?_ hi
      rintro rfl
      cases hthread.symm.trans (of_decide_eq_true hallows).1
  · rw [heffect.s_initialized] at hoff
    by_cases hi : i = .Period_cleanup
    · subst hi
      obtain ⟨hmain, -⟩ := of_decide_eq_true hallows
      obtain rfl : t = .main := hthread.symm.trans hmain
      rw [Function.update_self]
      exact Cleanup.noConfusion
    · rw [decide_eq_true hi, Bool.true_and] at hoff
      have hne := h.initialized hoff
      by_cases heq : t = .main
      · subst heq
        rw [Function.update_self, next_before hallows fun hbefore => absurd hbefore hne]
        exact hne
      · rw [Function.update_of_ne (Ne.symm heq)]
        exact hne

/-- A thread frees a block that is its own, and not yet freed. -/
theorem frees_fresh {b : Block} (h : Heap v sh) (hthread : (v t).thread = t)
    (hallows : (v t).allows i) (hi : i.frees = some b) : b ∉ sh.blocks.freed := by
  intro hb
  cases i with
  | freeStats =>
    cases hi
    obtain ⟨hplayback, hstats⟩ := of_decide_eq_true hallows
    obtain rfl : t = .playback := hthread.symm.trans hplayback
    cases hstats.symm.trans (h.pStats.mp hb)
  | freeBuffer =>
    cases hi
    obtain ⟨hudp, hcleanup⟩ := of_decide_eq_true hallows
    obtain rfl : t = .udp := hthread.symm.trans hudp
    cases hcleanup.symm.trans (h.buffer.mp hb)
  | freeData p =>
    cases hi
    obtain ⟨howner, hphase⟩ := of_decide_eq_true hallows
    obtain rfl : t = threadOf p := hthread.symm.trans howner.symm
    rw [← h.phase] at hphase
    rcases (h.pData p).mp hb with hfreed | hfreed <;> cases hphase.symm.trans hfreed
  | _ => cases hi

/-- The sounds as their threads see them. -/
theorem phase_step (h : ∀ p, sh.phase p = (v (threadOf p)).phase p.2) (hthread : (v t).thread = t)
    (hallows : (v t).allows i) (heffect : Effect i sh sh') (p : Sound) :
    sh'.phase p = (Function.update v t ((v t).next i) (threadOf p)).phase p.2 := by
  rw [heffect.phase]
  cases hi : i.sets with
  | none =>
    exact (h p).trans (update_of_thread (fun w => w.phase p.2) _ fun heq => by
      subst heq; exact next_phase hi _).symm
  | some set =>
    obtain ⟨q, φ⟩ := set
    obtain ⟨howner, hnext, -⟩ := next_sets hallows hi
    rw [hthread] at howner
    change Function.update sh.phase q φ p = _
    by_cases heq : threadOf p = t
    · rw [heq, Function.update_self, hnext, setPhase_phase, Function.update_apply]
      have hsame : p = q ↔ p.2 = q.2 := by
        refine ⟨congrArg Prod.snd, fun hfile => Prod.ext ?_ hfile⟩
        have hthreads : threadOf p = threadOf q := heq.trans howner.symm
        obtain ⟨o, f⟩ := p
        obtain ⟨o', f'⟩ := q
        cases o <;> cases o' <;> first | rfl | cases hthreads
      rw [h p, heq]
      simp only [hsame]
    · rw [Function.update_of_ne heq, Function.update_of_ne, h p]
      rintro rfl
      exact heq howner

/-- A sound that is not unread is never unread again. -/
theorem unread_step (heffect : Effect i sh sh') {p : Sound} (hp : sh.phase p ≠ .unread) :
    sh'.phase p ≠ .unread := by
  rw [heffect.phase]
  cases i <;> try exact hp
  all_goals
    simp only [Instr.sets, Option.elim, Function.update_apply]
    split
    · nofun
    · exact hp

/-- Freed are the data of a sound that is freed or cleared. -/
theorem pData_step (h : Heap v sh) (hthread : (v t).thread = t) (hallows : (v t).allows i)
    (heffect : Effect i sh sh') (p : Sound) :
    i.frees = some (.pData p) ∨ .pData p ∈ sh.blocks.freed ↔
      sh'.phase p = .freed ∨ sh'.phase p = .cleared := by
  rw [h.pData, heffect.phase]
  cases hi : i.sets with
  | none =>
    refine or_iff_right fun hfrees => ?_
    cases i with
    | freeData q => cases hi
    | _ => cases hfrees
  | some set =>
    obtain ⟨q, φ⟩ := set
    obtain ⟨howner, -, hphase⟩ := next_sets hallows hi
    obtain rfl : t = threadOf q := hthread.symm.trans howner.symm
    rw [← h.phase q] at hphase
    change _ ↔ Function.update sh.phase q φ p = .freed ∨ Function.update sh.phase q φ p = .cleared
    by_cases heq : p = q
    · subst heq
      rw [Function.update_self]
      have hnot : φ ≠ .freed → i.frees ≠ some (.pData p) := by
        intro hφ hfrees
        cases i with
        | freeData q' =>
          cases hi
          exact hφ rfl
        | _ => cases hfrees
      rcases hphase with ⟨hp, rfl⟩ | ⟨hp, rfl⟩ | ⟨hp, rfl, rfl⟩ | ⟨hp, rfl⟩ <;> rw [hp]
      · rw [or_iff_right (hnot nofun)]
        exact iff_of_false (by decide) (by decide)
      · rw [or_iff_right (hnot nofun)]
        exact iff_of_false (by decide) (by decide)
      · exact iff_of_true (.inl rfl) (.inl rfl)
      · exact iff_of_true (.inr (.inl rfl)) (.inr rfl)
    · rw [Function.update_of_ne heq]
      refine or_iff_right fun hfrees => ?_
      cases i with
      | freeData q' =>
        cases hi
        cases hfrees
        exact heq rfl
      | _ => cases hfrees

theorem heap_step (h : Heap v sh) (hthread : (v t).thread = t) (hallows : (v t).allows i)
    (hexec : exec size contents t inp ended sh i = some (sh', is)) :
    Heap (Function.update v t ((v t).next i)) sh' := by
  have heffect := exec_effect hexec
  have hfreed : ∀ b, b ∈ sh'.blocks.freed ↔ i.frees = some b ∨ b ∈ sh.blocks.freed := by
    intro b
    rw [heffect.freed, List.mem_append, Option.mem_toList]
  refine ⟨phase_step h.phase hthread hallows heffect, fun p => ?_, ?_, ?_, ?_, fun b hb p hp => ?_⟩
  · rw [hfreed]
    exact pData_step h hthread hallows heffect p
  · rw [hfreed, h.buffer]
    by_cases hi : i = .freeBuffer
    · subst hi
      obtain ⟨hudp, -⟩ := of_decide_eq_true hallows
      obtain rfl : t = .udp := hthread.symm.trans hudp
      rw [Function.update_self]
      exact iff_of_true (.inl rfl) rfl
    · have hnot : i.frees ≠ some .playbackBuffer := by
        cases i <;> simp [Instr.frees] at hi ⊢
      rw [or_iff_right hnot]
      by_cases heq : t = .udp
      · subst heq
        rw [Function.update_self, next_finished hallows hthread hi]
      · rw [Function.update_of_ne (Ne.symm heq)]
  · rw [hfreed, h.pStats]
    by_cases hi : i = .freeStats
    · subst hi
      obtain ⟨hplayback, -⟩ := of_decide_eq_true hallows
      obtain rfl : t = .playback := hthread.symm.trans hplayback
      rw [Function.update_self]
      exact iff_of_true (.inl rfl) rfl
    · have hnot : i.frees ≠ some .pStats := by
        cases i <;> simp [Instr.frees] at hi ⊢
      rw [or_iff_right hnot, update_of_thread View.stats _ fun heq => by
        subst heq; exact next_stats hi]
  · rw [heffect.freed]
    cases hi : i.frees with
    | none => exact h.once
    | some b => exact List.nodup_cons.mpr ⟨frees_fresh h hthread hallows hi, h.once⟩
  · by_cases hi : ∃ l, i = .at l
    · obtain ⟨l, rfl⟩ := hi
      cases hexec
      rcases Point.go_pointed hb hp with ⟨b', hb', hp'⟩ | hop
      · exact unread_step heffect (h.pointed b' hb' p hp')
      · obtain ⟨-, hallowsOp⟩ := of_decide_eq_true hallows
        rw [hop] at hallowsOp
        obtain ⟨howner, hread⟩ := of_decide_eq_true hallowsOp
        obtain rfl : t = threadOf p := hthread.symm.trans howner.symm
        refine unread_step heffect ?_
        rw [h.phase p, hread]
        nofun
    · rw [heffect.audio fun l hl => hi ⟨l, hl⟩] at hb
      exact unread_step heffect (h.pointed b hb p hp)

/-! ## Every state of every run -/

theorem dies_agree {s : State} (h : Agree v s) :
    Agree v { s with prog := Function.update s.prog .joystick [] } where
  checked := h.checked.kill h.joystick
  threads := h.threads
  fine := h.fine
  joystick := h.joystick
  locks := h.locks
  flags := ⟨h.flags.stopping, h.flags.joined, h.flags.mainJoined, h.flags.running,
    h.flags.joystick, h.flags.initialized⟩
  heap := h.heap
  aborted := h.aborted

/-- A sound that may be queued has samples. -/
theorem sound_of_read {p : Sound} (hp : sh.phase p = .read) :
    sh.sound contents p = (contents p).data := by
  unfold Shared.sound
  rw [hp]

/-- `Period_cleanup` comes after the playback thread has ended. -/
theorem initialized_of_playback {s : State} (h : Agree v s) (hplayback : s.prog .playback ≠ []) :
    s.shared.s_initialized = true := by
  by_contra hoff
  have hudp := h.flags.mainJoined (h.flags.initialized (Bool.eq_false_iff.mpr hoff))
  refine hplayback (h.flags.joined ?_)
  rw [h.checked.ended hudp]
  rfl

/-- No assertion fails. -/
theorem aborted_step {s : State} (h : Agree v s) (hallows : (v t).allows i)
    (hprog : s.prog t = i :: rest)
    (hexec : exec size contents t inp s.ended s.shared i = some (sh', is)) :
    sh'.aborted = false := by
  have hthread := h.threads t
  cases i with
  | assertInitialized =>
    cases hexec
    obtain ⟨hplayback, -⟩ := of_decide_eq_true hallows
    obtain rfl : t = .playback := hthread.symm.trans hplayback
    rw [if_pos (initialized_of_playback h (by rw [hprog]; nofun))]
    exact h.aborted
  | AudioMixer_queueSound p =>
    obtain ⟨-, howner, hread⟩ := of_decide_eq_true hallows
    obtain rfl : t = threadOf p := hthread.symm.trans howner.symm
    have hsound : s.shared.sound contents p = (contents p).data :=
      sound_of_read ((h.heap.phase p).trans hread)
    simp only [exec] at hexec
    rw [hsound, if_pos ⟨(contents p).pos, rfl⟩] at hexec
    cases hexec
    exact h.aborted
  | lock m =>
    obtain ⟨mutex, -, heq⟩ := Option.map_eq_some_iff.mp hexec
    cases heq
    exact h.aborted
  | join t' =>
    simp only [exec] at hexec
    split at hexec <;> cases hexec
    exact h.aborted
  | _ =>
    cases hexec
    exact h.aborted

theorem agree_go {s : State} (h : Agree v s) (hprog : s.prog t = i :: rest)
    (hexec : exec size contents t inp s.ended s.shared i = some (sh', is)) :
    Agree (Function.update v t ((v t).next i))
      { shared := sh', prog := Function.update s.prog t (is ++ rest) } := by
  obtain ⟨w, hcheck, -⟩ := h.checked.head hprog
  obtain ⟨hallows, -⟩ := check_eq_some.mp hcheck
  have hthread := h.threads t
  refine ⟨h.checked.step hprog fun w' hcheck' => ?_, fun t' => ?_, fun t' => ?_, ?_,
    locks_step h.locks hthread hallows hexec, flags_step h.flags hthread hallows hprog hexec,
    heap_step h.heap hthread hallows hexec, aborted_step h hallows hprog hexec⟩
  · obtain ⟨-, rfl⟩ := check_eq_some.mp hcheck'
    refine exec_accepts hallows ?_ hexec
    rintro rfl
    obtain rfl : t = .udp := by
      rcases of_decide_eq_true hallows with hview | hview <;> rw [hview] at hthread <;>
        exact hthread.symm
    exact h.flags.running
  · rw [update_of_thread View.thread _ fun heq => by rw [next_thread, heq]]
    exact h.threads t'
  · by_cases heq : t' = t
    · subst heq
      rw [Function.update_self]
      exact next_fine hallows (h.fine t')
    · rw [Function.update_of_ne heq]
      exact h.fine t'
  · by_cases heq : t = .joystick
    · subst heq
      rw [Function.update_self, h.joystick]
      exact joystick_next (by rw [← h.joystick]; exact hallows)
    · rw [Function.update_of_ne (Ne.symm heq)]
      exact h.joystick

/-- **Every step of every thread keeps the views.** -/
theorem agree_step {s : State} (h : Agree v s) (l : Label) :
    ∃ v', Agree v' (step size contents s l) := by
  rcases step_cases size contents s l with ⟨hs, -⟩ |
    ⟨t, inp, i, rest, sh', is, rfl, -, hprog, hexec, hs⟩ | ⟨rfl, -, -, hs⟩ <;> rw [hs]
  · exact ⟨v, h⟩
  · exact ⟨_, agree_go h hprog hexec⟩
  · exact ⟨v, dies_agree h⟩

theorem agree_run (tr : List Label) :
    ∃ v, Agree v (after (step size contents) (start size) tr) :=
  @invariant_of_step _ _ (step size contents) (fun s => ∃ v, Agree v s)
    (fun _ l ⟨_, h⟩ => agree_step h l) _ ⟨_, start_agree size⟩ tr

/-! ## The sections -/

/-- A view says whether the program is in a section. -/
theorem audio_of_accepts {v w : View} {prog : List Instr} (h : Accepts check v prog w)
    (hw : w.audio = false) : v.audio = inSection prog := by
  induction prog generalizing v with
  | nil =>
    rw [accepts_nil.mp h, hw]
    rfl
  | cons i rest ih =>
    obtain ⟨v', hcheck, hrest⟩ := accepts_cons.mp h
    obtain ⟨hallows, hv'⟩ := check_eq_some.mp hcheck
    have haudio := ih hrest
    cases i with
    | lock m =>
      cases m with
      | audioMutex => exact (of_decide_eq_true hallows).1
      | s_lock => exact (congrArg View.audio hv').symm.trans haudio
    | unlock m =>
      cases m with
      | audioMutex => exact (of_decide_eq_true hallows).1
      | s_lock => exact (congrArg View.audio hv').symm.trans haudio
    | mainLoop | playbackLoop | joystickLoop =>
      obtain rfl := of_decide_eq_true hallows
      exact (congrArg View.audio hv').symm.trans haudio
    | udpLoop =>
      rcases of_decide_eq_true hallows with rfl | rfl <;>
        exact (congrArg View.audio hv').symm.trans haudio
    | join t => cases t <;> exact (congrArg View.audio hv').symm.trans haudio
    | AudioMixer_readWaveFileIntoMemory p | empty p | freeData p | clear p =>
      exact (setPhase_audio.symm.trans (congrArg View.audio hv').symm).trans haudio
    | _ => exact (congrArg View.audio hv').symm.trans haudio

theorem Agree.inSection {s : State} (h : Agree v s) (t : Thread) :
    inSection (s.prog t) = (v t).audio :=
  (audio_of_accepts (h.checked t) (by cases t <;> rfl)).symm

/-- Once the mutex is destroyed, only `main` goes on locking it. -/
theorem Agree.main_of_destroyed {s : State} (h : Agree v s)
    (hdestroyed : (s.shared.mutex .audioMutex).destroyed = true) (ht : (v t).audio = true) :
    t = .main := by
  have hafter := h.locks.destroyed hdestroyed
  cases t with
  | main => rfl
  | playback =>
    rw [h.checked.ended (h.flags.joined hafter)] at ht
    cases ht
  | udp =>
    rw [(h.fine .udp).leaving fun hbefore => by rw [hbefore] at hafter; cases hafter] at ht
    cases ht
  | joystick =>
    rw [h.joystick] at ht
    cases ht

theorem Agree.alone {s : State} (h : Agree v s) {t' : Thread} (ht : (v t).audio = true)
    (ht' : (v t').audio = true) : t = t' := by
  cases hdestroyed : (s.shared.mutex .audioMutex).destroyed with
  | false => exact h.locks.audio.alone hdestroyed ht ht'
  | true => exact (h.main_of_destroyed hdestroyed ht).trans (h.main_of_destroyed hdestroyed ht').symm

/-- **At most one thread is in a section of `audioMutex`, even after it is destroyed, and no
assertion fails.** -/
theorem one_in_section (tr : List Label) :
    let s := after (step size contents) (start size) tr
    s.shared.aborted = false ∧
      (∀ t t', inSection (s.prog t) → inSection (s.prog t') → t = t') ∧
      ((s.shared.mutex .audioMutex).destroyed → ∀ t, inSection (s.prog t) → t = .main) := by
  obtain ⟨v, h⟩ := @agree_run size contents tr
  refine ⟨h.aborted, fun t t' ht ht' => ?_, fun hdestroyed t ht => ?_⟩
  · rw [h.inSection] at ht ht'
    exact h.alone ht ht'
  · rw [h.inSection] at ht
    exact h.main_of_destroyed hdestroyed ht

end

end AudioThreads
