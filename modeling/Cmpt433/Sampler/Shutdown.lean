import Cmpt433.Sampler.Threads

/-!
# Shutdown and the blocks it frees

`Sampler_shutdownRoutine` frees `recent` and `pStats` while it holds `historyMutex`, but the
sampler thread may be anywhere in its loop: it looks at `running` only at the head.  A thread that
waits for the mutex finds the blocks gone when it gets it (`shutdown_strands_sampler`).

* `Timely` — the condition on a step: a routine frees a block once, and when nobody is going to
  use it any more.
* `sampler_heap`, `udp_heap`, `shutdown_heap` — what a step of each program does to the blocks.
* `shutdown_safe` — the runs whose steps meet the condition free every block at most once and use
  none that is freed.
-/

set_option autoImplicit false

namespace Threads

open Runs

/-! ## The condition -/

/-- From here the sampler thread, once `running` is 0, uses `recent` no more. -/
def SamplerPc.recentOver : SamplerPc → Bool
  | .mallocStats | .head | .sleep | .done => true
  | _ => false

/-- From here the sampler thread, once `running` is 0, uses `pStats` no more. -/
def SamplerPc.statsOver : SamplerPc → Bool
  | .head | .reportUnlock | .listing | .sleep | .done => true
  | _ => false

/-- The array a list request has taken from `recent`. -/
def UdpPc.held : UdpPc → Option Nat
  | .getUse array | .histUnlock array | .histTest array | .histUse array => array
  | _ => none

/-- `recent` does not point to an array that is freed. -/
def Shared.Live (sh : Shared) : Prop := ∀ a ∈ sh.recent, .recent a ∉ sh.blocks.freed

/-- The shutdown routine is the first to free the block, the sampler thread is past its uses of
it, and no list request holds it. -/
def FreesInTime (p : SamplerPc) (held : Option Nat) (sh : Shared) : ShutdownPc → Prop
  | .freeRecent => sh.Live ∧ ∀ a ∈ sh.recent, p.recentOver ∧ a ∉ held
  | .freeStats => sh.pStats → .pStats ∉ sh.blocks.freed ∧ p.statsOver
  | _ => True

/-- A list request takes `recent` before the shutdown routine frees it. -/
def TakesInTime (p : SamplerPc) (sh : Shared) (c : Bool) : UdpPc → Prop
  | .getLoad => c → sh.Live
  | .histLoad => sh.Live
  | .stop pc => FreesInTime p none sh pc
  | _ => True

/-- **The condition on a step.**  A resize frees the old array while no list request holds it. -/
def Timely (s : State) : Label → Prop
  | .sampler _ => s.handlers .sampler = [] → s.sampler = .resizeFree →
      ∀ a ∈ s.shared.recent, a ∉ s.udp.held
  | .udp c => s.handlers .udp = [] → TakesInTime s.sampler s.shared c s.udp
  | .handler t => ∀ pc ∈ (s.handlers t).head?, FreesInTime s.sampler s.udp.held s.shared pc
  | _ => True

instance (sh : Shared) : Decidable sh.Live :=
  inferInstanceAs (Decidable (∀ a ∈ sh.recent, Block.recent a ∉ sh.blocks.freed))

instance (p : SamplerPc) (held : Option Nat) (sh : Shared) :
    (pc : ShutdownPc) → Decidable (FreesInTime p held sh pc)
  | .freeRecent =>
    inferInstanceAs (Decidable (sh.Live ∧ ∀ a ∈ sh.recent, p.recentOver ∧ a ∉ held))
  | .freeStats =>
    inferInstanceAs (Decidable (sh.pStats → Block.pStats ∉ sh.blocks.freed ∧ p.statsOver))
  | .lock | .stopRunning | .sleep | .unlock | .stopLed | .cancelLed | .cancelSampling | .destroy =>
    inferInstanceAs (Decidable True)

instance (p : SamplerPc) (sh : Shared) (c : Bool) : (q : UdpPc) → Decidable (TakesInTime p sh c q)
  | .getLoad => inferInstanceAs (Decidable (c → sh.Live))
  | .histLoad => inferInstanceAs (Decidable sh.Live)
  | .stop pc => inferInstanceAs (Decidable (FreesInTime p none sh pc))
  | .recvfrom | .getUse _ | .histLock | .histUnlock _ | .histTest _ | .histUse _ | .dipLock
  | .dipRead | .dipUnlock | .done => inferInstanceAs (Decidable True)

instance (s : State) : (l : Label) → Decidable (Timely s l)
  | .sampler _ => inferInstanceAs (Decidable (s.handlers .sampler = [] →
      s.sampler = .resizeFree → ∀ a ∈ s.shared.recent, a ∉ s.udp.held))
  | .udp c => inferInstanceAs (Decidable (s.handlers .udp = [] →
      TakesInTime s.sampler s.shared c s.udp))
  | .handler t => inferInstanceAs (Decidable (∀ pc ∈ (s.handlers t).head?,
      FreesInTime s.sampler s.udp.held s.shared pc))
  | .led | .request _ | .sigint _ | .dies _ => inferInstanceAs (Decidable True)

/-! ## The invariant -/

/-- The routine has set `running` to 0. -/
def ShutdownPc.stopped : ShutdownPc → Bool
  | .lock | .stopRunning => false
  | _ => true

structure HeapInv (p : SamplerPc) (held : Option Nat) (sh : Shared) : Prop where
  safe : sh.blocks.Safe
  freed_lt : ∀ a, .recent a ∈ sh.blocks.freed → a < sh.mallocs
  recent_lt : ∀ a ∈ sh.recent, a < sh.mallocs
  /-- A freed `recent` is being replaced, or the sampler thread has no more use for it. -/
  recent_over : sh.Live ∨ p = .resizeAssign ∨ sh.running = false ∧ p.recentOver
  stats_over : .pStats ∈ sh.blocks.freed → sh.running = false ∧ p.statsOver
  held_live : ∀ a ∈ held, .recent a ∉ sh.blocks.freed

structure Inv (s : State) : Prop where
  heap : HeapInv s.sampler s.udp.held s.shared
  stopped : ∀ t, ∀ pc ∈ s.handlers t, pc.stopped → s.shared.running = false
  udp_stopped : ∀ pc, s.udp = .stop pc → pc.stopped → s.shared.running = false

theorem start_inv : Inv start where
  heap := {
    safe := Blocks.empty_safe
    freed_lt := nofun
    recent_lt := nofun
    recent_over := .inl nofun
    stats_over := nofun
    held_live := nofun }
  stopped := nofun
  udp_stopped := nofun

/-! ## Instructions that leave the blocks alone -/

/-- Instructions that touch neither the blocks nor the flag `running`. -/
def Instr.neutral : Instr → Bool
  | .nop | .lock _ | .unlock _ | .destroy _ | .mallocStats | .signal | .stopLed | .cancel _ => true
  | _ => false

structure SameHeap (sh sh' : Shared) : Prop where
  recent : sh'.recent = sh.recent
  mallocs : sh'.mallocs = sh.mallocs
  blocks : sh'.blocks = sh.blocks
  running : sh'.running = sh.running

theorem exec_neutral {t : Thread} {i : Instr} {sh sh' : Shared} (hi : i.neutral)
    (h : exec t i sh = some sh') : SameHeap sh sh' := by
  cases i <;> simp only [Instr.neutral, Bool.false_eq_true] at hi
  case lock m =>
    obtain ⟨_, -, rfl⟩ := Option.map_eq_some_iff.mp h
    exact ⟨rfl, rfl, rfl, rfl⟩
  all_goals
    cases h
    exact ⟨rfl, rfl, rfl, rfl⟩

theorem useArray_sameHeap {t : Thread} {array : Option Nat} {sh : Shared}
    (h : ∀ a ∈ array, .recent a ∉ sh.blocks.freed) : SameHeap sh (sh.useArray t array) := by
  cases array with
  | none => exact ⟨rfl, rfl, rfl, rfl⟩
  | some a => exact ⟨rfl, rfl, Blocks.use_eq (h a rfl), rfl⟩

theorem useArray_running {t : Thread} {array : Option Nat} {sh : Shared} :
    (sh.useArray t array).running = sh.running := by
  cases array <;> rfl

theorem exec_running {t : Thread} {i : Instr} {sh sh' : Shared} (h : exec t i sh = some sh')
    (hrun : sh.running = false) : sh'.running = false := by
  cases i with
  | useRecent | use =>
    cases h
    rw [useArray_running, hrun]
  | useStats | freeRecent | freeStats =>
    cases h
    split <;> exact hrun
  | mallocRecent => cases h; exact hrun
  | stopRunning => cases h; rfl
  | _ => rw [(exec_neutral rfl h).running, hrun]

theorem HeapInv.of_sameHeap {p p' : SamplerPc} {held held' : Option Nat} {sh sh' : Shared}
    (h : HeapInv p held sh) (same : SameHeap sh sh')
    (hover : p = .resizeAssign ∨ sh.running = false ∧ p.recentOver →
      p' = .resizeAssign ∨ sh.running = false ∧ p'.recentOver)
    (hstats : sh.running = false ∧ p.statsOver → p'.statsOver)
    (hheld : ∀ a ∈ held', .recent a ∉ sh.blocks.freed) : HeapInv p' held' sh' := by
  obtain ⟨hrecent, hmallocs, hblocks, hrunning⟩ := same
  refine ⟨?_, ?_, ?_, ?_, ?_, ?_⟩
  · rw [hblocks]; exact h.safe
  · rw [hblocks, hmallocs]; exact h.freed_lt
  · rw [hrecent, hmallocs]; exact h.recent_lt
  · rw [hrunning, Shared.Live, hrecent, hblocks]
    exact h.recent_over.imp id hover
  · rw [hblocks, hrunning]
    exact fun hfreed => ⟨(h.stats_over hfreed).1, hstats (h.stats_over hfreed)⟩
  · rw [hblocks]; exact hheld

/-! ## Freeing a block -/

theorem HeapInv.free_recent {p p' : SamplerPc} {t : Thread} {held : Option Nat} {sh sh' : Shared}
    (h : HeapInv p held sh) (hexec : exec t .freeRecent sh = some sh') (hlive : sh.Live)
    (hheld : ∀ a ∈ sh.recent, a ∉ held)
    (hover : ∀ a ∈ sh.recent, p' = .resizeAssign ∨ sh.running = false ∧ p'.recentOver)
    (hstats : sh.running = false ∧ p.statsOver → p'.statsOver) : HeapInv p' held sh' := by
  cases hexec
  split
  · rename_i a hrecent
    refine ⟨Blocks.safe_free_iff.mpr ⟨h.safe, hlive a hrecent⟩, ?_, h.recent_lt,
      .inr (hover a hrecent), ?_, ?_⟩
    · intro a' ha'
      rcases List.mem_cons.mp ha' with heq | ha'
      · cases heq
        exact h.recent_lt a hrecent
      · exact h.freed_lt a' ha'
    · intro hfreed
      have hfreed := (List.mem_cons.mp hfreed).resolve_left nofun
      exact ⟨(h.stats_over hfreed).1, hstats (h.stats_over hfreed)⟩
    · intro a' ha' hfreed
      rcases List.mem_cons.mp hfreed with heq | hfreed
      · cases heq
        exact hheld a hrecent ha'
      · exact h.held_live a' ha' hfreed
  · exact ⟨h.safe, h.freed_lt, h.recent_lt, .inl hlive,
      fun hfreed => ⟨(h.stats_over hfreed).1, hstats (h.stats_over hfreed)⟩, h.held_live⟩

theorem HeapInv.free_stats {p : SamplerPc} {t : Thread} {held : Option Nat} {sh sh' : Shared}
    (h : HeapInv p held sh) (hexec : exec t .freeStats sh = some sh')
    (hfree : sh.pStats → .pStats ∉ sh.blocks.freed ∧ sh.running = false ∧ p.statsOver) :
    HeapInv p held sh' := by
  cases hexec
  split
  · rename_i hstats
    obtain ⟨hlive, hover⟩ := hfree hstats
    refine ⟨Blocks.safe_free_iff.mpr ⟨h.safe, hlive⟩, ?_, h.recent_lt, ?_, fun _ => hover, ?_⟩
    · exact fun a ha => h.freed_lt a ((List.mem_cons.mp ha).resolve_left nofun)
    · exact h.recent_over.imp_left fun hrecent a ha hfreed =>
        hrecent a ha ((List.mem_cons.mp hfreed).resolve_left nofun)
    · exact fun a ha hfreed => h.held_live a ha ((List.mem_cons.mp hfreed).resolve_left nofun)
  · exact h

/-! ## The sampler thread -/

/-- What a step of `samplerThread` can do, and where it uses the blocks. -/
theorem sampler_instr (p : SamplerPc) :
    (p.instr.neutral ∧ p ≠ .resizeAssign) ∨
    (p.instr = .useRecent ∧ p.recentOver = false ∧ p ≠ .resizeAssign) ∨
    (p.instr = .useStats ∧ p.statsOver = false ∧ p ≠ .resizeAssign) ∨
    (p.instr = .mallocRecent ∧ p.statsOver = false) ∨
    p = .resizeFree := by
  cases p <;> simp [SamplerPc.instr, Instr.neutral, SamplerPc.recentOver, SamplerPc.statsOver]

/-- Once `running` is 0, the sampler thread stays past its uses of the blocks. -/
theorem over_next (p : SamplerPc) (c : Bool) :
    (p.recentOver → (p.next false c).recentOver) ∧ (p.statsOver → (p.next false c).statsOver) := by
  cases p <;> cases c <;> decide

theorem HeapInv.recent_live {p : SamplerPc} {held : Option Nat} {sh : Shared}
    (h : HeapInv p held sh) (hp : p ≠ .resizeAssign) (hnot : p.recentOver = false) : sh.Live := by
  rcases h.recent_over with hlive | heq | hover
  · exact hlive
  · exact absurd heq hp
  · simp [hnot] at hover

theorem HeapInv.stats_live {p : SamplerPc} {held : Option Nat} {sh : Shared}
    (h : HeapInv p held sh) (hnot : p.statsOver = false) : .pStats ∉ sh.blocks.freed := by
  intro hfreed
  have hover := (h.stats_over hfreed).2
  simp [hnot] at hover

/-- A step that leaves the blocks and `running` alone. -/
theorem HeapInv.sampler_next {p : SamplerPc} {held : Option Nat} {sh sh' : Shared} {c : Bool}
    (h : HeapInv p held sh) (same : SameHeap sh sh') (hp : p ≠ .resizeAssign) :
    HeapInv (p.next sh.running c) held sh' := by
  refine h.of_sameHeap same (fun hover => ?_) (fun hover => ?_) h.held_live
  · obtain ⟨hrun, hover⟩ := hover.resolve_left hp
    rw [hrun]
    exact .inr ⟨rfl, (over_next p c).1 hover⟩
  · rw [hover.1]
    exact (over_next p c).2 hover.2

theorem HeapInv.malloc_recent {p p' : SamplerPc} {held : Option Nat} {sh sh' : Shared} {t : Thread}
    (h : HeapInv p held sh) (hexec : exec t .mallocRecent sh = some sh')
    (hnot : p.statsOver = false) : HeapInv p' held sh' := by
  cases hexec
  refine ⟨h.safe, fun a ha => Nat.lt_succ_of_lt (h.freed_lt a ha), ?_, .inl ?_, ?_, h.held_live⟩
  · rintro a ⟨⟩
    exact Nat.lt_succ_self _
  · -- the new array is not one of those that were freed
    rintro a ⟨⟩ hfreed
    exact Nat.lt_irrefl _ (h.freed_lt _ hfreed)
  · exact fun hfreed => absurd hfreed (h.stats_live hnot)

theorem sampler_heap {p : SamplerPc} {held : Option Nat} {sh sh' : Shared} {c : Bool}
    (h : HeapInv p held sh) (hexec : exec .sampler p.instr sh = some sh')
    (hfree : p = .resizeFree → ∀ a ∈ sh.recent, a ∉ held) :
    HeapInv (p.next sh.running c) held sh' := by
  rcases sampler_instr p with ⟨hi, hp⟩ | ⟨hi, hnot, hp⟩ | ⟨hi, hnot, hp⟩ | ⟨hi, hnot⟩ | rfl
  · exact h.sampler_next (exec_neutral hi hexec) hp
  · rw [hi] at hexec
    cases hexec
    exact h.sampler_next (useArray_sameHeap (h.recent_live hp hnot)) hp
  · rw [hi] at hexec
    cases hexec
    refine h.sampler_next ?_ hp
    split
    · exact ⟨rfl, rfl, Blocks.use_eq (h.stats_live hnot), rfl⟩
    · exact ⟨rfl, rfl, rfl, rfl⟩
  · rw [hi] at hexec
    exact h.malloc_recent hexec hnot
  · -- the resize frees the old array, before it sets `recent`
    exact h.free_recent hexec (h.recent_live nofun rfl) (hfree rfl) (fun _ _ => .inl rfl)
      (fun hover => absurd hover.2 (by decide))

/-! ## The shutdown routine -/

theorem shutdown_heap {p : SamplerPc} {t : Thread} {held : Option Nat} {sh sh' : Shared}
    {pc : ShutdownPc} (h : HeapInv p held sh) (hexec : exec t pc.instr sh = some sh')
    (hstopped : pc.stopped → sh.running = false) (htime : FreesInTime p held sh pc) :
    HeapInv p held sh' := by
  cases pc with
  | freeRecent =>
    exact h.free_recent hexec htime.1 (fun a ha => (htime.2 a ha).2)
      (fun a ha => .inr ⟨hstopped rfl, (htime.2 a ha).1⟩) And.right
  | freeStats =>
    exact h.free_stats hexec fun hstats => ⟨(htime hstats).1, hstopped rfl, (htime hstats).2⟩
  | stopRunning =>
    cases hexec
    exact ⟨h.safe, h.freed_lt, h.recent_lt, h.recent_over.imp_right (.imp_right fun hover =>
      ⟨rfl, hover.2⟩), fun hfreed => ⟨rfl, (h.stats_over hfreed).2⟩, h.held_live⟩
  | _ => exact h.of_sameHeap (exec_neutral rfl hexec) id And.right h.held_live

theorem shutdown_stopped {t : Thread} {sh sh' : Shared} {pc pc' : ShutdownPc}
    (hexec : exec t pc.instr sh = some sh') (hstopped : pc.stopped → sh.running = false)
    (hnext : pc.next = some pc') (hpc' : pc'.stopped) : sh'.running = false := by
  cases pc with
  | lock => cases hnext; cases hpc'
  | stopRunning => cases hexec; rfl
  | _ => exact exec_running hexec (hstopped rfl)

/-! ## The UDP thread -/

/-- What a step of `udpListenThread` can do, outside the shutdown routine. -/
theorem udp_instr (p : UdpPc) : (∃ pc, p = .stop pc) ∨ p.instr.neutral ∨ p.instr = .use p.held := by
  cases p with
  | stop pc => exact .inl ⟨pc, rfl⟩
  | _ => simp [UdpPc.instr, UdpPc.held, Instr.neutral]

/-- A list request holds what it held before, or has just taken `recent`. -/
theorem held_next (p : UdpPc) (recent : Option Nat) (c : Bool) {a : Nat}
    (ha : a ∈ (p.next recent c).held) :
    a ∈ p.held ∨ (a ∈ recent ∧ (p = .getLoad ∧ c ∨ p = .histLoad)) := by
  cases p with
  | stop pc => cases pc <;> cases ha
  | getLoad | histTest => cases c <;> simp_all [UdpPc.next, UdpPc.held]
  | _ => simp_all [UdpPc.next, UdpPc.held]

theorem udp_heap {p : SamplerPc} {q : UdpPc} {sh sh' : Shared} {c : Bool}
    (h : HeapInv p q.held sh) (hexec : exec .udp q.instr sh = some sh')
    (hstopped : ∀ pc, q = .stop pc → pc.stopped → sh.running = false)
    (htime : TakesInTime p sh c q) : HeapInv p (q.next sh.recent c).held sh' := by
  have hheld : ∀ a ∈ (q.next sh.recent c).held, .recent a ∉ sh.blocks.freed := by
    intro a ha
    rcases held_next q sh.recent c ha with hheld | ⟨hrecent, ⟨rfl, hc⟩ | rfl⟩
    · exact h.held_live a hheld
    · exact htime hc a hrecent
    · exact htime a hrecent
  rcases udp_instr q with ⟨pc, rfl⟩ | hi | hi
  · have hnone : ((UdpPc.stop pc).next sh.recent c).held = none := by cases pc <;> rfl
    rw [hnone]
    exact shutdown_heap h hexec (hstopped pc rfl) htime
  · exact h.of_sameHeap (exec_neutral hi hexec) id And.right hheld
  · rw [hi] at hexec
    cases hexec
    exact h.of_sameHeap (useArray_sameHeap h.held_live) id And.right hheld

/-! ## Runs -/

theorem next_stop {q : UdpPc} {recent : Option Nat} {c : Bool} {pc : ShutdownPc}
    (h : q.next recent c = .stop pc) : ∃ pc', q = .stop pc' ∧ pc'.next = some pc := by
  cases q with
  | stop pc' =>
    refine ⟨pc', rfl, ?_⟩
    cases hnext : pc'.next with
    | none => simp [UdpPc.next, hnext] at h
    | some pc'' => simpa [UdpPc.next, hnext] using h
  | getLoad | histTest => cases c <;> cases h
  | _ => cases h

theorem mem_update {f : Thread → List ShutdownPc} {t t' : Thread} {frames : List ShutdownPc}
    {pc : ShutdownPc} (h : pc ∈ Function.update f t frames t') : pc ∈ frames ∨ pc ∈ f t' := by
  by_cases ht : t' = t
  · subst ht
    rw [Function.update_self] at h
    exact .inl h
  · rw [Function.update_of_ne ht] at h
    exact .inr h

theorem ended_inv {s : State} {t : Thread} (h : Inv s) (hpoint : s.atCancellationPoint t) :
    Inv (s.ended t) := by
  have hstopped : ∀ t', ∀ pc ∈ (s.ended t).handlers t', pc.stopped → s.shared.running = false := by
    intro t' pc hpc
    have hpc : pc ∈ Function.update s.handlers t [] t' := by cases t <;> exact hpc
    exact h.stopped t' pc ((mem_update hpc).resolve_left List.not_mem_nil)
  cases t with
  | sampler =>
    refine ⟨h.heap.of_sameHeap ⟨rfl, rfl, rfl, rfl⟩ (fun hover => ?_) (fun _ => rfl)
      h.heap.held_live, hstopped, h.udp_stopped⟩
    rcases hover with heq | hover
    · -- between the `free` of a resize and the new array, a thread only ends inside a handler
      have hrunning : s.shared.running = false := by
        unfold State.atCancellationPoint at hpoint
        split at hpoint
        · rename_i pc rest hframes
          have hpc : pc = .sleep := of_decide_eq_true hpoint
          exact h.stopped .sampler pc (by rw [hframes]; exact List.mem_cons_self) (by rw [hpc]; rfl)
        · rw [heq] at hpoint
          cases hpoint
      exact .inr ⟨hrunning, rfl⟩
    · exact .inr ⟨hover.1, rfl⟩
  | led | main | udp => exact ⟨h.heap, hstopped, h.udp_stopped⟩

section

variable {s : State} (h : Inv s)

include h

theorem sampler_inv {c : Bool} (htime : Timely s (.sampler c)) : Inv (step s (.sampler c)) := by
  simp only [step]
  split
  · rename_i hbase
    cases hexec : exec .sampler s.sampler.instr s.shared with
    | none => exact h
    | some sh' =>
      exact ⟨sampler_heap h.heap hexec (htime hbase),
        fun t pc hpc hs => exec_running hexec (h.stopped t pc hpc hs),
        fun pc hpc hs => exec_running hexec (h.udp_stopped pc hpc hs)⟩
  · exact h

theorem udp_inv {c : Bool} (htime : Timely s (.udp c)) : Inv (step s (.udp c)) := by
  simp only [step]
  split
  · rename_i hbase
    cases hexec : exec .udp s.udp.instr s.shared with
    | none => exact h
    | some sh' =>
      refine ⟨udp_heap h.heap hexec h.udp_stopped (htime hbase),
        fun t pc hpc hs => exec_running hexec (h.stopped t pc hpc hs), fun pc hpc hs => ?_⟩
      obtain ⟨pc', hpc', hnext⟩ := next_stop hpc
      rw [hpc'] at hexec
      exact shutdown_stopped hexec (h.udp_stopped pc' hpc') hnext hs
  · exact h

theorem led_inv : Inv (step s .led) := by
  simp only [step]
  split
  · cases hexec : exec .led s.led.instr s.shared with
    | none => exact h
    | some sh' =>
      have hneutral : s.led.instr.neutral := by cases s.led <;> rfl
      exact ⟨h.heap.of_sameHeap (exec_neutral hneutral hexec) id And.right h.heap.held_live,
        fun t pc hpc hs => exec_running hexec (h.stopped t pc hpc hs),
        fun pc hpc hs => exec_running hexec (h.udp_stopped pc hpc hs)⟩
  · exact h

theorem handler_inv {t : Thread} (htime : Timely s (.handler t)) : Inv (step s (.handler t)) := by
  simp only [step]
  split
  · exact h
  · rename_i pc rest hframes
    cases hexec : exec t pc.instr s.shared with
    | none => exact h
    | some sh' =>
      have hpc : pc.stopped → s.shared.running = false :=
        h.stopped t pc (by simp [hframes])
      refine ⟨shutdown_heap h.heap hexec hpc (htime pc (by simp [hframes])), ?_,
        fun pc' hpc' hs => exec_running hexec (h.udp_stopped pc' hpc' hs)⟩
      intro t' pc' hpc' hs
      rcases mem_update hpc' with hpc' | hpc'
      · rcases List.mem_append.mp hpc' with hnext | hrest
        · exact shutdown_stopped hexec hpc (Option.mem_toList.mp hnext) hs
        · exact exec_running hexec (h.stopped t pc' (by simp [hframes, hrest]) hs)
      · exact exec_running hexec (h.stopped t' pc' hpc' hs)

theorem request_inv {r : Request} : Inv (step s (.request r)) := by
  simp only [step]
  split
  · have hheld : r.start.held = none := by cases r <;> rfl
    refine ⟨?_, h.stopped, ?_⟩
    · exact h.heap.of_sameHeap ⟨rfl, rfl, rfl, rfl⟩ id And.right (by simp [hheld])
    · -- a routine that begins has not set `running` yet
      intro pc hpc hs
      cases r <;> cases hpc
      cases hs
  · exact h

theorem sigint_inv {t : Thread} : Inv (step s (.sigint t)) := by
  simp only [step]
  split
  · refine ⟨h.heap, fun t' pc hpc hs => ?_, h.udp_stopped⟩
    rcases mem_update hpc with hpc | hpc
    · rcases List.mem_cons.mp hpc with rfl | hpc
      · cases hs
      · exact h.stopped t pc hpc hs
    · exact h.stopped t' pc hpc hs
  · exact h

theorem dies_inv {t : Thread} : Inv (step s (.dies t)) := by
  simp only [step]
  split
  · rename_i hdies
    exact ended_inv h hdies.2
  · exact h

end

theorem step_inv (s : State) (l : Label) (h : Inv s) (htime : Timely s l) : Inv (step s l) := by
  cases l with
  | sampler c => exact sampler_inv h htime
  | udp c => exact udp_inv h htime
  | led => exact led_inv h
  | handler t => exact handler_inv h htime
  | request r => exact request_inv h
  | sigint t => exact sigint_inv h
  | dies t => exact dies_inv h

/-- **Shutdown in time is safe**: in a run whose steps all meet the condition, every state has each
block freed at most once, and none used after that. -/
theorem shutdown_safe {run : List Label} (h : Throughout step Timely start run) :
    ∀ pre, pre <+: run → (after step start pre).shared.blocks.Safe := by
  rintro pre ⟨post, rfl⟩
  exact (invariant step_inv start_inv ((throughout_append _ _ _).mp h).1).heap.safe

/-- The sampler thread gets ready and takes a sample. -/
def oneSample : List Label :=
  -- allocate and clear `recent`, allocate `pStats`, head, body, store
  [.sampler false, .sampler false, .sampler false, .sampler false, .sampler false, .sampler false]

/-- `Sampler_shutdownRoutine` for a request `stop`, up to `pthread_mutex_unlock`. -/
def stopFrees : List Label :=
  [.request .stop, .udp false, .udp false, .udp false, .udp false, .udp false, .udp false]

/-- The sampler thread goes to sleep before the shutdown frees the blocks, and then ends. -/
def stopAsleep : List Label :=
  oneSample ++ [.sampler false] ++ stopFrees ++ [.sampler false, .sampler false]

theorem shutdown_safe_asleep :
    (after step start stopAsleep).shared.blocks.freed = [.pStats, .recent 0] ∧
      (after step start stopAsleep).shared.blocks.Safe :=
  ⟨by decide, shutdown_safe (by decide) stopAsleep List.prefix_rfl⟩

/-- The sampler thread waits for `historyMutex` to print its report; when it gets it, `pStats` and
`recent` are freed. -/
theorem shutdown_strands_sampler :
    ¬ ∀ run : List Label, (after step start run).shared.blocks.Safe := by
  intro hall
  have hsafe := hall (oneSample ++ [.sampler true, .sampler false] ++ stopFrees ++
    -- lock, the dips, `pStats`
    [.sampler false, .sampler false, .sampler false, .sampler false, .sampler false])
  have hstale := hsafe.none_stale
  exact absurd hstale (by decide)

end Threads
